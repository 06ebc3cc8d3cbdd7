import CephMds.Framework.Run
import CephMds.Framework.Writes
import CephMds.Framework.Check
import Mathlib

/-!
# The snap realms of a client

The realms that a client knows (`snap_realms`), their cached snap contexts and
their references, and the functions of `Client.cc` that change them:
`update_snap_trace`, `handle_snap`, and the first and last cap of an inode, which
open and close its realm. A pointer to a realm is its inode number. The inodes
are those with caps, with their realm. `queue_cap_snap` shows here only in the
contexts it asks for. No message makes a realm its own ancestor: this is asserted
where a parent is set.
-/

namespace CephMds.Snap

open Checked Writes

/-! ## Data -/

/-- `SnapContext`, the snaps in descending order. -/
structure Context where
  seq : ℕ
  snaps : List ℕ
  deriving DecidableEq

structure Realm where
  seq : ℕ
  created : ℕ
  parent : ℕ
  parentSince : ℕ
  priorParentSnaps : List ℕ
  mySnaps : List ℕ
  pparent : Option ℕ
  pchildren : Finset ℕ
  cachedSnapContext : Context
  nref : ℤ

/-- A realm that nothing is known of. -/
def Realm.new : Realm := ⟨0, 0, 0, 0, [], [], none, ∅, ⟨0, []⟩, 0⟩

abbrev Realms := Std.ExtTreeMap ℕ Realm

/-- `SnapRealmInfo`. -/
structure Info where
  ino : ℕ
  seq : ℕ
  created : ℕ
  parent : ℕ
  parentSince : ℕ
  priorParentSnaps : List ℕ
  mySnaps : List ℕ

/-- The realms, and the realm of each inode with caps. -/
structure Client where
  realms : Realms
  inodes : Std.ExtTreeMap ℕ ℕ

/-! ## Contexts -/

/-- `SnapRealm::build_snap_context`, with the context of the parent. -/
def Realm.buildSnapContext (realm : Realm) (psnapc : Option Context) : Context :=
  let parents := match psnapc with
    | none => []
    | some c => c.snaps.filter fun s => s ≥ realm.parentSince
  { seq := match psnapc with
      | none => realm.seq
      | some c => max realm.seq c.seq
    snaps := (ascending (realm.priorParentSnaps ++ parents ++ realm.mySnaps).toFinset).reverse }

/-- `SnapRealm::get_snap_context`, which builds the context when the cached one has no seq. -/
def getSnapContext : ℕ → Realms → ℕ → Checked (Context × Realms)
  | 0, _, _ => throw .fuel
  | n + 1, rs, r => do
    let realm ← deref rs[r]?
    if realm.cachedSnapContext.seq ≠ 0 then pure (realm.cachedSnapContext, rs)
    else
      match realm.pparent with
      | none =>
        let c := realm.buildSnapContext none
        pure (c, rs.insert r { realm with cachedSnapContext := c })
      | some p => do
        let (psnapc, rs) ← getSnapContext n rs p
        let c := realm.buildSnapContext (some psnapc)
        pure (c, rs.insert r { realm with cachedSnapContext := c })

/-- The context of a realm. -/
def Realms.context (rs : Realms) (r : ℕ) : Checked (Context × Realms) := getSnapContext (rs.size + 1) rs r

/-- The loop of `invalidate_snaprealm_and_children` over the queue. -/
def invalidateLoop : ℕ → Realms → List ℕ → Checked Realms
  | _, rs, [] => pure rs
  | 0, _, _ :: _ => throw .fuel
  | n + 1, rs, r :: q => do
    let realm ← deref rs[r]?
    invalidateLoop n (rs.insert r { realm with cachedSnapContext := { realm.cachedSnapContext with seq := 0 } })
      (q ++ ascending realm.pchildren)

/-- `invalidate_snaprealm_and_children`. -/
def Realms.invalidateSnaprealmAndChildren (rs : Realms) (r : ℕ) : Checked Realms := invalidateLoop rs.size rs [r]

/-! ## References -/

/-- `get_snap_realm`. -/
def Realms.getSnapRealm (rs : Realms) (r : ℕ) : Realms :=
  let realm := rs[r]?.getD .new
  rs.insert r { realm with nref := realm.nref + 1 }

/-- `put_snap_realm`. -/
def putSnapRealm : ℕ → Realms → ℕ → Checked Realms
  | 0, _, _ => throw .fuel
  | n + 1, rs, r => do
    let realm ← deref rs[r]?
    if realm.nref - 1 ≠ 0 then pure (rs.insert r { realm with nref := realm.nref - 1 })
    else
      let rs := rs.erase r
      match realm.pparent with
      | none => pure rs
      | some p => do
        let parent ← deref rs[p]?
        putSnapRealm n (rs.insert p { parent with pchildren := parent.pchildren.erase r }) p

def Realms.put (rs : Realms) (r : ℕ) : Checked Realms := putSnapRealm rs.size rs r

/-- `r` is `x` or one of its ancestors. -/
def isAbove (rs : Realms) (r : ℕ) : ℕ → ℕ → Bool
  | 0, _ => false
  | n + 1, x => x == r || ((rs[x]?.bind Realm.pparent).any (isAbove rs r n))

/-- The old parent of a realm is dropped. -/
def Realms.dropParent (rs : Realms) (r : ℕ) : Option ℕ → Checked Realms
  | none => pure rs
  | some p => do
    let parent ← deref rs[p]?
    Realms.put (rs.insert p { parent with pchildren := parent.pchildren.erase r }) p

/-- `adjust_realm_parent`, with what it returns. -/
def Realms.adjustRealmParent (rs : Realms) (r parent : ℕ) : Checked (Bool × Realms) := do
  let realm ← deref rs[r]?
  if realm.parent = parent then pure (false, rs)
  else
    assert (!isAbove rs r (rs.size + 1) parent)
    let rs ← Realms.dropParent (rs.insert r { realm with parent := parent, pparent := none }) r realm.pparent
    let rs := rs.getSnapRealm parent
    let realm ← deref rs[r]?
    let rs := rs.insert r { realm with pparent := some parent }
    let p ← deref rs[parent]?
    pure (true, rs.insert parent { p with pchildren := insert r p.pchildren })

/-! ## Traces -/

/-- The realms that some inode has. -/
def Client.hasInodes (c : Client) (r : ℕ) : Bool := c.inodes.toList.any fun p => p.2 == r

/-- "Flush me + children": `queue_cap_snap` for the inodes with caps. -/
def flushLoop (has : ℕ → Bool) : ℕ → Realms → List ℕ → Checked Realms
  | _, rs, [] => pure rs
  | 0, _, _ :: _ => throw .fuel
  | n + 1, rs, r :: q => do
    let realm ← deref rs[r]?
    if has r then do
      let (_, rs) ← rs.context r
      flushLoop has n rs (q ++ ascending realm.pchildren)
    else flushLoop has n rs (q ++ ascending realm.pchildren)

/-- What the trace says is newer than what is known. -/
def Info.newer (info : Info) (realm : Realm) : Bool := realm.seq < info.seq

/-- What is taken over from the trace. -/
def Realm.update (realm : Realm) (info : Info) : Realm :=
  { realm with
    seq := info.seq
    created := info.created
    parentSince := info.parentSince
    priorParentSnaps := info.priorParentSnaps
    mySnaps := info.mySnaps }

/-- "Writeback any dirty caps _before_ updating snap list". -/
def Realms.flushOld (rs : Realms) (has : ℕ → Bool) (flush : Bool) (info : Info) : Checked Realms := do
  let realm ← deref rs[info.ino]?
  if info.newer realm && flush then flushLoop has rs.size rs [info.ino] else pure rs

/-- "Update", and invalidate if the realm or its parent has changed. -/
def Realms.takeInfo (rs : Realms) (info : Info) (invalidate : Bool) : Checked Realms := do
  let realm ← deref rs[info.ino]?
  if info.newer realm then
    Realms.invalidateSnaprealmAndChildren (rs.insert info.ino (realm.update info)) info.ino
  else if invalidate then rs.invalidateSnaprealmAndChildren info.ino
  else pure rs

/-- The loop body of `update_snap_trace`. -/
def Realms.traceEntry (has : ℕ → Bool) (flush : Bool) (rs : Realms) (info : Info) : Checked Realms := do
  let rs ← Realms.flushOld (rs.getSnapRealm info.ino) has flush info
  let (invalidate, rs) ← rs.adjustRealmParent info.ino info.parent
  let rs ← rs.takeInfo info invalidate
  rs.put info.ino

/-- `update_snap_trace`. -/
def Client.updateSnapTrace (c : Client) (infos : List Info) (flush : Bool) : Checked Client := do
  let rs ← infos.foldlM (Realms.traceEntry c.hasInodes flush) c.realms
  pure { c with realms := rs }

/-! ## Messages -/

/-- An inode is taken out of its realm, to be moved, unless its realm is newer. -/
def splitInode (realm created : ℕ) (inodes : Std.ExtTreeMap ℕ ℕ) (s : Realms × List ℕ) (ino : ℕ) :
    Checked (Realms × List ℕ) :=
  match inodes[ino]? with
  | none => pure s
  | some r =>
    if r = realm then pure s
    else do
      let old ← deref s.1[r]?
      if old.created > created then pure s
      else do
        let (_, rs) ← s.1.context r
        let rs ← rs.put r
        pure (rs, s.2 ++ [ino])

/-- A child realm is moved. -/
def splitRealm (realm : ℕ) (rs : Realms) (child : ℕ) : Checked Realms :=
  match rs[child]? with
  | none => pure rs
  | some _ => do
    let (_, rs) ← (rs.getSnapRealm child).adjustRealmParent child realm
    rs.put child

/-- `to_move`: the inodes are put into the new realm. -/
def moveInodes (realm : ℕ) (c : Client) (ino : ℕ) : Client where
  realms := c.realms.getSnapRealm realm
  inodes := c.inodes.insert ino realm

/-- `handle_snap` with `CEPH_SNAP_OP_SPLIT`. -/
def Client.handleSplit (c : Client) (split : ℕ) (infos : List Info) (splitInos splitRealms : List ℕ) :
    Checked Client := do
  assert (split != 0)
  let info ← deref infos.head?
  assert (info.ino == split)
  let rs := c.realms.getSnapRealm split
  let (rs, toMove) ← splitInos.foldlM (splitInode split info.created c.inodes) (rs, [])
  let rs ← splitRealms.foldlM (splitRealm split) rs
  -- The inodes to be moved are on no list while the trace is looked at.
  let has := fun r => c.inodes.toList.any fun p => p.2 == r && !toMove.contains p.1
  let rs ← infos.foldlM (Realms.traceEntry has true) rs
  let c := toMove.foldl (moveInodes split) { c with realms := rs }
  let rs ← c.realms.put split
  pure { c with realms := rs }

/-- `add_update_cap`, of the first cap of an inode. -/
def Client.openRealm (c : Client) (ino realm : ℕ) : Checked Client := do
  assert (!c.inodes.contains ino)
  pure { realms := c.realms.getSnapRealm realm, inodes := c.inodes.insert ino realm }

/-- `remove_cap`, of the last one. -/
def Client.closeRealm (c : Client) (ino : ℕ) : Checked Client := do
  let r ← deref c.inodes[ino]?
  let rs ← c.realms.put r
  pure { realms := rs, inodes := c.inodes.erase ino }

/-! ## Runs -/

inductive Action
  | trace (infos : List Info) (flush : Bool)
  | split (split : ℕ) (infos : List Info) (splitInos splitRealms : List ℕ)
  | openRealm (ino realm : ℕ)
  | closeRealm (ino : ℕ)
  | context (r : ℕ)

/-- A step, undefined where an assertion fails or what is assumed of the messages does not hold. -/
def Client.step (c : Client) : Action → Option Client
  | .trace infos flush => (c.updateSnapTrace infos flush).toOption
  | .split split infos splitInos splitRealms => (c.handleSplit split infos splitInos splitRealms).toOption
  | .openRealm ino realm => (c.openRealm ino realm).toOption
  | .closeRealm ino => (c.closeRealm ino).toOption
  | .context r => (c.realms.context r).toOption.map fun p => { c with realms := p.2 }

/-- A client that knows no realms. -/
def Client.empty : Client := ⟨∅, ∅⟩

end CephMds.Snap
