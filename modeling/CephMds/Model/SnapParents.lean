import CephMds.Framework.Run
import CephMds.Framework.Check
import Mathlib

/-!
# Snap realms at the end of a rejoin

`MDCache::choose_lock_states_and_reconnect_caps`, `check_realm_past_parents`,
`do_cap_import` and `open_snap_parents`, with the messages that they send to
the clients. A realm is its inode, and an inode its number and its pointer:
the order of the pointers, and that of the unordered `inode_map`, is any. The
trace of a split message and its `split_realms` are those of the realm that
the message names, and are left out, as are the numbers of a cap, the states
of locks, `reconnected_snaprealms` (a message of another kind) and
`rejoin_waiters` (which nothing here fills).

Which realm an inode is in, and when the past parents of a realm are open, is
not part of the sources.
-/

namespace CephMds.SnapParents

open Checked

/-- The inodes in the cache. -/
structure Cache (ι : Type) where
  /-- `inode_map`, in the order of its iterator. -/
  inodes : List ι
  nodup : inodes.Nodup
  /-- The inode of `find_snaprealm`. -/
  realm : ι → ι
  /-- It is found at the first inode upwards that has one. -/
  realm_realm : ∀ i, realm (realm i) = realm i

/-- `MClientSnap` with `CEPH_SNAP_OP_SPLIT`. -/
structure Split (ι : Type) where
  split : ι
  inos : List ι
  deriving DecidableEq

/-- `MClientCaps` with `CEPH_CAP_OP_IMPORT`, and its client. -/
structure Import (ι : Type) where
  client : ℕ
  ino : ι
  realm : ι
  deriving DecidableEq

abbrev Splits (ι : Type) := ℕ → Option (Split ι)

structure Mds (ι : Type) where
  /-- The clients with a session. -/
  session : ℕ → Bool
  /-- `have_past_parents_open`. -/
  pastParentsOpen : Finset ι
  reconnectedCaps : ι → Std.ExtTreeMap ℕ ι
  /-- The keys of `missing_snap_parents`. -/
  missingSnapParents : Finset ι
  /-- The value of a key, as pairs of a client and an inode. -/
  missingSplits : ι → Finset (ℕ ×ₗ ι)
  /-- The references under `PIN_OPENINGSNAPPARENTS`. -/
  pins : ι → ℕ
  /-- As pairs of a client and an inode. -/
  delayedImportedCaps : Finset (ℕ ×ₗ ι)
  /-- The auth pins that `do_cap_import` took. -/
  authPins : ι → ℕ
  /-- `Capability::suppress`, of the cap of a client. -/
  suppress : ℕ → ι → ℕ
  /-- The split messages that were sent to a client. -/
  splits : ℕ → List (Split ι)
  imports : List (Import ι)
  /-- `rejoin_done` was reached. -/
  done : Bool

variable {ι : Type} [LinearOrder ι]

/-- Adds one reference. -/
def bump {κ : Type} [DecidableEq κ] (f : κ → ℕ) (k : κ) : κ → ℕ := Function.update f k (f k + 1)

def prepareRealmSplit (realm : ι) (client : ℕ) (ino : ι) (splits : Splits ι) : Splits ι :=
  Function.update splits client <| some <|
    match splits client with
    | none => ⟨realm, [ino]⟩
    | some snap => { snap with inos := snap.inos ++ [ino] }

namespace Mds

/-- Nothing is missing, and these caps are reconnected. -/
def initial (session : ℕ → Bool) (pastParentsOpen : Finset ι) (caps : ι → Std.ExtTreeMap ℕ ι) : Mds ι where
  session := session
  pastParentsOpen := pastParentsOpen
  reconnectedCaps := caps
  missingSnapParents := ∅
  missingSplits _ := ∅
  pins _ := 0
  delayedImportedCaps := ∅
  authPins _ := 0
  suppress _ _ := 0
  splits _ := []
  imports := []
  done := false

def sendSnaps (s : Mds ι) (splits : Splits ι) : Mds ι :=
  { s with splits := fun c => s.splits c ++ if s.session c then (splits c).toList else [] }

def addReconnectedCap (s : Mds ι) (i : ι) (client : ℕ) (realm : ι) : Mds ι :=
  { s with reconnectedCaps := Function.update s.reconnectedCaps i ((s.reconnectedCaps i).insert client realm) }

def checkRealmPastParents (s : Mds ι) (realm : ι) : Mds ι :=
  if realm ∈ s.pastParentsOpen then s
  else if realm ∈ s.missingSnapParents then s
  else { s with pins := bump s.pins realm, missingSnapParents := insert realm s.missingSnapParents }

/-- One of the reconnected caps of an inode in `realm`, with the realm that the client believes in. -/
def visitCap (realm i : ι) (st : Mds ι × Splits ι) (cap : ℕ × ι) : Mds ι × Splits ι :=
  if cap.2 = realm then st
  else if realm ∈ st.1.pastParentsOpen then (st.1, prepareRealmSplit realm cap.1 i st.2)
  else
    ({ st.1 with
        missingSnapParents := insert realm st.1.missingSnapParents
        missingSplits := Function.update st.1.missingSplits realm
          (insert (toLex (cap.1, i)) (st.1.missingSplits realm)) }, st.2)

def visitInode (cache : Cache ι) (st : Mds ι × Splits ι) (i : ι) : Mds ι × Splits ι :=
  (st.1.reconnectedCaps i).toList.foldl (visitCap (cache.realm i) i)
    (st.1.checkRealmPastParents (cache.realm i), st.2)

def chooseLockStatesAndReconnectCaps (cache : Cache ι) (s : Mds ι) : Mds ι :=
  let (s, splits) := cache.inodes.foldl (visitInode cache) (s, fun _ => none)
  { s with reconnectedCaps := fun _ => ∅ }.sendSnaps splits

/-- The cap of `client` on `i` is imported. -/
def doCapImport (cache : Cache ι) (s : Mds ι) (client : ℕ) (i : ι) : Mds ι :=
  if cache.realm i ∈ s.pastParentsOpen then { s with imports := s.imports ++ [⟨client, i, cache.realm i⟩] }
  else
    { s with
      authPins := bump s.authPins i
      suppress := Function.update s.suppress client (bump (s.suppress client) i)
      delayedImportedCaps := insert (toLex (client, i)) s.delayedImportedCaps
      missingSnapParents := insert i s.missingSnapParents }

/-- `put(PIN_OPENINGSNAPPARENTS)`. -/
def put (s : Mds ι) (i : ι) : Checked (Mds ι) := do
  assert (0 < s.pins i)
  return { s with pins := Function.update s.pins i (s.pins i - 1) }

/-- A key of `missing_snap_parents`; `opened` is what its `open_parents` returns. -/
def openKey (cache : Cache ι) (opened : ι → Bool) (st : Mds ι × Splits ι) (i : ι) : Checked (Mds ι × Splits ι) := do
  assert (cache.realm i = i)
  if i ∈ st.1.pastParentsOpen ∨ opened i then
    let splits := (ascending (st.1.missingSplits i)).foldl (fun m x => prepareRealmSplit i (ofLex x).1 (ofLex x).2 m) st.2
    let s := { st.1 with
      pastParentsOpen := insert i st.1.pastParentsOpen
      missingSnapParents := st.1.missingSnapParents.erase i
      missingSplits := Function.update st.1.missingSplits i ∅ }
    let s ← s.put i
    return (s, splits)
  else return st

def doDelayedCapImports (s : Mds ι) : Checked (Mds ι) := do
  assert (s.delayedImportedCaps = ∅)
  return s

/-- Every key of `missing_snap_parents` leaves a context in the gather, so that
the function is called again as long as it finds a key. -/
def openSnapParents (cache : Cache ι) (opened : ι → Bool) (s : Mds ι) : Checked (Mds ι) := do
  let st ← (ascending s.missingSnapParents).foldlM (openKey cache opened) (s, fun _ => none)
  let t := st.1.sendSnaps st.2
  if s.missingSnapParents ≠ ∅ then return t
  else
    assert (t.missingSnapParents = ∅)
    let t ← t.doDelayedCapImports
    return { t with done := true }

end Mds

inductive Action (ι : Type)
  | addReconnectedCap (i : ι) (client : ℕ) (realm : ι)
  /-- The check for the realm of `i`. -/
  | checkRealmPastParents (i : ι)
  | doCapImport (client : ℕ) (i : ι)
  | chooseLockStatesAndReconnectCaps
  | openSnapParents (opened : ι → Bool)
  /-- The past parents of a realm are opened by something else. -/
  | opened (realm : ι)

namespace Mds

def perform (cache : Cache ι) (s : Mds ι) : Action ι → Checked (Mds ι)
  | .addReconnectedCap i client realm => return s.addReconnectedCap i client realm
  | .checkRealmPastParents i => return s.checkRealmPastParents (cache.realm i)
  | .doCapImport client i => return s.doCapImport cache client i
  | .chooseLockStatesAndReconnectCaps => return s.chooseLockStatesAndReconnectCaps cache
  | .openSnapParents opened => s.openSnapParents cache opened
  | .opened realm => return { s with pastParentsOpen := insert realm s.pastParentsOpen }

end Mds

def step (cache : Cache ι) (s : Mds ι) (a : Action ι) : Option (Mds ι) := (s.perform cache a).toOption

end CephMds.SnapParents
