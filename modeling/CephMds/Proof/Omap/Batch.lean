import CephMds.Model.Omap
import CephMds.Proof.DentryKey

/-!
# What a commit writes

The loop of `_omap_commit` goes through the dentries once. `written` says what
it writes for a dentry, if anything, and `kept` what it leaves of it in the
cache. However the writes are cut into batches, together they are these
(`mem_ops_omapCommit`), each key is written at most once, and only the last
batch has the header.
-/

namespace CephMds.Omap

open Checked Dentries Writes

variable {ι φ : Type} (o : InodeOps ι) (e : Surroundings) (snaps : Option (Finset Snapid))

/-- The dentry is trimmed. -/
def trims (k : Key) (dn : Dentry ι) : Bool := k.snapid != cephNosnap && snaps.any (tryTrimSnapDentry e k dn)

/-- The dentry is clean and skipped. -/
def Dentry.skipped (dn : Dentry ι) : Bool := !dn.dirty && (!dn.fragmenting || dn.linkage.isNull)

/-- What is written for a dentry. -/
def written (k : Key) (dn : Dentry ι) : Option (Option (Entry ι)) :=
  if trims e snaps k dn then some none
  else if dn.skipped then none
  else some (o.encodeDentry snaps dn).entry

/-- What is left of a dentry in the cache. -/
def kept (k : Key) (dn : Dentry ι) : Option (Dentry ι) :=
  if trims e snaps k dn then none
  else if dn.skipped then some dn
  else some (o.encodeDentry snaps dn)

/-- What the history says of a dentry in a commit. -/
def changed (k : Key) (dn : Dentry ι) : List (Change ι) :=
  if trims e snaps k dn then [.trim k]
  else if dn.skipped then []
  else Batch.purged k dn snaps

variable {o e snaps} {b : Batch ι φ} {k : Key} {dn : Dentry ι}

theorem encodeDentry_of_null (h : dn.linkage = .null) : o.encodeDentry snaps dn = dn := by
  unfold InodeOps.encodeDentry
  rw [h]

/-- A dentry without an entry is a null dentry. -/
theorem entry_eq_none : dn.entry = none ↔ dn.linkage = .null := by
  rw [Dentry.entry]
  cases dn.linkage <;> simp

theorem encodeDentry_dirty : (o.encodeDentry snaps dn).dirty = dn.dirty := by
  unfold InodeOps.encodeDentry
  split <;> rfl

theorem encodeDentry_entry_eq_none : (o.encodeDentry snaps dn).entry = none ↔ dn.linkage = .null := by
  rw [entry_eq_none]
  unfold InodeOps.encodeDentry
  split
  · rename_i h
    simp [h]
  · rfl

namespace Batch

/-- All that has been issued or is about to be. -/
def ops (b : Batch ι φ) : List (List Byte × Option (Entry ι)) :=
  b.issued.flatMap Mutation.ops ++ (Mutation.mk (φ := φ) none b.toSet b.toRemove).ops

theorem ops_flush (max : UInt32) : (b.flush max).ops = b.ops := by
  rw [flush]
  split
  · simp [ops, Mutation.ops]
  · rfl

theorem flush_items (max : UInt32) : (b.flush max).items = b.items ∧ (b.flush max).changes = b.changes := by
  rw [flush]
  split <;> exact ⟨rfl, rfl⟩

theorem mem_ops_remove {key : List Byte} {q : List Byte × Option (Entry ι)} :
    q ∈ (b.remove key).ops ↔ q ∈ b.ops ∨ q = (key, none) := by
  simp only [ops, remove, Mutation.ops, List.mem_append, List.mem_map, List.mem_singleton]
  grind

theorem mem_ops_set {key : List Byte} {x : Entry ι} {n : ℕ} {q : List Byte × Option (Entry ι)} :
    q ∈ (b.set key x n).ops ↔ q ∈ b.ops ∨ q = (key, some x) := by
  simp only [ops, set, Mutation.ops, List.mem_append, List.mem_map, List.mem_singleton]
  grind

/-- None of the batches that are issued in the loop has the header. -/
def Headless (b : Batch ι φ) : Prop := ∀ m ∈ b.issued, m.header = none

theorem Headless.flush (h : Headless b) (max : UInt32) : Headless (b.flush max) := by
  rw [Batch.flush]
  split
  · intro m hm
    rcases List.mem_append.mp hm with hm | hm
    · exact h m hm
    · rw [List.mem_singleton.mp hm]
  · exact h

/-- What one pass of the loop does with a dentry. -/
structure Pass (o : InodeOps ι) (e : Surroundings) (snaps : Option (Finset Snapid)) (k : Key) (dn : Dentry ι)
    (b b' : Batch ι φ) : Prop where
  headless : Headless b → Headless b'
  ops : ∀ q, q ∈ b'.ops ↔ q ∈ b.ops ∨ ∃ v, written o e snaps k dn = some v ∧ q = (k.encode, v)
  items : b.items[k]? = some dn → ∀ k', b'.items[k']? = if k' = k then kept o e snaps k dn else b.items[k']?
  changes : b'.changes = b.changes ++ changed e snaps k dn

theorem pass_trim (h : trims e snaps k dn = true) :
    Pass o e snaps k dn b (b.commitDentry o e snaps (k, dn)) := by
  rw [show b.commitDentry o e snaps (k, dn) = { (b.remove k.encode) with
    items := b.items.erase k, changes := b.changes ++ [.trim k] } from if_pos h]
  refine ⟨id, fun q => ?_, fun _ k' => ?_, ?_⟩
  · rw [written, if_pos h]
    show q ∈ (b.remove k.encode).ops ↔ _
    rw [mem_ops_remove]
    simp
  · rw [kept, if_pos h, getElem?_erase]
  · rw [changed, if_pos h]

theorem pass_skip (h : ¬ trims e snaps k dn = true) (hs : dn.skipped = true) :
    Pass o e snaps k dn b (b.commitDentry o e snaps (k, dn)) := by
  rw [show b.commitDentry o e snaps (k, dn) = b from (if_neg h).trans (if_pos hs)]
  refine ⟨id, fun q => ?_, fun hk k' => ?_, ?_⟩
  · simp [written, h, hs]
  · rw [kept, if_neg h, if_pos hs]
    split
    · rename_i hk'
      rw [hk', hk]
    · rfl
  · simp [changed, h, hs]

theorem pass_write (h : ¬ trims e snaps k dn = true) (hs : ¬ dn.skipped = true) :
    Pass o e snaps k dn b (b.commitDentry o e snaps (k, dn)) := by
  have hw : written o e snaps k dn = some (o.encodeDentry snaps dn).entry := by
    rw [written, if_neg h, if_neg hs]
  have hkept : kept o e snaps k dn = some (o.encodeDentry snaps dn) := by
    rw [kept, if_neg h, if_neg hs]
  have hch : changed e snaps k dn = purged k dn snaps := by
    rw [changed, if_neg h, if_neg hs]
  cases hx : (o.encodeDentry snaps dn).entry with
  | none =>
    have hnull := encodeDentry_entry_eq_none.mp hx
    have heq : b.commitDentry o e snaps (k, dn) = (b.remove k.encode).flush e.maxDirCommitSize := by
      refine ((if_neg h).trans (if_neg hs)).trans ?_
      dsimp only
      rw [hx]
    rw [heq]
    refine ⟨fun hb => Headless.flush (b := b.remove k.encode) hb _, fun q => ?_, fun hk k' => ?_, ?_⟩
    · rw [ops_flush, mem_ops_remove, hw, hx]
      simp
    · rw [(flush_items _).1, hkept, encodeDentry_of_null hnull]
      show b.items[k']? = _
      split
      · rename_i hk'
        rw [hk', hk]
      · rfl
    · rw [(flush_items _).2, hch]
      show b.changes = _
      cases snaps <;> simp [purged, hnull]
  | some x =>
    have heq : b.commitDentry o e snaps (k, dn) = flush { (b.set k.encode x (o.length x)) with
        items := b.items.insert k (o.encodeDentry snaps dn)
        changes := b.changes ++ purged k dn snaps } e.maxDirCommitSize := by
      refine ((if_neg h).trans (if_neg hs)).trans ?_
      dsimp only
      rw [hx]
      rfl
    rw [heq]
    refine ⟨fun hb => Headless.flush (b := { (b.set k.encode x (o.length x)) with
      items := b.items.insert k (o.encodeDentry snaps dn)
      changes := b.changes ++ purged k dn snaps }) hb _, fun q => ?_, fun _ k' => ?_, ?_⟩
    · rw [ops_flush]
      show q ∈ (b.set k.encode x (o.length x)).ops ↔ _
      rw [mem_ops_set, hw, hx]
      simp
    · rw [(flush_items _).1, hkept]
      show (b.items.insert k _)[k']? = _
      rw [getElem?_insert]
    · rw [(flush_items _).2, hch]

theorem pass (o : InodeOps ι) (e : Surroundings) (snaps : Option (Finset Snapid)) (b : Batch ι φ) (k : Key) (dn : Dentry ι) :
    Pass o e snaps k dn b (b.commitDentry o e snaps (k, dn)) := by
  by_cases h : trims e snaps k dn = true
  · exact pass_trim h
  · by_cases hs : dn.skipped = true
    · exact pass_skip h hs
    · exact pass_write h hs

/-- The whole loop, over dentries with different keys. -/
theorem foldl_commitDentry (o : InodeOps ι) (e : Surroundings) (snaps : Option (Finset Snapid))
    {b : Batch ι φ} {ps : List (Key × Dentry ι)} (hps : (ps.map Prod.fst).Nodup)
    (hmem : ∀ p ∈ ps, b.items[p.1]? = some p.2) (hb : Headless b) :
    Headless (ps.foldl (commitDentry o e snaps) b) ∧
    (∀ q, q ∈ (ps.foldl (commitDentry o e snaps) b).ops ↔
      q ∈ b.ops ∨ ∃ p ∈ ps, ∃ v, written o e snaps p.1 p.2 = some v ∧ q = (p.1.encode, v)) ∧
    (∀ k dn, (k, dn) ∈ ps → (ps.foldl (commitDentry o e snaps) b).items[k]? = kept o e snaps k dn) ∧
    (∀ k, k ∉ ps.map Prod.fst → (ps.foldl (commitDentry o e snaps) b).items[k]? = b.items[k]?) ∧
    (ps.foldl (commitDentry o e snaps) b).changes = b.changes ++ ps.flatMap fun p => changed e snaps p.1 p.2 := by
  induction ps generalizing b with
  | nil => simp [hb]
  | cons p ps ih =>
    obtain ⟨k, dn⟩ := p
    rw [List.map_cons, List.nodup_cons] at hps
    have hpass := pass o e snaps b k dn
    have hitems := hpass.items (hmem (k, dn) List.mem_cons_self)
    have hne : ∀ p ∈ ps, p.1 ≠ k := by
      intro p hp he
      exact hps.1 (List.mem_map.mpr ⟨p, hp, he⟩)
    obtain ⟨h₁, h₂, h₃, h₄, h₅⟩ := ih (b := b.commitDentry o e snaps (k, dn)) hps.2
      (fun p hp => by rw [hitems, if_neg (hne p hp)]; exact hmem p (List.mem_cons_of_mem _ hp))
      (hpass.headless hb)
    rw [List.foldl_cons]
    refine ⟨h₁, fun q => ?_, fun k' dn' hk' => ?_, fun k' hk' => ?_, ?_⟩
    · rw [h₂, hpass.ops, or_assoc, List.exists_mem_cons_iff]
    · rcases List.mem_cons.mp hk' with hk' | hk'
      · cases hk'
        rw [h₄ k hps.1, hitems, if_pos rfl]
      · exact h₃ k' dn' hk'
    · rw [List.map_cons, List.mem_cons, not_or] at hk'
      rw [h₄ k' hk'.2, hitems, if_neg hk'.1]
    · rw [h₅, hpass.changes, List.append_assoc, List.flatMap_cons]

end Batch

/-! ## The commit -/

namespace State

variable {s : State ι φ}

/-- All that is still to reach the object. -/
def ops (s : State ι φ) : List (List Byte × Option (Entry ι)) := s.pending.flatMap Mutation.ops

/-- What the loop of a commit leaves in the local variables. -/
def batch (o : InodeOps ι) (e : Surroundings) (s : State ι φ) : Batch ι φ :=
  s.dir.items.toList.foldl (Batch.commitDentry o e (snapPurge e.realm s.dir.fnode)) ⟨0, [], [], [], s.dir.items, []⟩

/-- What a commit does to the state. -/
structure Commits (o : InodeOps ι) (e : Surroundings) (s s' : State ι φ) : Prop where
  pending : ∃ ms m, s'.pending = s.pending ++ ms ++ [m] ∧ (∀ x ∈ ms, x.header = none) ∧
    m.header = some s.dir.fnode
  ops : ∃ l, s'.ops = s.ops ++ l ∧ ∀ q, q ∈ l ↔ ∃ k dn v, s.dir.items[k]? = some dn ∧
    written o e (snapPurge e.realm s.dir.fnode) k dn = some v ∧ q = (k.encode, v)
  items : ∀ k, s'.dir.items[k]? = (s.dir.items[k]?).bind (kept o e (snapPurge e.realm s.dir.fnode) k)
  history : s'.history = s.history ++ s.dir.items.toList.flatMap fun p =>
    changed e (snapPurge e.realm s.dir.fnode) p.1 p.2

theorem commits (o : InodeOps ι) (e : Surroundings) (s : State ι φ) : Commits o e s (s.omapCommit o e) := by
  have hnodup : (s.dir.items.toList.map Prod.fst).Nodup := by
    refine List.Pairwise.map Prod.fst (fun p q h => ?_) s.dir.items.ordered_keys_toList
    rintro he
    rw [he, Std.compare_self] at h
    cases h
  have hmem : ∀ p ∈ s.dir.items.toList, s.dir.items[p.1]? = some p.2 := by
    intro p hp
    exact Std.ExtTreeMap.mem_toList_iff_getElem?_eq_some.mp hp
  obtain ⟨h₁, h₂, h₃, h₄, h₅⟩ := Batch.foldl_commitDentry o e (snapPurge e.realm s.dir.fnode)
    (b := (⟨0, [], [], [], s.dir.items, []⟩ : Batch ι φ)) hnodup hmem (fun m hm => by cases hm)
  refine ⟨⟨_, _, rfl, h₁, rfl⟩, ⟨(s.batch o e).ops, ?_, fun q => ?_⟩, fun k => ?_, ?_⟩
  · simp only [State.ops, omapCommit, Batch.ops, batch, List.flatMap_append, List.flatMap_singleton,
      List.append_assoc]
    rfl
  · rw [batch, h₂]
    constructor
    · rintro (h | ⟨p, hp, v, hv, hq⟩)
      · simp [Batch.ops, Mutation.ops] at h
      · exact ⟨p.1, p.2, v, hmem p hp, hv, hq⟩
    · rintro ⟨k, dn, v, hk, hv, hq⟩
      exact .inr ⟨(k, dn), Std.ExtTreeMap.mem_toList_iff_getElem?_eq_some.mpr hk, v, hv, hq⟩
  · show (s.batch o e).items[k]? = _
    cases hk : s.dir.items[k]? with
    | some dn => exact h₃ k dn (Std.ExtTreeMap.mem_toList_iff_getElem?_eq_some.mpr hk)
    | none =>
      rw [batch, h₄ k]
      · exact hk
      · intro hkm
        obtain ⟨p, hp, rfl⟩ := List.mem_map.mp hkm
        rw [hmem p hp] at hk
        cases hk
  · show s.history ++ (s.batch o e).changes = _
    rw [batch, h₅]
    rfl

end State

end CephMds.Omap
