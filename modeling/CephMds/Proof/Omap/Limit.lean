import CephMds.Framework.Cutting
import CephMds.Proof.Omap.Batch

/-!
# The size of a batch

The batches of a commit are its writes in the order of the dentries, cut behind
a dentry that is not trimmed when the size, counted in 32 bits, has reached the
limit (`foldl_commitDentry_cut`). A dentry that is trimmed is passed over, so
that the batch grows beyond the limit if more is to be written
(`omapCommit_limit_iff`).
-/

namespace CephMds.Omap

open Dentries Cutting

variable {ι φ : Type}

/-- What the loop writes for a dentry; without a content the key is removed. -/
structure Write (ι : Type) where
  key : List Byte
  content : Option (Entry ι)
  trimmed : Bool

/-- The length of the key, and of the encoded dentry. -/
def Write.size (o : InodeOps ι) (w : Write ι) : ℕ := w.key.length + w.content.elim 0 o.length

/-- The write for a dentry, if there is one. -/
def write? (o : InodeOps ι) (e : Surroundings) (snaps : Option (Finset Snapid)) (p : Key × Dentry ι) : Option (Write ι) :=
  (written o e snaps p.1 p.2).map fun content => ⟨p.1.encode, content, trims e snaps p.1 p.2⟩

/-- All writes of a commit, in the order of the dentries. -/
def State.writes (o : InodeOps ι) (e : Surroundings) (s : State ι φ) : List (Write ι) :=
  s.dir.items.toList.filterMap (write? o e (snapPurge e.realm s.dir.fnode))

def totalSize (o : InodeOps ι) (ws : List (Write ι)) : ℕ := (ws.map (Write.size o)).sum

/-- `to_set` and `to_remove` for some writes. -/
def bodyOf (ws : List (Write ι)) : List (List Byte × Entry ι) × List (List Byte) :=
  (ws.filterMap fun w => w.content.map fun x => (w.key, x), ws.filterMap fun w => if w.content.isNone then some w.key else none)

def Mutation.body (m : Mutation ι φ) : List (List Byte × Entry ι) × List (List Byte) := (m.toSet, m.toRemove)

/-- The flush test comes after the last of some writes, and succeeds. -/
def flushes (o : InodeOps ι) (max : UInt32) (ws : List (Write ι)) : Bool :=
  ws.getLast?.any (fun w => !w.trimmed) && decide (max ≤ UInt32.ofNat (totalSize o ws))

variable {o : InodeOps ι} {e : Surroundings} {snaps : Option (Finset Snapid)} {b : Batch ι φ} {s : State ι φ}
  {issued : List (List (Write ι))} {cur : List (Write ι)}

theorem flushes_concat (o : InodeOps ι) (max : UInt32) (cur : List (Write ι)) (w : Write ι) :
    flushes o max (cur ++ [w]) = (!w.trimmed && decide (max ≤ UInt32.ofNat (totalSize o (cur ++ [w])))) := by
  rw [flushes, List.getLast?_concat]
  rfl

theorem totalSize_concat (o : InodeOps ι) (cur : List (Write ι)) (w : Write ι) :
    totalSize o (cur ++ [w]) = totalSize o cur + w.size o := by
  rw [totalSize, totalSize, List.map_append, List.sum_append]
  rfl

theorem bodyOf_concat (cur : List (Write ι)) (w : Write ι) : bodyOf (cur ++ [w]) =
    ((bodyOf cur).1 ++ (w.content.map fun x => (w.key, x)).toList,
      (bodyOf cur).2 ++ if w.content.isNone then [w.key] else []) := by
  obtain ⟨key, content, trimmed⟩ := w
  rw [bodyOf, bodyOf, List.filterMap_append, List.filterMap_append]
  cases content <;> rfl

/-! ## The loop -/

/-- The local variables, in terms of the writes issued and of those to be issued. -/
structure Holding (o : InodeOps ι) (issued : List (List (Write ι))) (cur : List (Write ι)) (b : Batch ι φ) : Prop where
  issued : b.issued.map Mutation.body = issued.map bodyOf
  body : (b.toSet, b.toRemove) = bodyOf cur
  size : b.writeSize = UInt32.ofNat (totalSize o cur)

/-- The flush test after one more write. -/
theorem Holding.flush (h : Holding o issued cur b) (max : UInt32) :
    Holding o (if max ≤ UInt32.ofNat (totalSize o cur) then issued ++ [cur] else issued)
      (if max ≤ UInt32.ofNat (totalSize o cur) then [] else cur) (b.flush max) := by
  rw [Batch.flush, h.size]
  split
  · refine ⟨?_, rfl, rfl⟩
    rw [List.map_append, List.map_append, h.issued]
    exact congrArg (fun x => issued.map bodyOf ++ [x]) h.body
  · exact h

theorem Holding.remove (h : Holding o issued cur b) (key : List Byte) (trimmed : Bool) :
    Holding o issued (cur ++ [⟨key, none, trimmed⟩]) (b.remove key) := by
  refine ⟨h.issued, ?_, ?_⟩
  · rw [bodyOf_concat, ← h.body]
    exact Prod.ext (List.append_nil _).symm rfl
  · show b.writeSize + UInt32.ofNat key.length = _
    rw [h.size, totalSize_concat]
    exact (UInt32.ofNat_add (totalSize o cur) key.length).symm

theorem Holding.set (h : Holding o issued cur b) (key : List Byte) (x : Entry ι) :
    Holding o issued (cur ++ [⟨key, some x, false⟩]) (b.set key x (o.length x)) := by
  refine ⟨h.issued, ?_, ?_⟩
  · rw [bodyOf_concat, ← h.body]
    exact Prod.ext rfl (List.append_nil _).symm
  · show b.writeSize + UInt32.ofNat (key.length + o.length x) = _
    rw [h.size, totalSize_concat]
    exact (UInt32.ofNat_add (totalSize o cur) (key.length + o.length x)).symm

theorem Holding.congr {b' : Batch ι φ} (h : Holding o issued cur b) (hi : b'.issued = b.issued)
    (hs : b'.toSet = b.toSet) (hr : b'.toRemove = b.toRemove) (hw : b'.writeSize = b.writeSize) :
    Holding o issued cur b' :=
  ⟨by rw [hi, h.issued], by rw [hs, hr, h.body], by rw [hw, h.size]⟩

/-- One pass of the loop. -/
theorem Holding.commitDentry (h : Holding o issued cur b) (e : Surroundings) (snaps : Option (Finset Snapid))
    (p : Key × Dentry ι) :
    match write? o e snaps p with
    | none => Holding o issued cur (b.commitDentry o e snaps p)
    | some w => Holding o (if flushes o e.maxDirCommitSize (cur ++ [w]) then issued ++ [cur ++ [w]] else issued)
        (if flushes o e.maxDirCommitSize (cur ++ [w]) then [] else cur ++ [w]) (b.commitDentry o e snaps p) := by
  obtain ⟨k, dn⟩ := p
  rw [write?, written]
  dsimp only
  by_cases htrim : trims e snaps k dn = true
  · have heq : b.commitDentry o e snaps (k, dn) = { b.remove k.encode with
        items := b.items.erase k, changes := b.changes ++ [.trim k] } := if_pos htrim
    rw [if_pos htrim, heq, htrim]
    dsimp only [Option.map_some]
    rw [flushes_concat]
    exact (h.remove k.encode true).congr rfl rfl rfl rfl
  · rw [if_neg htrim]
    have hfalse : trims e snaps k dn = false := Bool.eq_false_of_not_eq_true htrim
    by_cases hskip : dn.skipped = true
    · rw [if_pos hskip, show b.commitDentry o e snaps (k, dn) = b from (if_neg htrim).trans (if_pos hskip)]
      exact h
    · rw [if_neg hskip, hfalse]
      dsimp only [Option.map_some]
      rw [flushes_concat]
      simp only [Bool.not_false, Bool.true_and, decide_eq_true_eq]
      cases hx : (o.encodeDentry snaps dn).entry with
      | none =>
        have heq : b.commitDentry o e snaps (k, dn) = (b.remove k.encode).flush e.maxDirCommitSize := by
          refine ((if_neg htrim).trans (if_neg hskip)).trans ?_
          dsimp only
          rw [hx]
        rw [heq]
        exact (h.remove k.encode false).flush e.maxDirCommitSize
      | some x =>
        have heq : b.commitDentry o e snaps (k, dn) = Batch.flush { (b.set k.encode x (o.length x)) with
            items := b.items.insert k (o.encodeDentry snaps dn)
            changes := b.changes ++ Batch.purged k dn snaps } e.maxDirCommitSize := by
          refine ((if_neg htrim).trans (if_neg hskip)).trans ?_
          dsimp only
          rw [hx]
          rfl
        rw [heq]
        refine Holding.flush (Holding.congr (h.set k.encode x) ?_ ?_ ?_ ?_) e.maxDirCommitSize <;> rfl

/-- What has been issued after the loop, with what remains. -/
theorem foldl_commitDentry_cut (h : Holding o issued cur b) (e : Surroundings) (snaps : Option (Finset Snapid))
    (ps : List (Key × Dentry ι)) :
    (ps.foldl (Batch.commitDentry o e snaps) b).issued.map Mutation.body ++
        [((ps.foldl (Batch.commitDentry o e snaps) b).toSet, (ps.foldl (Batch.commitDentry o e snaps) b).toRemove)] =
      (issued ++ cutBy (flushes o e.maxDirCommitSize) cur (ps.filterMap (write? o e snaps))).map bodyOf := by
  induction ps generalizing issued cur b with
  | nil =>
    show b.issued.map Mutation.body ++ [(b.toSet, b.toRemove)] = (issued ++ [cur]).map bodyOf
    rw [h.issued, h.body, List.map_append]
    rfl
  | cons p ps ih =>
    have hpass := h.commitDentry e snaps p
    rw [List.foldl_cons]
    cases hw : write? o e snaps p with
    | none =>
      rw [hw] at hpass
      rw [ih hpass, List.filterMap_cons_none hw]
    | some w =>
      rw [hw] at hpass
      rw [ih hpass, List.filterMap_cons_some hw, cutBy]
      split
      · rw [List.append_assoc]
        rfl
      · rfl

/-! ## The commit -/

/-- The commit issues some pieces of its writes, one operation for each. -/
structure State.Batched (o : InodeOps ι) (e : Surroundings) (s : State ι φ) (pieces : List (List (Write ι))) : Prop where
  flatten : pieces.flatten = s.writes o e
  issued : ∃ ms, (s.omapCommit o e).pending = s.pending ++ ms ∧ ms.map Mutation.body = pieces.map bodyOf

theorem length_body (ws : List (Write ι)) : (bodyOf ws).1.length + (bodyOf ws).2.length = ws.length := by
  induction ws with
  | nil => rfl
  | cons w ws ih =>
    rw [bodyOf] at ih ⊢
    cases hc : w.content with
    | none => simp only [List.filterMap_cons, hc, Option.map_none, Option.isNone_none, if_true, List.length_cons] at ih ⊢; omega
    | some x =>
      simp only [List.filterMap_cons, hc, Option.map_some, Option.isNone_some, Bool.false_eq_true, if_false,
        List.length_cons] at ih ⊢
      omega

/-- There is only one way to read the operations. -/
theorem State.Batched.unique {ps qs : List (List (Write ι))} (hp : s.Batched o e ps) (hq : s.Batched o e qs) : ps = qs := by
  obtain ⟨ms, hms, hps⟩ := hp.issued
  obtain ⟨ms', hms', hqs⟩ := hq.issued
  obtain rfl : ms = ms' := List.append_cancel_left (hms.symm.trans hms')
  rw [List.eq_iff_flatten_eq]
  refine ⟨hp.flatten.trans hq.flatten.symm, ?_⟩
  have hlen := congrArg (List.map fun body : List (List Byte × Entry ι) × List (List Byte) =>
    body.1.length + body.2.length) (hps.symm.trans hqs)
  rw [List.map_map, List.map_map] at hlen
  simpa only [Function.comp_def, length_body] using hlen

theorem State.batched (o : InodeOps ι) (e : Surroundings) (s : State ι φ) :
    s.Batched o e (cutBy (flushes o e.maxDirCommitSize) [] (s.writes o e)) := by
  refine ⟨flatten_cutBy _ _ _, _, List.append_assoc _ _ _, ?_⟩
  have hholding : Holding o [] [] (⟨0, [], [], [], s.dir.items, []⟩ : Batch ι φ) := ⟨rfl, rfl, rfl⟩
  have hcut := foldl_commitDentry_cut hholding e (snapPurge e.realm s.dir.fnode) s.dir.items.toList
  rw [List.map_append]
  exact hcut

theorem State.nodup_writes (o : InodeOps ι) (e : Surroundings) (s : State ι φ) : ((s.writes o e).map Write.key).Nodup := by
  rw [State.writes, List.map_filterMap, List.Nodup]
  refine List.Pairwise.filterMap _ ?_ s.dir.items.ordered_keys_toList
  rintro ⟨k, dn⟩ ⟨k', dn'⟩ hlt key hkey key' hkey' rfl
  simp only [write?, Option.map_map, Option.map_eq_some_iff] at hkey hkey'
  obtain ⟨_, -, rfl⟩ := hkey
  obtain ⟨_, -, he⟩ := hkey'
  obtain rfl : k' = k := encode_injective he
  rw [Std.compare_self] at hlt
  cases hlt

/-- The keys of the dentries that are trimmed, and of the dirty ones that are null, are removed; those
of the others that are dirty or fragmenting are set. -/
def Write.Needed (o : InodeOps ι) (e : Surroundings) (snaps : Option (Finset Snapid)) (k : Key) (dn : Dentry ι) (w : Write ι) :
    Prop :=
  w.key = k.encode ∧ w.trimmed = trims e snaps k dn ∧
    (trims e snaps k dn = true ∧ w.content = none ∨
      trims e snaps k dn = false ∧ dn.linkage = .null ∧ dn.dirty = true ∧ w.content = none ∨
      trims e snaps k dn = false ∧ dn.linkage ≠ .null ∧ (dn.dirty = true ∨ dn.fragmenting = true) ∧
        w.content = (o.encodeDentry snaps dn).entry)

theorem write?_eq_some {k : Key} {dn : Dentry ι} {w : Write ι} :
    write? o e snaps (k, dn) = some w ↔ w.Needed o e snaps k dn := by
  obtain ⟨key, content, trimmed⟩ := w
  rw [write?, Write.Needed, written, Dentry.skipped]
  dsimp only
  have hnull : (o.encodeDentry snaps dn).entry = none ↔ dn.linkage = .null := encodeDentry_entry_eq_none
  have hisNull : dn.linkage.isNull = true ↔ dn.linkage = .null := by
    cases dn.linkage <;> simp [Linkage.isNull]
  cases htrim : trims e snaps k dn with
  | true =>
    rw [if_pos rfl, Option.map_some, Option.some.injEq, Write.mk.injEq]
    grind
  | false =>
    rw [if_neg Bool.false_ne_true]
    cases hdirty : dn.dirty <;> cases hfrag : dn.fragmenting <;> by_cases hl : dn.linkage = .null <;>
      simp [hl, hisNull, hnull.mpr, Write.mk.injEq] <;> grind

theorem State.mem_writes {w : Write ι} : w ∈ s.writes o e ↔
    ∃ k dn, s.dir.items[k]? = some dn ∧ w.Needed o e (snapPurge e.realm s.dir.fnode) k dn := by
  rw [State.writes, List.mem_filterMap]
  constructor
  · rintro ⟨⟨k, dn⟩, hmem, hw⟩
    exact ⟨k, dn, Std.ExtTreeMap.mem_toList_iff_getElem?_eq_some.mp hmem, write?_eq_some.mp hw⟩
  · rintro ⟨k, dn, hk, hw⟩
    exact ⟨(k, dn), Std.ExtTreeMap.mem_toList_iff_getElem?_eq_some.mpr hk, write?_eq_some.mpr hw⟩

theorem State.bounded_iff (o : InodeOps ι) (e : Surroundings) (s : State ι φ) (hmax : 0 < e.maxDirCommitSize) :
    (∃ pieces, s.Batched o e pieces ∧ ∀ p ∈ pieces, totalSize o p.dropLast < e.maxDirCommitSize.toNat) ↔
      ∀ p ∈ followed (cutBy (fun p => decide (e.maxDirCommitSize.toNat ≤ totalSize o p)) [] (s.writes o e)),
        flushes o e.maxDirCommitSize p = true := by
  have hbatched := s.batched o e
  have hreached : ∀ ws, flushes o e.maxDirCommitSize ws = true →
      e.maxDirCommitSize.toNat ≤ (ws.map (Write.size o)).sum := by
    intro ws h
    rw [flushes, Bool.and_eq_true, decide_eq_true_eq, UInt32.le_iff_toNat_le, UInt32.toNat_ofNat'] at h
    exact h.2.trans (Nat.mod_le _ _)
  have hstart : (([] : List (Write ι)).map (Write.size o)).sum < e.maxDirCommitSize.toNat := UInt32.lt_iff_toNat_lt.mp hmax
  have hiff := fun ws => cutBy_bounded_iff (l := ws) hreached hstart
  constructor
  · rintro ⟨pieces, hp, hlt⟩
    rw [hp.unique hbatched] at hlt
    exact (hiff _).mp hlt
  · intro h
    exact ⟨_, hbatched, (hiff _).mpr h⟩

/-- The batches of a commit together are the writes that are needed, each key once. They are below the
limit but for their last dentries exactly if, where the writes are cut into pieces that just reach
the limit, none that is followed by a write ends with a trimmed dentry, or is below the limit in 32
bits. -/
theorem State.omapCommit_limit_iff (o : InodeOps ι) (e : Surroundings) (s : State ι φ) (hmax : 0 < e.maxDirCommitSize) :
    (∃ pieces, s.Batched o e pieces) ∧ ((s.writes o e).map Write.key).Nodup ∧
    (∀ w, w ∈ s.writes o e ↔ ∃ k dn, s.dir.items[k]? = some dn ∧ w.Needed o e (snapPurge e.realm s.dir.fnode) k dn) ∧
    ((∃ pieces, s.Batched o e pieces ∧ ∀ p ∈ pieces, totalSize o p.dropLast < e.maxDirCommitSize.toNat) ↔
      ∀ p ∈ followed (cutBy (fun p => decide (e.maxDirCommitSize.toNat ≤ totalSize o p)) [] (s.writes o e)),
        flushes o e.maxDirCommitSize p = true) :=
  ⟨⟨_, s.batched o e⟩, s.nodup_writes o e, fun _ => State.mem_writes, s.bounded_iff o e hmax⟩

/-- Two dentries whose snapshot has been destroyed. -/
def twoSnapped : State ℕ Unit :=
  .load ⟨none, ∅⟩ ⟨1, 0, ()⟩ (((∅ : Std.ExtTreeMap Key (Dentry ℕ)).insert ⟨[97], 1⟩ ⟨1, 1, false, false, .primary 5⟩).insert
    ⟨[98], 1⟩ ⟨1, 1, false, false, .primary 6⟩)

/-- The snapshots are purged, and a batch has three bytes. -/
def threeBytes : Surroundings where
  realm := ⟨∅, 1, true⟩
  maxDirCommitSize := 3
  unlinked := false
  stray := false
  idle := fun _ => true
  projected := fun _ => false

/-- What is written for them is in pieces. -/
theorem omapCommit_limit_two : ∃ pieces, twoSnapped.Batched ⟨fun _ => 8, fun _ i => i⟩ threeBytes pieces :=
  (State.omapCommit_limit_iff ⟨fun _ => 8, fun _ i => i⟩ threeBytes twoSnapped (by decide)).1

/-- Both keys go into one operation, although the first one reaches the limit. -/
theorem not_omapCommit_limit : ¬∃ pieces, twoSnapped.Batched ⟨fun _ => 8, fun _ i => i⟩ threeBytes pieces ∧
    ∀ p ∈ pieces, totalSize ⟨fun _ => 8, fun _ i => i⟩ p.dropLast < threeBytes.maxDirCommitSize.toNat := by
  rw [State.bounded_iff _ _ _ (by decide)]
  decide +kernel

end CephMds.Omap
