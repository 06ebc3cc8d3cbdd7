import CephMds.Model.Readdir

/-!
# Reading in pages lists everything once

`listing` is what is to be listed, by name in ascending order. An iteration of
the loop adds the entry of its item, if it is to be listed and comes after the
offset, or ends the loop, which it does with something listed or to wait for a
remote dentry (`visit_spec`). What is trimmed is not listed, and opening a dentry
does not change the listing. So each reply is the next part of it, not empty
unless it is the last one. A snapid is `Accepts`ed where the assertion on it holds,
and no other one is answered (`readAll_lists_iff`).
-/

namespace CephMds.Readdir

open Checked Dentries

variable {e : Surroundings} {r : Request} {s s' : State} {l : Loop} {p : Item} {snaps : Option (Finset Snapid)}

/-! ## What is listed -/

/-- The entry of an item, if it is to be listed. -/
def entry (e : Surroundings) (r : Request) (s : State) (p : Item) : Option Entry :=
  if p.2.purging then none
  else if p.1.snapid < r.snapid ∨ r.snapid < p.2.first then none
  else match p.2.linkage with
    | .null => none
    | .primary ino => if ino = cephInoCeph then none else some (p.1.name, ino)
    | .remote ino => if ino ∈ s.inodes ∨ e.resolves ino = true then some (p.1.name, ino) else none

/-- The dentries that are visible, but for `/.ceph` and remote links that cannot be resolved. -/
def listing (e : Surroundings) (r : Request) (s : State) : List Entry := s.items.filterMap (entry e r s)

/-- What is left to be listed after an offset. -/
def after (offset : List Byte) (x : Entry) : Bool := offset.isEmpty || decide (offset < x.1)

/-- A dirfrag that can be listed: the intervals of a name are disjoint, and each entry fits into a reply. -/
structure Listable (e : Surroundings) (r : Request) (s : State) : Prop where
  sorted : s.items.Pairwise fun p q => p.1 < q.1
  disjoint {p q : Item} {x : Snapid} : p ∈ s.items → q ∈ s.items → p.1.name = q.1.name →
    p.2.first ≤ x → x ≤ p.1.snapid → q.2.first ≤ x → x ≤ q.1.snapid → p = q
  named {p : Item} : p ∈ s.items → p.1.name ≠ []
  last_le {p : Item} : p ∈ s.items → p.1.snapid ≤ cephNosnap
  /-- What has been found to be bad cannot be opened. -/
  bad {p : Item} {ino : ℕ} : p ∈ s.items → p.2.linkage = .remote ino → p.1 ∈ s.badRemoteIno → e.resolves ino = false
  fits {x : Entry} : x ∈ listing e r s → (encodeEntry e r 0 x.1 x.2).isSome = true

/-- What is asserted of the snapid where snap data is to be purged. -/
def Accepts (e : Surroundings) (r : Request) (s : State) : Prop :=
  purgeDue e s = true → r.snapid = cephNosnap ∨ r.snapid ∈ e.snaps

structure Readable (e : Surroundings) (r : Request) (s : State) : Prop extends Listable e r s where
  snapid : Accepts e r s

theorem entry_name {x : Entry} (h : entry e r s p = some x) : x.1 = p.1.name := by
  unfold entry at h
  split at h
  · cases h
  · split at h
    · cases h
    · split at h
      · cases h
      · split at h
        · cases h
        · cases h
          rfl
      · split at h
        · cases h
          rfl
        · cases h

theorem entry_visible {x : Entry} (h : entry e r s p = some x) : p.2.first ≤ r.snapid ∧ r.snapid ≤ p.1.snapid := by
  unfold entry at h
  split at h
  · cases h
  · split at h
    · cases h
    · rename_i hvis
      rw [not_or, not_lt, not_lt] at hvis
      exact ⟨hvis.2, hvis.1⟩

/-- The names are in ascending order, each once. -/
theorem Readable.names_ascending (h : Readable e r s) : (listing e r s).Pairwise fun x y => x.1 < y.1 := by
  refine List.Pairwise.filterMap _ ?_ (List.Pairwise.and_mem.mp h.sorted)
  rintro p q ⟨hp, hq, hlt⟩ x hx y hy
  rw [entry_name hx, entry_name hy]
  obtain ⟨hp1, hp2⟩ := entry_visible hx
  obtain ⟨hq1, hq2⟩ := entry_visible hy
  have hname : p.1.name ≤ q.1.name := by
    by_contra hgt
    have hgt : q.1.name < p.1.name := not_le.mp hgt
    exact absurd hlt (lt_asymm (Prod.Lex.toLex_lt_toLex.mpr (.inl hgt)))
  refine lt_of_le_of_ne hname fun he => ?_
  obtain rfl := h.disjoint hp hq he hp1 hp2 hq1 hq2
  exact lt_irrefl _ hlt

theorem Readable.eq_of_key (h : Readable e r s) {p q : Item} (hp : p ∈ s.items) (hq : q ∈ s.items) (hk : p.1 = q.1) :
    p = q := by
  have hnodup : (s.items.map Prod.fst).Nodup :=
    List.Pairwise.map Prod.fst (fun p q hlt he => lt_irrefl p.1 (hlt.trans_eq he.symm)) h.sorted
  exact List.inj_on_of_nodup_map hnodup hp hq hk

/-! ## Trimming -/

/-- What is trimmed is not visible. -/
theorem Readable.entry_of_trims (h : Readable e r s) (hdue : purgeDue e s = true) (hp : p ∈ s.items)
    (ht : trims (some e.snaps) p = true) : entry e r s p = none := by
  rw [trims, Option.any_some, Bool.and_eq_true, bne_iff_ne, Bool.and_eq_true] at ht
  obtain ⟨hhead, hno, -⟩ := ht
  cases hx : entry e r s p with
  | none => rfl
  | some x =>
    obtain ⟨hfirst, hlast⟩ := entry_visible hx
    rcases h.snapid hdue with hs | hs
    · rw [hs] at hlast
      exact absurd (le_antisymm (h.last_le hp) hlast) hhead
    · unfold Omap.noSnap at hno
      split at hno
      · rename_i hnone
        exact absurd hfirst (not_le.mpr (find_ascending_eq_none hnone _ hs))
      · rename_i q hq
        rw [decide_eq_true_eq] at hno
        exact absurd hno (not_lt.mpr (((find_ascending_eq_some hq).2.2 _ hs hfirst).trans hlast))

/-- Items that are not listed may be missing. -/
def Pruned (e : Surroundings) (r : Request) (s : State) (items items' : List Item) : Prop :=
  ∃ q : Item → Bool, items' = items.filter q ∧ ∀ p ∈ s.items, q p = false → entry e r s p = none

theorem Pruned.refl (items : List Item) : Pruned e r s items items :=
  ⟨fun _ => true, (List.filter_eq_self.mpr fun _ _ => rfl).symm, fun _ _ h => by cases h⟩

theorem Pruned.trans {is₁ is₂ is₃ : List Item} (h : Pruned e r s is₁ is₂) (h' : Pruned e r s is₂ is₃) : Pruned e r s is₁ is₃ := by
  obtain ⟨q, rfl, hq⟩ := h
  obtain ⟨q', rfl, hq'⟩ := h'
  refine ⟨fun p => q' p && q p, List.filter_filter, fun p hp hno => ?_⟩
  rcases Bool.and_eq_false_iff.mp hno with hno | hno
  · exact hq' p hp hno
  · exact hq p hp hno

theorem filterMap_filter_of_none {α β : Type*} {f : α → Option β} {q : α → Bool} {l : List α}
    (h : ∀ a ∈ l, q a = false → f a = none) : (l.filter q).filterMap f = l.filterMap f := by
  induction l with
  | nil => rfl
  | cons a l ih =>
    have ih := ih fun b hb => h b (List.mem_cons_of_mem a hb)
    cases hq : q a with
    | true => rw [List.filter_cons_of_pos hq, List.filterMap_cons, List.filterMap_cons, ih]
    | false => rw [List.filter_cons_of_neg (by simp [hq]), List.filterMap_cons_none (h a List.mem_cons_self hq), ih]

/-! ## One iteration -/

/-- What an item adds to a reply. -/
def todo (e : Surroundings) (r : Request) (s : State) (ps : List Item) : List Entry :=
  (ps.filterMap (entry e r s)).filter (after r.offset)

theorem todo_cons_none {ps : List Item} (h : entry e r s p = none) : todo e r s (p :: ps) = todo e r s ps := by
  rw [todo, List.filterMap_cons_none h]
  rfl

theorem todo_cons_some {ps : List Item} {x : Entry} (h : entry e r s p = some x) (hx : after r.offset x = true) :
    todo e r s (p :: ps) = x :: todo e r s ps := by
  rw [todo, List.filterMap_cons_some h, List.filter_cons_of_pos hx]
  rfl

theorem todo_cons_not_after {ps : List Item} {x : Entry} (h : entry e r s p = some x) (hx : after r.offset x = false) :
    todo e r s (p :: ps) = todo e r s ps := by
  rw [todo, List.filterMap_cons_some h, List.filter_cons_of_neg (by simp [hx])]
  rfl

/-- The length of `dnbl` says whether there are entries. -/
def Loop.Sound (l : Loop) : Prop := l.dnbl = 0 ↔ l.entries = []

/-- A remote dentry that is to be opened. -/
def Unresolved (s : State) (p : Item) (k : Key) (ino : ℕ) : Prop :=
  p.1 = k ∧ p.2.linkage = .remote ino ∧ ino ∉ s.inodes ∧ k ∉ s.badRemoteIno

/-- What an iteration may do. -/
inductive Visit.Spec (e : Surroundings) (r : Request) (s : State) (l : Loop) (p : Item) : Visit → Prop
  | next {l' : Loop} : l'.Sound → l'.entries = l.entries ++ todo e r s [p] → Pruned e r s l.items l'.items →
      Spec e r s l p (.next l')
  | stop {opening : Option (Key × ℕ)} : l.entries ≠ [] →
      (∀ x, opening = some x → p.1 = x.1 ∧ p.2.linkage = .remote x.2) → Spec e r s l p (.stop opening)
  | retry {k : Key} {ino : ℕ} : l.entries = [] → Unresolved s p k ino → Spec e r s l p (.retry k ino)

theorem encodeEntry_pos {dnbl n : ℕ} {name : List Byte} {ino : ℕ} (h : encodeEntry e r dnbl name ino = some n) : 0 < n := by
  unfold encodeEntry at h
  split at h
  · cases h
  · obtain ⟨length, -, rfl⟩ := Option.map_eq_some_iff.mp h
    omega

theorem add_of_none {name : List Byte} {ino : ℕ} (h : encodeEntry e r l.dnbl name ino = none) :
    l.add e r name ino = .stop none := by
  unfold Loop.add
  rw [h]

theorem add_of_some {n : ℕ} {name : List Byte} {ino : ℕ} (h : encodeEntry e r l.dnbl name ino = some n) :
    l.add e r name ino = .next { l with dnbl := n, entries := l.entries ++ [(name, ino)] } := by
  unfold Loop.add
  rw [h]

/-- An entry is added, unless there are others before it. -/
theorem add_spec (h : Readable e r s) (hp : p ∈ s.items) {ino : ℕ} (hx : entry e r s p = some (p.1.name, ino))
    (ha : after r.offset (p.1.name, ino) = true) (hl : l.Sound) : (l.add e r p.1.name ino).Spec e r s l p := by
  cases henc : encodeEntry e r l.dnbl p.1.name ino with
  | none =>
    rw [add_of_none henc]
    refine .stop (fun hnil => ?_) fun _ hx => by cases hx
    have hfits := h.fits (List.mem_filterMap.mpr ⟨p, hp, hx⟩)
    rw [hl.mpr hnil] at henc
    rw [henc] at hfits
    cases hfits
  | some n =>
    have hpos := encodeEntry_pos henc
    rw [add_of_some henc]
    refine .next ⟨fun h0 => absurd h0 (Nat.ne_of_gt hpos), fun hnil => ?_⟩ ?_ (Pruned.refl _)
    · exact absurd hnil (List.append_ne_nil_of_right_ne_nil _ (List.cons_ne_nil _ _))
    · rw [todo_cons_some hx ha]
      rfl

theorem next_spec (hl : l.Sound) (hnone : todo e r s [p] = []) : (Visit.next l).Spec e r s l p :=
  .next hl (by rw [hnone, List.append_nil]) (Pruned.refl _)

theorem visit_spec (h : Readable e r s) (hsnaps : ∀ t, snaps = some t → t = e.snaps ∧ purgeDue e s = true)
    (hp : p ∈ s.items) (hl : l.Sound) : (visit e r s snaps l p).Spec e r s l p := by
  have hskip : entry e r s p = none → (Visit.next l).Spec e r s l p := fun hnone => next_spec hl (todo_cons_none hnone)
  rw [visit]
  by_cases hpurging : p.2.purging = true
  · rw [if_pos hpurging]
    exact hskip (by rw [entry, if_pos hpurging])
  rw [if_neg hpurging]
  by_cases hnull : p.2.linkage = .null
  · rw [if_pos hnull]
    exact hskip (by rw [entry, if_neg hpurging, hnull, ite_self])
  rw [if_neg hnull]
  by_cases htrim : trims snaps p = true
  · rw [if_pos htrim]
    have hnone : entry e r s p = none := by
      obtain ⟨t, ht⟩ : ∃ t, snaps = some t := by
        cases snaps with
        | none => simp [trims] at htrim
        | some t => exact ⟨t, rfl⟩
      rw [ht, (hsnaps t ht).1] at htrim
      exact h.entry_of_trims (hsnaps t ht).2 hp htrim
    refine .next hl (by rw [todo_cons_none hnone]; exact (List.append_nil _).symm) ⟨_, rfl, fun q hq hk => ?_⟩
    rw [decide_eq_false_iff_not, not_not] at hk
    rw [h.eq_of_key hq hp hk, hnone]
  rw [if_neg htrim]
  by_cases hvis : p.1.snapid < r.snapid ∨ r.snapid < p.2.first
  · rw [if_pos hvis]
    exact hskip (by rw [entry, if_neg hpurging, if_pos hvis])
  rw [if_neg hvis]
  have hentry : entry e r s p = match p.2.linkage with
      | .null => none
      | .primary ino => if ino = cephInoCeph then none else some (p.1.name, ino)
      | .remote ino => if ino ∈ s.inodes ∨ e.resolves ino = true then some (p.1.name, ino) else none := by
    rw [entry, if_neg hpurging, if_neg hvis]
  by_cases hoff : r.offset ≠ [] ∧ p.1.name ≤ r.offset
  · -- Before the offset.
    rw [if_pos hoff]
    cases hx : entry e r s p with
    | none => exact hskip hx
    | some x =>
      refine next_spec hl (todo_cons_not_after hx ?_)
      rw [after, entry_name hx]
      simp [hoff.1, hoff.2]
  rw [if_neg hoff]
  have hafter : ∀ ino, after r.offset (p.1.name, ino) = true := by
    intro ino
    rw [after, Bool.or_eq_true, List.isEmpty_iff, decide_eq_true_eq]
    by_cases h0 : r.offset = []
    · exact .inl h0
    · exact .inr (not_le.mp fun hle => hoff ⟨h0, hle⟩)
  cases hlink : p.2.linkage with
  | null => exact absurd hlink hnull
  | primary ino =>
    rw [hlink] at hentry
    dsimp only at hentry ⊢
    by_cases hceph : ino = cephInoCeph
    · rw [if_pos hceph] at hentry ⊢
      exact hskip hentry
    · rw [if_neg hceph] at hentry ⊢
      exact add_spec h hp hentry (hafter ino) hl
  | remote ino =>
    rw [hlink] at hentry
    dsimp only at hentry ⊢
    by_cases hin : ino ∈ s.inodes
    · rw [if_pos (.inl hin)] at hentry
      rw [if_pos hin]
      exact add_spec h hp hentry (hafter ino) hl
    rw [if_neg hin]
    by_cases hbad : p.1 ∈ s.badRemoteIno
    · rw [if_pos hbad]
      refine hskip ?_
      rw [hentry, if_neg]
      rintro (hin' | hres)
      · exact hin hin'
      · rw [h.bad hp hlink hbad] at hres
        cases hres
    rw [if_neg hbad]
    by_cases hpos : 0 < l.dnbl
    · rw [if_pos hpos]
      refine .stop (fun hnil => absurd (hl.mpr hnil) (Nat.ne_of_gt hpos)) fun x hx => ?_
      cases hx
      exact ⟨rfl, hlink⟩
    · rw [if_neg hpos]
      exact .retry (hl.mp (Nat.eq_zero_of_not_pos hpos)) ⟨rfl, hlink, hin, hbad⟩

/-! ## The loop -/

theorem todo_append (ps qs : List Item) : todo e r s (ps ++ qs) = todo e r s ps ++ todo e r s qs := by
  rw [todo, List.filterMap_append, List.filter_append]
  rfl

/-- How the loop may end. -/
inductive Exit.Spec (s : State) (entries : List Entry) (rest : List Entry) : Exit → Prop
  | finished : rest = [] → Spec s entries rest .finished
  | stopped {opening : Option (Key × ℕ)} : entries ≠ [] →
      (∀ x, opening = some x → ∃ p ∈ s.items, p.1 = x.1 ∧ p.2.linkage = .remote x.2) → Spec s entries rest (.stopped opening)
  | retry {k : Key} {ino : ℕ} {p : Item} : entries = [] → p ∈ s.items → Unresolved s p k ino →
      Spec s entries rest (.retry k ino)

/-- The loop adds what is to be listed of the items, up to where it ends. -/
theorem loop_spec (h : Readable e r s) (hsnaps : ∀ t, snaps = some t → t = e.snaps ∧ purgeDue e s = true) {max : ℕ}
    {ps : List Item} (hps : ∀ p ∈ ps, p ∈ s.items) (hmax : ps ≠ [] → 0 < max) (hl : l.Sound) :
    ∃ t₁ t₂, todo e r s ps = t₁ ++ t₂ ∧ (loop e r s snaps max ps l).1.entries = l.entries ++ t₁ ∧
      Pruned e r s l.items (loop e r s snaps max ps l).1.items ∧
      (loop e r s snaps max ps l).2.Spec s (l.entries ++ t₁) t₂ := by
  induction ps generalizing l with
  | nil => exact ⟨[], [], rfl, (List.append_nil _).symm, Pruned.refl _, .finished rfl⟩
  | cons p ps ih =>
    have hstop : ∀ {x : Exit}, x.Spec s l.entries (todo e r s (p :: ps)) → ∃ t₁ t₂, todo e r s (p :: ps) = t₁ ++ t₂ ∧
        l.entries = l.entries ++ t₁ ∧ Pruned e r s l.items l.items ∧ x.Spec s (l.entries ++ t₁) t₂ := by
      intro x hx
      exact ⟨[], _, rfl, (List.append_nil _).symm, Pruned.refl _, by rwa [List.append_nil]⟩
    have hp := hps p List.mem_cons_self
    by_cases hlt : l.entries.length < max
    · have hvisit := visit_spec h hsnaps hp hl
      cases hv : visit e r s snaps l p with
      | next l' =>
        rw [hv] at hvisit
        cases hvisit with
        | next hl' hentries hitems =>
          have heq : loop e r s snaps max (p :: ps) l = loop e r s snaps max ps l' := by
            rw [loop, if_pos hlt, hv]
          obtain ⟨t₁, t₂, htodo, hent, hpruned, hexit⟩ :=
            ih (fun q hq => hps q (List.mem_cons_of_mem p hq)) (fun _ => hmax (List.cons_ne_nil _ _)) hl'
          rw [heq]
          rw [hentries, List.append_assoc] at hent hexit
          refine ⟨todo e r s [p] ++ t₁, t₂, ?_, hent, hitems.trans hpruned, hexit⟩
          rw [← List.singleton_append, todo_append, htodo, List.append_assoc]
      | stop opening =>
        rw [hv] at hvisit
        cases hvisit with
        | stop hne hopening =>
          have heq : loop e r s snaps max (p :: ps) l = (l, .stopped opening) := by rw [loop, if_pos hlt, hv]
          rw [heq]
          exact hstop (.stopped hne fun x hx => ⟨p, hp, hopening x hx⟩)
      | retry k ino =>
        rw [hv] at hvisit
        cases hvisit with
        | retry hnil hun =>
          have heq : loop e r s snaps max (p :: ps) l = (l, .retry k ino) := by rw [loop, if_pos hlt, hv]
          rw [heq]
          exact hstop (.retry hnil hp hun)
    · -- As many entries as are asked for.
      have heq : loop e r s snaps max (p :: ps) l = (l, .stopped none) := by rw [loop, if_neg hlt]
      rw [heq]
      refine hstop (.stopped (fun hnil => hlt ?_) fun _ hx => by cases hx)
      rw [hnil]
      exact hmax (List.cons_ne_nil _ _)

/-! ## States that list the same -/

/-- The number of remote dentries that are to be opened. -/
def unresolved (s : State) : ℕ := s.items.countP fun p =>
  match p.2.linkage with
  | .remote ino => decide (ino ∉ s.inodes) && decide (p.1 ∉ s.badRemoteIno)
  | _ => false

/-- The state can be listed as before, and no more is to be opened. -/
structure Same (e : Surroundings) (r : Request) (s s' : State) : Prop where
  listable : Readable e r s'
  listing : listing e r s' = listing e r s
  unresolved : unresolved s' ≤ unresolved s

theorem Same.trans {s'' : State} (h : Same e r s s') (h' : Same e r s' s'') : Same e r s s'' :=
  ⟨h'.listable, h'.listing.trans h.listing, h'.unresolved.trans h.unresolved⟩

/-- With some items missing that are not listed. -/
theorem Readable.prune (h : Readable e r s) {items : List Item} (hp : Pruned e r s s.items items) {thru : Snapid}
    (hthru : s.snapPurgedThru ≤ thru) :
    Same e r s { s with items := items, snapPurgedThru := thru } := by
  obtain ⟨q, rfl, hq⟩ := hp
  have hmem : ∀ {p : Item}, p ∈ s.items.filter q → p ∈ s.items := fun hp => (List.mem_filter.mp hp).1
  have hlisting : listing e r { s with items := s.items.filter q, snapPurgedThru := thru } = listing e r s :=
    filterMap_filter_of_none hq
  refine ⟨⟨⟨h.sorted.filter q, fun hp hq => h.disjoint (hmem hp) (hmem hq), fun hp => h.named (hmem hp),
    fun hp => h.last_le (hmem hp), fun hp => h.bad (hmem hp), fun hx => h.fits ?_⟩, fun hdue => h.snapid ?_⟩, hlisting, ?_⟩
  · rwa [hlisting] at hx
  · exact decide_eq_true (lt_of_le_of_lt hthru (of_decide_eq_true hdue))
  · exact List.Sublist.countP_le List.filter_sublist

theorem countP_lt {α : Type*} {l : List α} {p q : α → Bool} (hle : ∀ a ∈ l, p a = true → q a = true) {a : α}
    (ha : a ∈ l) (hq : q a = true) (hp : p a = false) : l.countP p < l.countP q := by
  obtain ⟨l₁, l₂, rfl⟩ := List.append_of_mem ha
  have h₁ : l₁.countP p ≤ l₁.countP q := List.countP_mono_left fun b hb => hle b (List.mem_append_left _ hb)
  have h₂ : l₂.countP p ≤ l₂.countP q :=
    List.countP_mono_left fun b hb => hle b (List.mem_append_right _ (List.mem_cons_of_mem a hb))
  rw [List.countP_append, List.countP_append, List.countP_cons_of_pos hq, List.countP_cons_of_neg (by simp [hp])]
  omega

theorem items_openRemoteDentry (k : Key) (ino : ℕ) : (s.openRemoteDentry e k ino).items = s.items := by
  rw [State.openRemoteDentry]
  split <;> rfl

theorem snapPurgedThru_openRemoteDentry (k : Key) (ino : ℕ) :
    (s.openRemoteDentry e k ino).snapPurgedThru = s.snapPurgedThru := by
  rw [State.openRemoteDentry]
  split <;> rfl

theorem entry_openRemoteDentry (k : Key) (ino : ℕ) : entry e r (s.openRemoteDentry e k ino) = entry e r s := by
  have hres : ∀ i, (i ∈ (s.openRemoteDentry e k ino).inodes ∨ e.resolves i = true) ↔ (i ∈ s.inodes ∨ e.resolves i = true) := by
    intro i
    rw [State.openRemoteDentry]
    split
    · rename_i hr
      rw [Finset.mem_insert, or_assoc, or_iff_right_of_imp]
      rintro rfl
      exact .inr hr
    · rfl
  funext p
  unfold entry
  cases p.2.linkage with
  | remote i => simp only [hres]
  | _ => rfl

/-- Opening a remote dentry of the items does not change what is listed. -/
theorem Readable.openRemoteDentry (h : Readable e r s) {k : Key} {ino : ℕ}
    (hk : ∀ p ∈ s.items, p.1 = k → p.2.linkage = .remote ino) :
    Same e r s (s.openRemoteDentry e k ino) ∧
      ∀ p ∈ s.items, Unresolved s p k ino → unresolved (s.openRemoteDentry e k ino) < unresolved s := by
  have hitems := items_openRemoteDentry (e := e) (s := s) k ino
  have hbad : ∀ i, i ∈ (s.openRemoteDentry e k ino).badRemoteIno → i ∈ s.badRemoteIno ∨ i = k ∧ e.resolves ino = false := by
    intro i hi
    rw [State.openRemoteDentry] at hi
    split at hi
    · exact .inl hi
    · rename_i hr
      rcases Finset.mem_insert.mp hi with rfl | hi
      · exact .inr ⟨rfl, Bool.eq_false_of_not_eq_true hr⟩
      · exact .inl hi
  have hlisting : CephMds.Readdir.listing e r (s.openRemoteDentry e k ino) = CephMds.Readdir.listing e r s := by
    rw [CephMds.Readdir.listing, hitems, entry_openRemoteDentry]
    rfl
  have hmono : ∀ i, i ∉ (s.openRemoteDentry e k ino).inodes → i ∉ s.inodes := by
    intro i hi hi'
    refine hi ?_
    rw [State.openRemoteDentry]
    split
    · exact Finset.mem_insert_of_mem hi'
    · exact hi'
  have hmono' : ∀ i, i ∉ (s.openRemoteDentry e k ino).badRemoteIno → i ∉ s.badRemoteIno := by
    intro i hi hi'
    refine hi ?_
    rw [State.openRemoteDentry]
    split
    · exact hi'
    · exact Finset.mem_insert_of_mem hi'
  have hle : ∀ p ∈ s.items, (match p.2.linkage with
      | .remote i => decide (i ∉ (s.openRemoteDentry e k ino).inodes) &&
          decide (p.1 ∉ (s.openRemoteDentry e k ino).badRemoteIno)
      | _ => false) = true → (match p.2.linkage with
      | .remote i => decide (i ∉ s.inodes) && decide (p.1 ∉ s.badRemoteIno)
      | _ => false) = true := by
    intro p _
    cases p.2.linkage with
    | remote i =>
      simp only [Bool.and_eq_true, decide_eq_true_eq]
      exact fun hp => ⟨hmono i hp.1, hmono' p.1 hp.2⟩
    | _ => exact id
  refine ⟨⟨⟨⟨?_, ?_, ?_, ?_, ?_, ?_⟩, fun hdue => h.snapid ?_⟩, hlisting, ?_⟩, ?_⟩
  · rw [hitems]
    exact h.sorted
  · rw [hitems]
    exact h.disjoint
  · rw [hitems]
    exact h.named
  · rw [hitems]
    exact h.last_le
  · rw [hitems]
    intro p i hp hlink hb
    rcases hbad p.1 hb with hb | ⟨hb, hr⟩
    · exact h.bad hp hlink hb
    · have := hk p hp hb
      rw [hlink, Linkage.remote.injEq] at this
      rw [this, hr]
  · rw [hlisting]
    exact h.fits
  · rwa [purgeDue, snapPurgedThru_openRemoteDentry] at hdue
  · rw [unresolved, unresolved, hitems]
    exact List.countP_mono_left hle
  · rintro p hp ⟨rfl, hlink, hin, hnb⟩
    rw [unresolved, unresolved, hitems]
    refine countP_lt hle hp ?_ ?_
    · rw [hlink]
      simp [hin, hnb]
    · rw [hlink]
      dsimp only
      rw [State.openRemoteDentry]
      split
      · simp
      · simp

/-! ## Replies -/

/-- A reply with the next part of the listing, which ends it or is not empty. -/
structure Replies (e : Surroundings) (r : Request) (s s' : State) (reply : Reply) (opening : Option (Key × ℕ)) : Prop where
  same : Same e r s s'
  next : ∃ t, (listing e r s).filter (after r.offset) = reply.entries ++ t ∧ (reply.atEnd = true → t = [])
  progress : reply.atEnd = false → reply.entries ≠ []
  opening {x : Key × ℕ} : opening = some x → ∀ p ∈ s'.items, p.1 = x.1 → p.2.linkage = .remote x.2

inductive Outcome.Spec (e : Surroundings) (r : Request) (s : State) : Outcome → Prop
  | reply {s' : State} {reply : Reply} {opening : Option (Key × ℕ)} : Replies e r s s' reply opening →
      Spec e r s (.reply s' reply opening)
  | retry {s' : State} {k : Key} {ino : ℕ} : Same e r s (s'.openRemoteDentry e k ino) →
      unresolved (s'.openRemoteDentry e k ino) < unresolved s → Spec e r s (.retry s' k ino)

/-- With items missing that are not listed, opening a dentry comes to the same. -/
theorem Readable.prune_openRemoteDentry (h : Readable e r s) {items : List Item} (hpr : Pruned e r s s.items items)
    {thru : Snapid} (hthru : s.snapPurgedThru ≤ thru) {k : Key} {ino : ℕ} (hp : p ∈ s.items) (hun : Unresolved s p k ino) :
    Same e r s (State.openRemoteDentry e { s with items := items, snapPurgedThru := thru } k ino) ∧
      unresolved (State.openRemoteDentry e { s with items := items, snapPurgedThru := thru } k ino) < unresolved s := by
  have hcomm : State.openRemoteDentry e { s with items := items, snapPurgedThru := thru } k ino =
      { s.openRemoteDentry e k ino with items := items, snapPurgedThru := thru } := by
    rw [State.openRemoteDentry, State.openRemoteDentry]
    split <;> rfl
  have hremote : ∀ q ∈ s.items, q.1 = k → q.2.linkage = .remote ino := by
    intro q hq hk
    rw [h.eq_of_key hq hp (hk.trans hun.1.symm)]
    exact hun.2.1
  obtain ⟨hsame, hlt⟩ := h.openRemoteDentry hremote
  have hpr' : Pruned e r (s.openRemoteDentry e k ino) (s.openRemoteDentry e k ino).items items := by
    obtain ⟨q, hq, hno⟩ := hpr
    refine ⟨q, by rw [items_openRemoteDentry, hq], ?_⟩
    rw [items_openRemoteDentry, entry_openRemoteDentry]
    exact hno
  have hthru' : (s.openRemoteDentry e k ino).snapPurgedThru ≤ thru := by rwa [snapPurgedThru_openRemoteDentry]
  have hpruned := hsame.listable.prune hpr' hthru'
  rw [hcomm]
  exact ⟨hsame.trans hpruned, lt_of_le_of_lt hpruned.unresolved (hlt p hp hun)⟩

theorem handleClientReaddir_spec (h : Readable e r s) : ∃ o, handleClientReaddir e r s = .ok o ∧ o.Spec e r s := by
  have hassert : (!purgeDue e s || r.snapid = cephNosnap || r.snapid ∈ e.snaps) = true := by
    simp only [Bool.or_eq_true, decide_eq_true_eq, or_assoc]
    cases hdue : purgeDue e s with
    | true => exact .inr (h.snapid hdue)
    | false => exact .inl rfl
  have hsnaps : ∀ t, (if purgeDue e s then some e.snaps else none) = some t → t = e.snaps ∧ purgeDue e s = true := by
    intro t ht
    split at ht
    · rename_i hdue
      cases ht
      exact ⟨rfl, hdue⟩
    · cases ht
  have hthru : s.snapPurgedThru ≤ if purgeDue e s then e.lastDestroyed else s.snapPurgedThru := by
    split
    · rename_i hdue
      exact (of_decide_eq_true hdue).le
    · exact le_rfl
  have hmax : s.items ≠ [] → 0 < if r.maxEntries = 0 then s.items.length else r.maxEntries.toNat := by
    intro hne
    split
    · exact List.length_pos_of_ne_nil hne
    · rename_i h0
      rw [Nat.pos_iff_ne_zero]
      exact fun hz => h0 (UInt32.toNat_inj.mp hz)
  obtain ⟨t₁, t₂, htodo, hent, hpruned, hexit⟩ := loop_spec (l := ⟨0, [], s.items⟩) h hsnaps (fun _ hp => hp) hmax
    (iff_of_true rfl rfl)
  rw [List.nil_append] at hent hexit
  have heq : handleClientReaddir e r s = .ok (outcome r
      { s with snapPurgedThru := if purgeDue e s then e.lastDestroyed else s.snapPurgedThru }
      (loop e r s (if purgeDue e s then some e.snaps else none)
        (if r.maxEntries = 0 then s.items.length else r.maxEntries.toNat) s.items ⟨0, [], s.items⟩)) := by
    rw [handleClientReaddir, hassert]
    rfl
  refine ⟨_, heq, ?_⟩
  generalize (if purgeDue e s then e.lastDestroyed else s.snapPurgedThru) = thru at hthru ⊢
  generalize loop e r s (if purgeDue e s then some e.snaps else none)
    (if r.maxEntries = 0 then s.items.length else r.maxEntries.toNat) s.items ⟨0, [], s.items⟩ = x at hent hpruned hexit ⊢
  obtain ⟨l, x⟩ := x
  dsimp only at hent hpruned hexit
  cases hexit with
  | finished ht =>
    refine .reply ⟨h.prune hpruned hthru, ⟨t₂, ?_, fun _ => ht⟩, fun hf => ?_, fun hx => ?_⟩
    · exact htodo.trans (congrArg (· ++ t₂) hent.symm)
    · cases hf
    · cases hx
  | stopped hne hopening =>
    refine .reply ⟨h.prune hpruned hthru, ⟨t₂, ?_, fun hf => ?_⟩, fun _ => ?_, fun {y} hx p hp hk => ?_⟩
    · exact htodo.trans (congrArg (· ++ t₂) hent.symm)
    · cases hf
    · show l.entries ≠ []
      rw [hent]
      exact hne
    · obtain ⟨q, hq, hqk, hlink⟩ := hopening y hx
      obtain ⟨f, hf, -⟩ := hpruned
      have hmem : p ∈ s.items := by
        have hp : p ∈ l.items := hp
        rw [hf] at hp
        exact (List.mem_filter.mp hp).1
      rw [h.eq_of_key hmem hq (hk.trans hqk.symm)]
      exact hlink
  | retry _ hp hun =>
    obtain ⟨hsame, hlt⟩ := h.prune_openRemoteDentry hpruned hthru hp hun
    exact .retry hsame hlt

/-- A request is answered, after some retries. -/
theorem serve_spec {fuel : ℕ} (h : Readable e r s) (hfuel : unresolved s < fuel) :
    ∃ s' reply opening, serve e r fuel s = .ok (s', reply, opening) ∧ Replies e r s s' reply opening := by
  induction fuel generalizing s with
  | zero => omega
  | succ fuel ih =>
    obtain ⟨o, ho, hspec⟩ := handleClientReaddir_spec h
    cases hspec with
    | reply hreply =>
      refine ⟨_, _, _, ?_, hreply⟩
      rw [serve, ho]
      rfl
    | retry hsame hlt =>
      obtain ⟨s', reply, opening, hserve, hreply⟩ := ih hsame.listable (by omega)
      refine ⟨s', reply, opening, ?_, hsame.trans hreply.same, ?_, hreply.progress, hreply.opening⟩
      · rw [serve, ho]
        exact hserve
      · rw [← hsame.listing]
        exact hreply.next

theorem Readable.settle {s' : State} {reply : Reply} {opening : Option (Key × ℕ)} (h : Replies e r s s' reply opening)
    (prompt : Bool) : Same e r s (s'.settle e prompt opening) := by
  have hl := h.same.listable
  cases opening with
  | none => exact h.same
  | some x =>
    cases prompt with
    | false => exact h.same
    | true => exact h.same.trans (hl.openRemoteDentry (h.opening rfl)).1

/-! ## All pages -/

/-- The name of the last entry. -/
def lastName (l : List Entry) : List Byte := (l.getLast?.map Prod.fst).getD []

/-- What comes after the last name listed is the rest. -/
theorem Readable.filter_after (h : Readable e r s) {done rest : List Entry} (hl : listing e r s = done ++ rest) :
    (listing e r s).filter (after (lastName done)) = rest := by
  rcases List.eq_nil_or_concat done with rfl | ⟨init, x, rfl⟩
  · rw [hl]
    exact List.filter_eq_self.mpr fun _ _ => rfl
  · rw [List.concat_eq_append] at hl ⊢
    have hlast : lastName (init ++ [x]) = x.1 := by
      rw [lastName, List.getLast?_concat]
      rfl
    have hne : x.1 ≠ [] := by
      have hmem : x ∈ listing e r s := by
        rw [hl]
        simp
      obtain ⟨p, hp, hx⟩ := List.mem_filterMap.mp hmem
      rw [entry_name hx]
      exact h.named hp
    have hasc := h.names_ascending
    rw [hl, List.pairwise_append, List.pairwise_append] at hasc
    obtain ⟨⟨-, -, hinit⟩, -, hrest⟩ := hasc
    rw [hl, hlast, List.filter_append, List.filter_eq_nil_iff.mpr, List.filter_eq_self.mpr, List.nil_append]
    · intro y hy
      rw [after, Bool.or_eq_true, decide_eq_true_eq]
      exact .inr (hrest x (by simp) y hy)
    · intro y hy
      rw [after, Bool.or_eq_true, decide_eq_true_eq, List.isEmpty_iff, not_or]
      refine ⟨hne, ?_⟩
      rcases List.mem_append.mp hy with hy | hy
      · exact lt_asymm (hinit y hy x List.mem_cons_self)
      · rw [List.mem_singleton.mp hy]
        exact lt_irrefl _

theorem Readable.withOffset (h : Readable e r s) (offset : List Byte) : Readable e { r with offset := offset } s :=
  ⟨⟨h.sorted, h.disjoint, h.named, h.last_le, h.bad, h.fits⟩, h.snapid⟩

theorem Same.ofOffset {offset : List Byte} (h : Same e { r with offset := offset } s s') : Same e r s s' :=
  ⟨⟨⟨h.listable.sorted, h.listable.disjoint, h.listable.named, h.listable.last_le, h.listable.bad, h.listable.fits⟩,
    h.listable.snapid⟩, h.listing, h.unresolved⟩

/-- The pages of a listing: each but the last one has an entry and is not the end. -/
def Pages (replies : List Reply) : Prop :=
  ∃ init last, replies = init ++ [last] ∧ last.atEnd = true ∧ ∀ x ∈ init, x.atEnd = false ∧ x.entries ≠ []

theorem readAll_rest {prompt : ℕ → Bool} {fuel : ℕ} {done rest : List Entry} (h : Readable e r s)
    (hl : listing e r s = done ++ rest) (hfuel : rest.length + unresolved s < fuel) :
    ∃ replies, readAll e r prompt fuel s (lastName done) = .ok replies ∧ replies.flatMap Reply.entries = rest ∧
      Pages replies := by
  induction fuel generalizing s done rest with
  | zero => omega
  | succ fuel ih =>
    obtain ⟨s', reply, opening, hserve, hreply⟩ := serve_spec (h.withOffset (lastName done)) (show _ < fuel + 1 by omega)
    obtain ⟨t, ht, hend⟩ := hreply.next
    have ht : rest = reply.entries ++ t := (h.filter_after hl).symm.trans ht
    cases hatEnd : reply.atEnd with
    | true =>
      refine ⟨[reply], ?_, ?_, [], reply, rfl, hatEnd, fun _ hx => absurd hx List.not_mem_nil⟩
      · rw [readAll, hserve]
        show (if reply.atEnd = true then _ else _) = _
        rw [if_pos hatEnd]
        rfl
      · rw [ht, hend hatEnd, List.flatMap_singleton, List.append_nil]
    | false =>
      have hne := hreply.progress hatEnd
      have hsame := (Readable.settle hreply (prompt fuel)).ofOffset
      have hname : reply.lastName = lastName (done ++ reply.entries) := by
        rw [Reply.lastName, lastName, List.getLast?_append_of_ne_nil _ hne]
      have hlen : 0 < reply.entries.length := List.length_pos_of_ne_nil hne
      have hu := hsame.unresolved
      have hl' : listing e r (s'.settle e (prompt fuel) opening) = (done ++ reply.entries) ++ t := by
        rw [hsame.listing, hl, ht, List.append_assoc]
      rw [ht, List.length_append] at hfuel
      obtain ⟨replies, hrun, hflat, init, last, rfl, hlast, hinit⟩ := ih hsame.listable hl' (by omega)
      refine ⟨reply :: (init ++ [last]), ?_, ?_, reply :: init, last, rfl, hlast, ?_⟩
      · rw [readAll, hserve]
        show (if reply.atEnd = true then _ else _) = _
        rw [if_neg (by rw [hatEnd]; exact Bool.false_ne_true)]
        show (readAll e r prompt fuel (s'.settle e (prompt fuel) opening) reply.lastName >>= _) = _
        rw [hname, hrun]
        rfl
      · rw [List.flatMap_cons, hflat, ht]
      · exact List.forall_mem_cons.mpr ⟨⟨hatEnd, hne⟩, hinit⟩

/-- No request is answered where the snapid is not accepted. -/
theorem readAll_error {prompt : ℕ → Bool} (h : ¬ Accepts e r s) (fuel : ℕ) (offset : List Byte) (replies : List Reply) :
    readAll e r prompt fuel s offset ≠ .ok replies := by
  obtain ⟨hdue, hno⟩ := Classical.not_imp.mp h
  have hassert : (!purgeDue e s || r.snapid = cephNosnap || r.snapid ∈ e.snaps) = false := by
    rw [not_or] at hno
    simp [hdue, hno.1, hno.2]
  intro hok
  cases fuel with
  | zero => cases hok
  | succ fuel =>
    obtain ⟨x, hserve, -⟩ := bind_ok.mp hok
    obtain ⟨o, hhandle, -⟩ := bind_ok.mp hserve
    rw [handleClientReaddir] at hhandle
    obtain ⟨u, hu, -⟩ := bind_ok.mp hhandle
    exact Bool.false_ne_true (hassert.symm.trans (assert_ok.mp hu))

/-- Where no snap data is to be purged or the snapid is one of the realm, and only there, reading a directory in
pages ends, with the end, and lists what is visible, each once and in the order of the names; each page but the last
has an entry and is not the end. -/
theorem readAll_lists_iff (prompt : ℕ → Bool) (h : Listable e r s) :
    (((listing e r s).Pairwise fun x y => x.1 < y.1) ∧
      ∀ fuel, (listing e r s).length + unresolved s < fuel →
        ∃ replies, readAll e r prompt fuel s [] = .ok replies ∧ replies.flatMap Reply.entries = listing e r s ∧
          Pages replies) ↔ Accepts e r s := by
  constructor
  · rintro ⟨-, hall⟩
    by_contra hno
    obtain ⟨replies, hok, -⟩ := hall _ (Nat.lt_succ_self _)
    exact readAll_error hno _ _ _ hok
  · intro hsnap
    have hr : Readable e r s := ⟨h, hsnap⟩
    exact ⟨hr.names_ascending,
      fun _ hfuel => readAll_rest hr (show listing e r s = [] ++ listing e r s from rfl) hfuel⟩

/-- An inode `a`, and a remote link `b` that is not in the cache yet. -/
def twoNames : State where
  items := [(⟨[97], cephNosnap⟩, ⟨2, .primary 5, false, false⟩), (⟨[98], cephNosnap⟩, ⟨2, .remote 7, false, false⟩)]
  snapPurgedThru := 0
  inodes := ∅
  badRemoteIno := ∅

/-- No snapshots, and an inode takes 100 bytes. -/
def plain : Surroundings where
  snaps := ∅
  lastDestroyed := 0
  resolves ino := ino = 7
  dirstatLength := 10
  snapTraceLength := 0
  sizeofLeaseStat := 14
  leaseLength := 14
  encodeInodestat _ room := if 100 ≤ room then some 100 else none

/-- The head, one entry at a time. -/
def oneEntry : Request := ⟨cephNosnap, 1, 0, []⟩

theorem listable_twoNames (hfits : ∀ x ∈ listing e r twoNames,
    (encodeEntry e r 0 x.1 x.2).isSome = true) : Listable e r twoNames where
  sorted := by decide +kernel
  disjoint {p q x} hp hq hname _ _ _ _ := by
    simp only [twoNames, List.mem_cons, List.not_mem_nil, or_false] at hp hq
    rcases hp with rfl | rfl <;> rcases hq with rfl | rfl <;> first | rfl | exact absurd hname (by decide)
  named {p} hp := by
    simp only [twoNames, List.mem_cons, List.not_mem_nil, or_false] at hp
    rcases hp with rfl | rfl <;> decide
  last_le {p} hp := by
    simp only [twoNames, List.mem_cons, List.not_mem_nil, or_false] at hp
    rcases hp with rfl | rfl <;> exact le_rfl
  bad _ _ hb := absurd hb (Finset.notMem_empty _)
  fits {x} hx := hfits x hx

theorem readAll_two : ∃ replies, readAll plain oneEntry (fun _ => true) 4 twoNames [] = .ok replies ∧
    replies.flatMap Reply.entries = [([97], 5), ([98], 7)] ∧ Pages replies := by
  have hlisting : listing plain oneEntry twoNames = [([97], 5), ([98], 7)] := by decide +kernel
  have hlistable : Listable plain oneEntry twoNames := listable_twoNames (by decide +kernel)
  rw [← hlisting]
  exact ((readAll_lists_iff (fun _ => true) hlistable).mpr fun _ => .inl rfl).2 4 (by decide +kernel)

/-- CEPH_SNAPDIR, the snapid of a path that ends with an empty component. -/
def cephSnapdir : Snapid := ⟨2 ^ 64 - 1, by decide⟩

/-- The snapshot 5 has been destroyed since the dirfrag was purged. -/
def destroyed : Surroundings := { plain with lastDestroyed := ⟨5, by decide⟩ }

theorem not_readAll_lists : Listable destroyed { oneEntry with snapid := cephSnapdir } twoNames ∧
    ∀ prompt fuel replies, readAll destroyed { oneEntry with snapid := cephSnapdir } prompt fuel twoNames [] ≠ .ok replies := by
  refine ⟨listable_twoNames (by decide +kernel), fun _ fuel replies => readAll_error (fun haccepts => ?_) fuel [] replies⟩
  rcases haccepts (by decide) with hs | hs
  · exact absurd hs (by decide)
  · exact absurd hs (Finset.notMem_empty _)

end CephMds.Readdir
