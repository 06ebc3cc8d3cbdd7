import CephMds.Proof.Subtree.Fragment

/-!
# Merging fragments keeps the subtree map

The other half of refragmentation: `adjustDirFragmentsMerge_spec` for old
fragments with one authority. The result about both halves is
`adjustDirFragments_refragged`.
-/

namespace CephMds

namespace Cache

variable {ι α L : Type} [LinearOrder α] {I : InodeAuthority ι α} {c c' c₁ : Cache ι α L} {i : ι}
  {srcs : List α} {f : α} {p : Option α} {a : Auth}

open Checked

/-! ## The loops -/

/-- The loop that takes the roots `l` out of the map. -/
theorem takeBounds_spec (l : List α) : ∀ b : Cache ι α L × Finset α, l.Nodup →
    (∀ s ∈ l, b.1.isSubtreeRoot s = true ∧ (b.1.subtrees s).isSome) →
    (∀ r, p = some r → (b.1.subtrees r).isSome ∧ r ∉ l) →
    ∃ b', l.foldlM (takeBounds p) b = .ok b' ∧ b'.1 = { b.1 with subtrees := b'.1.subtrees } ∧
      (∀ x, (b'.1.subtrees x).isSome = (!decide (x ∈ l) && (b.1.subtrees x).isSome)) ∧
      (∀ x s, s ∈ b'.1.bounds x ↔ x ∉ l ∧ s ∈ b.1.bounds x ∧ ¬ (p = some x ∧ s ∈ l)) ∧
      ∀ s, s ∈ b'.2 ↔ s ∈ b.2 ∨ ∃ d ∈ l, s ∈ b.1.bounds d := by
  induction l with
  | nil => exact fun b _ _ _ => ⟨b, rfl, rfl, by simp, by simp, by simp⟩
  | cons d l ih =>
    rintro ⟨c, bs⟩ hnd hl hp
    obtain ⟨hdl, hnd⟩ := List.nodup_cons.mp hnd
    obtain ⟨hroot, hkey⟩ := hl d List.mem_cons_self
    obtain ⟨bd, hbd⟩ := Option.isSome_iff_exists.mp hkey
    have hbounds : c.bounds d = bd := by rw [bounds, hbd, Option.getD_some]
    -- One step: the key `d` is gone, and `d` is no bound of `p`.
    obtain ⟨c₁, hc₁⟩ : ∃ c₁, c₁ = p.elim (c.eraseSubtree d) fun r => (c.eraseSubtree d).eraseBound r d :=
      ⟨_, rfl⟩
    have hrest : c₁ = { c with subtrees := c₁.subtrees } := by
      cases p with
      | none => rw [hc₁]; rfl
      | some r => rw [hc₁]; rfl
    have hk : ∀ x, (c₁.subtrees x).isSome = (!decide (x = d) && (c.subtrees x).isSome) := by
      intro x
      have he : ((c.eraseSubtree d).subtrees x).isSome = (!decide (x = d) && (c.subtrees x).isSome) := by
        by_cases hx : x = d <;> simp [eraseSubtree, hx]
      rw [hc₁, ← he]
      cases hpr : p with
      | none => rfl
      | some r =>
        obtain ⟨hr, hrl⟩ := hp r hpr
        have hrd : r ≠ d := fun e => hrl (e ▸ List.mem_cons_self)
        exact setBounds_key (by simpa [eraseSubtree, hrd] using hr)
    have hb : ∀ x s, s ∈ c₁.bounds x ↔ x ≠ d ∧ s ∈ c.bounds x ∧ ¬ (p = some x ∧ s = d) := by
      intro x s
      have he : s ∈ (c.eraseSubtree d).bounds x ↔ x ≠ d ∧ s ∈ c.bounds x := by
        by_cases hx : x = d <;> simp [eraseSubtree, bounds, hx]
      rw [hc₁]
      cases p with
      | none => simp [he]
      | some r =>
        rw [Option.elim_some, mem_eraseBound, he, Option.some.injEq, @eq_comm _ r x, and_assoc]
    have hA : c₁.isSubtreeRoot = c.isSubtreeRoot := by rw [hrest]; rfl
    obtain ⟨b', h₁, h₂, h₃, h₄, h₅⟩ := ih (c₁, bs ∪ bd) hnd
      (fun s hs => by
        have hsd : s ≠ d := fun e => hdl (e ▸ hs)
        obtain ⟨h, h'⟩ := hl s (List.mem_cons_of_mem _ hs)
        exact ⟨by rw [hA]; exact h, by rw [hk]; simpa [hsd] using h'⟩)
      (fun r hr => by
        obtain ⟨h, h'⟩ := hp r hr
        have hrd : r ≠ d := fun e => h' (e ▸ List.mem_cons_self)
        exact ⟨by rw [hk]; simpa [hrd] using h, fun h => h' (List.mem_cons_of_mem _ h)⟩)
    refine ⟨b', ?_, ?_, fun x => ?_, fun x s => ?_, fun s => ?_⟩
    · rw [List.foldlM_cons, bind_ok]
      refine ⟨(c₁, bs ∪ bd), ?_, h₁⟩
      rw [takeBounds, if_pos hroot]
      exact bind_ok.mpr ⟨bd, deref_ok.mpr hbd, by rw [hc₁]; rfl⟩
    · rw [h₂, hrest]
    · rw [h₃, hk]
      by_cases hx : x = d <;> simp [hx]
    · rw [h₄, hb]
      simp only [List.mem_cons, not_or, not_and, ne_eq]
      tauto
    · rw [h₅, Finset.mem_union, ← hbounds]
      simp only [List.mem_cons, exists_eq_or_imp, or_assoc, hb]
      refine or_congr_right (or_congr_right ⟨?_, ?_⟩)
      · rintro ⟨e, he, -, h, -⟩
        exact ⟨e, he, h⟩
      · rintro ⟨e, he, h⟩
        refine ⟨e, he, fun h => hdl (h ▸ he), h, fun hpe => ?_⟩
        exact (hp e hpe.1).2 (List.mem_cons_of_mem _ he)

/-- Without roots among them there is nothing to take. -/
theorem takeBounds_none {b : Cache ι α L × Finset α} (l : List α)
    (hl : ∀ s ∈ l, b.1.isSubtreeRoot s = false) : l.foldlM (takeBounds p) b = .ok b := by
  induction l with
  | nil => rfl
  | cons d l ih =>
    rw [List.foldlM_cons, bind_ok]
    refine ⟨b, ?_, ih fun s hs => hl s (List.mem_cons_of_mem _ hs)⟩
    rw [takeBounds, hl d List.mem_cons_self, if_neg Bool.false_ne_true]
    rfl

/-- The loop that closes the old fragments. -/
theorem mergeSources_spec (l : List α) : ∀ c : Cache ι α L, l.Nodup →
    (∀ s ∈ l, c.pinSubtree s = if c.isSubtreeRoot s then 1 else 0) →
    ∃ c', c.mergeSources l = .ok c' ∧ c'.subtrees = c.subtrees ∧
      (c'.dirAuth = fun x => if x ∈ l then cdirAuthDefault else c.dirAuth x) ∧
      (c'.pinSubtree = fun x => if x ∈ l then 0 else c.pinSubtree x) ∧
      (c'.tree.inode = fun x => if x ∈ l then none else c.tree.inode x) ∧
      c'.tree.parentDir = c.tree.parentDir := by
  induction l with
  | nil => exact fun c _ _ => ⟨c, rfl, rfl, by simp, by simp, by simp, rfl⟩
  | cons d l ih =>
    intro c hnd hpin
    obtain ⟨hdl, hnd⟩ := List.nodup_cons.mp hnd
    obtain ⟨c₁, hc₁, h₁⟩ : ∃ c₁, c.finishOldFragment d = .ok c₁ ∧
        c₁ = { c with pinSubtree := Function.update c.pinSubtree d 0 } := by
      have hd := hpin d List.mem_cons_self
      rw [finishOldFragment]
      cases hroot : c.isSubtreeRoot d with
      | true =>
        rw [hroot, if_pos rfl] at hd
        rw [if_pos rfl, putPin, hd]
        exact ⟨_, bind_ok.mpr ⟨(), assert_ok.mpr rfl, rfl⟩, rfl⟩
      | false =>
        rw [hroot, if_neg Bool.false_ne_true] at hd
        rw [if_neg Bool.false_ne_true]
        refine ⟨c, rfl, ?_⟩
        rw [← hd, Function.update_eq_self]
    have hother : ∀ s ∈ l, s ≠ d := fun s hs e => hdl (e ▸ hs)
    obtain ⟨c', h₂, hs, hA, hp, hi, ht⟩ := ih (c₁.closeDirfrag d) hnd fun s hs => by
      simpa [h₁, closeDirfrag, isSubtreeRoot, hother s hs] using hpin s (List.mem_cons_of_mem _ hs)
    refine ⟨c', ?_, by rw [hs, h₁]; rfl, funext fun x => ?_, funext fun x => ?_, funext fun x => ?_,
      by rw [ht, h₁]; rfl⟩
    · rw [mergeSources, List.foldlM_cons, bind_ok]
      exact ⟨_, bind_ok.mpr ⟨c₁, hc₁, rfl⟩, h₂⟩
    · rw [hA]
      by_cases hx : x = d <;> simp [closeDirfrag, h₁, hx]
    · rw [hp]
      by_cases hx : x = d <;> simp [closeDirfrag, h₁, hx]
    · rw [hi]
      by_cases hx : x = d <;> simp [closeDirfrag, DirTree.close, h₁, hx]

/-! ## The merge -/

/-- The map before `CDir::merge`, with or without roots among the old fragments. -/
theorem takeBounds_map (hI : Inv c) (hne : srcs ≠ []) (hnd : srcs.Nodup) (hsame : ∀ s ∈ srcs, c.dirAuth s = a)
    (habove : ∀ s ∈ srcs, c.rootAbove s = p) :
    ∃ b, srcs.foldlM (takeBounds p) (c, ∅) = .ok b ∧
      (∀ x, (b.1.subtrees x).isSome = (!decide (x ∈ srcs) && c.isSubtreeRoot x)) ∧
      (∀ x s, s ∈ b.1.bounds x ↔ x ∉ srcs ∧ s ∉ srcs ∧ s ∈ c.bounds x) ∧
      ∀ s, s ∈ b.2 ↔ ∃ d ∈ srcs, s ∈ c.bounds d := by
  have hroot : ∀ s ∈ srcs, c.isSubtreeRoot s = (a != cdirAuthDefault) := fun s hs => by
    rw [isSubtreeRoot, hsame s hs]
  cases ha : a != cdirAuthDefault with
  | true =>
    rw [ha] at hroot
    have hp : ∀ r, p = some r → ∀ s ∈ srcs, s ∈ c.bounds r := fun r hr s hs =>
      (hI.mem_bounds r s).mpr ⟨hroot s hs, (habove s hs).trans hr⟩
    obtain ⟨b, h₁, -, h₃, h₄, h₅⟩ := takeBounds_spec (p := p) srcs (c, ∅) hnd
      (fun s hs => ⟨hroot s hs, (hI.key s).trans (hroot s hs)⟩) fun r hr => by
        refine ⟨?_, fun hs => c.tree.forest.above_ne ((hI.mem_bounds r r).mp (hp r hr r hs)).2 rfl⟩
        obtain ⟨s, hs⟩ := List.exists_mem_of_ne_nil srcs hne
        exact (hI.key r).trans (rootAbove_isRoot ((habove s hs).trans hr))
    refine ⟨b, h₁, fun x => by rw [h₃, hI.key], fun x s => ?_, fun s => by rw [h₅]; simp⟩
    rw [h₄]
    refine and_congr_right fun _ => ?_
    constructor
    · rintro ⟨hs, hn⟩
      refine ⟨fun hss => hn ⟨?_, hss⟩, hs⟩
      exact (habove s hss).symm.trans ((hI.mem_bounds x s).mp hs).2
    · rintro ⟨hss, hs⟩
      exact ⟨hs, fun h => hss h.2⟩
  | false =>
    rw [ha] at hroot
    have hnb : ∀ {x s}, s ∈ c.bounds x → x ∉ srcs ∧ s ∉ srcs := by
      intro x s hs
      obtain ⟨hx, hs, -⟩ := hI.mem_bounds' hs
      exact ⟨fun h => by simp [hroot x h] at hx, fun h => by simp [hroot s h] at hs⟩
    refine ⟨(c, ∅), takeBounds_none srcs hroot, fun x => ?_, fun x s => ?_, fun s => ?_⟩
    · rw [hI.key]
      by_cases hx : x ∈ srcs
      · simp [hx, hroot x hx]
      · simp [hx]
    · exact ⟨fun h => ⟨(hnb h).1, (hnb h).2, h⟩, fun h => h.2.2⟩
    · refine ⟨fun h => absurd h (Finset.notMem_empty s), ?_⟩
      rintro ⟨d, hd, hs⟩
      exact absurd hd (hnb hs).1

/-- The new fragment goes into the map with the bounds of the old ones. -/
theorem setBounds_merged {bs : Finset α} (hI : Inv c) (hfs : f ∉ srcs) (hff : c.isSubtreeRoot f = false)
    (hbelow : ∀ {s}, (∃ d ∈ srcs, s ∈ c.bounds d) → s ∉ srcs)
    (hb : ∀ x s, s ∈ c₁.bounds x ↔ x ∉ srcs ∧ s ∉ srcs ∧ s ∈ c.bounds x)
    (hbs : ∀ s, s ∈ bs ↔ ∃ d ∈ srcs, s ∈ c.bounds d) (r s : α) :
    s ∈ (c₁.setBounds f bs).bounds r ↔ s ∉ srcs ∧ r ∉ srcs ∧
      (s ≠ f ∧ r ≠ f ∧ s ∈ c.bounds r ∨ s ≠ f ∧ r = f ∧ ∃ d ∈ srcs, s ∈ c.bounds d) := by
  rw [setBounds_bounds]
  by_cases hr : r = f
  · rw [if_pos hr, hbs]
    constructor
    · intro h
      obtain ⟨d, hd, h'⟩ := h
      exact ⟨hbelow ⟨d, hd, h'⟩, by rw [hr]; exact hfs, .inr ⟨(hI.ne_of_bounds hff h').1, hr, d, hd, h'⟩⟩
    · rintro ⟨-, -, ⟨-, h, -⟩ | ⟨-, -, h⟩⟩
      · exact absurd hr h
      · exact h
  · rw [if_neg hr, hb]
    constructor
    · rintro ⟨h₁, h₂, h₃⟩
      exact ⟨h₂, h₁, .inl ⟨(hI.ne_of_bounds hff h₃).1, hr, h₃⟩⟩
    · rintro ⟨h₁, h₂, ⟨-, -, h⟩ | ⟨-, h, -⟩⟩
      · exact ⟨h₂, h₁, h⟩
      · exact absurd h hr

/-- The map in the end. -/
theorem mergeSubtree_map {bs : Finset α} {k : Bool} {s₀ : α} (hI : Inv c) (hfs : f ∉ srcs)
    (hff : c.isSubtreeRoot f = false) (hroot : ∀ s ∈ srcs, c.isSubtreeRoot s = k)
    (habove : ∀ s ∈ srcs, c.rootAbove s = p) (hs₀ : s₀ ∈ srcs)
    (hk : ∀ x, (c₁.subtrees x).isSome = (!decide (x ∈ srcs) && c.isSubtreeRoot x))
    (hb : ∀ x s, s ∈ c₁.bounds x ↔ x ∉ srcs ∧ s ∉ srcs ∧ s ∈ c.bounds x)
    (hbs : ∀ s, s ∈ bs ↔ ∃ d ∈ srcs, s ∈ c.bounds d)
    (hc' : c' = if srcs.any c.isSubtreeRoot then c₁.mergeSubtree p f bs else c₁) :
    (∀ x, (c'.subtrees x).isSome = (!decide (x ∈ srcs) && if x = f then k else c.isSubtreeRoot x)) ∧
      ∀ r s, s ∈ c'.bounds r ↔ s ∉ srcs ∧ r ∉ srcs ∧ (s ≠ f ∧ r ≠ f ∧ s ∈ c.bounds r ∨
        s = f ∧ r ≠ f ∧ (∃ d ∈ srcs, d ∈ c.bounds r) ∨ s ≠ f ∧ r = f ∧ ∃ d ∈ srcs, s ∈ c.bounds d) := by
  have hany : srcs.any c.isSubtreeRoot = k := by
    rw [Bool.eq_iff_iff, List.any_eq_true]
    exact ⟨fun ⟨s, hs, h⟩ => (hroot s hs).symm.trans h, fun h => ⟨s₀, hs₀, (hroot s₀ hs₀).trans h⟩⟩
  rw [hany] at hc'
  cases k with
  | false =>
    rw [if_neg Bool.false_ne_true] at hc'
    subst hc'
    have hno : ∀ d ∈ srcs, c.bounds d = ∅ := fun d hd => hI.bounds_of_not (hroot d hd)
    have hno' : ∀ d ∈ srcs, ∀ r, d ∉ c.bounds r := fun d hd r hr => by
      have := ((hI.mem_bounds r d).mp hr).1
      rw [hroot d hd] at this
      cases this
    refine ⟨fun x => ?_, fun r s => ?_⟩
    · rw [hk]
      by_cases hx : x = f <;> simp [hx, hff]
    · rw [hb]
      constructor
      · rintro ⟨hr, hs, h⟩
        obtain ⟨hsf, hrf⟩ := hI.ne_of_bounds hff h
        exact ⟨hs, hr, .inl ⟨hsf, hrf, h⟩⟩
      · rintro ⟨hs, hr, ⟨-, -, h⟩ | ⟨-, -, d, hd, h⟩ | ⟨-, -, d, hd, h⟩⟩
        · exact ⟨hr, hs, h⟩
        · exact absurd h (hno' d hd r)
        · rw [hno d hd] at h
          exact absurd h (Finset.notMem_empty s)
  | true =>
    rw [if_pos rfl] at hc'
    have hpar : ∀ {r}, p = some r ↔ ∃ d ∈ srcs, d ∈ c.bounds r := hI.rootAbove_iff hroot habove hs₀
    have hpne : ∀ {r}, p = some r → r ≠ f ∧ r ∉ srcs := by
      intro r hr
      obtain ⟨d, hd, h⟩ := hpar.mp hr
      refine ⟨(hI.ne_of_bounds hff h).2, fun hrs => ?_⟩
      exact c.tree.forest.above_ne ((habove r hrs).trans hr) rfl
    have hbelow : ∀ {s}, (∃ d ∈ srcs, s ∈ c.bounds d) → s ∉ srcs := by
      rintro s ⟨d, hd, h⟩ hs
      exact (hpne (hpar.mpr ⟨s, hs, h⟩)).2 hd
    have hset : ∀ x, ((c₁.setBounds f bs).subtrees x).isSome =
        (!decide (x ∈ srcs) && if x = f then true else c.isSubtreeRoot x) := by
      intro x
      by_cases hx : x = f
      · simp [setBounds, hx, hfs]
      · simp [setBounds, hx, hk]
    refine ⟨fun x => ?_, fun r s => ?_⟩
    · rw [hc', ← hset]
      cases hp : p with
      | none => rfl
      | some r =>
        refine setBounds_key ?_
        rw [hset, if_neg (hpne hp).1, rootAbove_isRoot ((habove s₀ hs₀).trans hp)]
        simp [(hpne hp).2]
    · have hins : s ∈ c'.bounds r ↔ s ∈ (c₁.setBounds f bs).bounds r ∨ p = some r ∧ s = f := by
        rw [hc']
        cases p with
        | none => simp [mergeSubtree]
        | some q => rw [mergeSubtree, Option.elim_some, mem_insertBound, Option.some.injEq, @eq_comm _ r q]
      rw [hins, setBounds_merged hI hfs hff hbelow hb hbs, hpar]
      constructor
      · rintro (⟨h₁, h₂, h | h⟩ | ⟨h, rfl⟩)
        · exact ⟨h₁, h₂, .inl h⟩
        · exact ⟨h₁, h₂, .inr (.inr h)⟩
        · obtain ⟨h₁, h₂⟩ := hpne (hpar.mpr h)
          exact ⟨hfs, h₂, .inr (.inl ⟨rfl, h₁, h⟩)⟩
      · rintro ⟨h₁, h₂, h | ⟨rfl, -, h⟩ | h⟩
        · exact .inl ⟨h₁, h₂, .inl h⟩
        · exact .inr ⟨h, rfl⟩
        · exact .inl ⟨h₁, h₂, .inr h⟩

section Merge

variable [DecidableEq ι]

/-- What `CDir::merge` makes of the cache: the new fragment has the authority of
the old ones and a pin to match, and they are gone. -/
structure Merged (c c' : Cache ι α L) (i : ι) (srcs : List α) (f : α) (a : Auth)
    (h : Steals c.tree i srcs [f] fun _ => f) : Prop where
  dirAuth : c'.dirAuth = fun x => if x ∈ srcs then cdirAuthDefault else if x = f then a else c.dirAuth x
  pinSubtree : c'.pinSubtree = fun x => if x ∈ srcs then 0 else
    if x = f then (if c'.isSubtreeRoot f then 1 else 0) else c.pinSubtree x
  inode : c'.tree.inode = fun x => if x ∈ srcs then none else if x = f then some i else c.tree.inode x
  parentDir : c'.tree.parentDir = (c.tree.steal i srcs [f] (fun _ => f) h).parentDir

theorem mergeDir_spec [Zero L] (h : Steals c.tree i srcs [f] fun _ => f) (hnd : srcs.Nodup)
    (hpin : ∀ s ∈ srcs, c.pinSubtree s = if c.isSubtreeRoot s then 1 else 0)
    (hsame : ∀ s ∈ srcs, c.dirAuth s = a) :
    ∃ c', c.mergeDir i srcs f h = .ok c' ∧ c'.subtrees = c.subtrees ∧ Merged c c' i srcs f a h := by
  have hfs : f ∉ srcs := h.notMem (List.mem_singleton_self f)
  have hlast : c.dirAuth (srcs.getLast h.ne_nil) = a := hsame _ (List.getLast_mem h.ne_nil)
  obtain ⟨c₁, h₁, hs, hA, hp, hi, ht⟩ := mergeSources_spec srcs
    { c with
      tree := c.tree.steal i srcs [f] (fun _ => f) h
      dirAuth := Function.update c.dirAuth f (c.dirAuth (srcs.getLast h.ne_nil))
      pinSubtree := Function.update c.pinSubtree f 0
      exportBound := Function.update c.exportBound f (srcs.any c.exportBound)
      isAuth := Function.update c.isAuth f (c.isAuth (srcs.head h.ne_nil))
      popAuthSubtree := Function.update c.popAuthSubtree f 0 } hnd fun s hs => by
    have hsf : s ≠ f := fun e => hfs (e ▸ hs)
    simpa [isSubtreeRoot, hsf] using hpin s hs
  refine ⟨_, bind_ok.mpr ⟨c₁, h₁, rfl⟩, ?_, ?_, ?_, ?_, ?_⟩
  · rw [← hs]
    split <;> rfl
  · have hA' : (if c₁.isSubtreeRoot f then c₁.getPin f else c₁).dirAuth = c₁.dirAuth := by split <;> rfl
    rw [hA', hA, hlast]
    funext x
    by_cases hx : x = f <;> simp [hx]
  · funext x
    have hpf : c₁.pinSubtree f = 0 := by simp [hp, hfs]
    cases hroot : c₁.isSubtreeRoot f with
    | true =>
      rw [if_pos rfl, if_pos (show (c₁.getPin f).isSubtreeRoot f = true from hroot)]
      by_cases hx : x = f
      · simp [getPin, hx, hfs, hpf]
      · simp [getPin, hx, hp]
    | false =>
      rw [if_neg Bool.false_ne_true, hroot, if_neg Bool.false_ne_true]
      by_cases hx : x = f <;> simp [hp, hx]
  · have hT : (if c₁.isSubtreeRoot f then c₁.getPin f else c₁).tree = c₁.tree := by split <;> rfl
    rw [hT, hi]
    funext x
    by_cases hx : x = f <;> simp [DirTree.steal, hx]
  · have hT : (if c₁.isSubtreeRoot f then c₁.getPin f else c₁).tree = c₁.tree := by split <;> rfl
    rw [hT, ht]

section Merged

variable {h : Steals c.tree i srcs [f] fun _ => f} (hM : Merged c c' i srcs f a h)
include hM

theorem Merged.isSubtreeRoot (x : α) : c'.isSubtreeRoot x = if x ∈ srcs then false else
    if x = f then a != cdirAuthDefault else c.isSubtreeRoot x := by
  rw [Cache.isSubtreeRoot, hM.dirAuth]
  by_cases hx : x ∈ srcs
  · simp [hx]
  · by_cases hxf : x = f
    · subst hxf
      simp [hx]
    · simp [hx, hxf, Cache.isSubtreeRoot]

theorem Merged.replaces :
    c.tree.forest.Replaces c'.tree.forest (· ∈ srcs) (· ∈ [f]) (c.tree.parentDir i) := by
  refine h.replaces (fun x hx => ?_) hM.parentDir
  simp [hM.inode, hx]

variable (hsame : ∀ s ∈ srcs, c.dirAuth s = a)
include hsame

theorem Merged.remarks :
    Forest.Remarks (· ∈ srcs) (· ∈ [f]) c.isSubtreeRoot c'.isSubtreeRoot (a != cdirAuthDefault) := by
  have hfs : f ∉ srcs := h.notMem (List.mem_singleton_self f)
  refine ⟨fun {s} hs => by rw [Cache.isSubtreeRoot, hsame s hs], fun {x} hx => ?_, fun {x} hx hx' => ?_⟩
  · rw [List.mem_singleton.mp hx, hM.isSubtreeRoot, if_neg hfs, if_pos rfl]
  · rw [hM.isSubtreeRoot, if_neg hx, if_neg (by simpa using hx')]

/-- Every authority stays, and the new fragment has that of the old ones. -/
theorem Merged.authority (x : α) : (x ∉ srcs → x ∉ [f] → c'.authority I x = c.authority I x) ∧
    (x ∈ srcs → ∀ g ∈ [f], c'.authority I g = c.authority I x) := by
  have hfs : f ∉ srcs := h.notMem (List.mem_singleton_self f)
  refine authority_refrag hM.replaces (hM.remarks hsame) (fun s hs => hsame s hs) (fun x hx => ?_) (fun x hx hx' => ?_)
    (fun x hx hx' => ?_) (fun j hj => ?_) (fun s x hs hx => ?_) x
  · rw [List.mem_singleton.mp hx]
    simp [hM.dirAuth, hfs]
  · have hxf : x ≠ f := by simpa using hx'
    simp [hM.dirAuth, hx, hxf]
  · have hxf : x ≠ f := by simpa using hx'
    simp [hM.inode, hx, hxf]
  · simp [hM.parentDir, DirTree.steal, hj]
  · rw [List.mem_singleton.mp hx, h.src hs]
    simp [hM.inode, hfs]

/-- With the map to match, the invariant holds. -/
theorem Merged.inv (hI : Inv c) (hkey : ∀ x, (c'.subtrees x).isSome =
      (!decide (x ∈ srcs) && if x = f then a != cdirAuthDefault else c.isSubtreeRoot x))
    (hbounds : ∀ r s, s ∈ c'.bounds r ↔ s ∉ srcs ∧ r ∉ srcs ∧ (s ≠ f ∧ r ≠ f ∧ s ∈ c.bounds r ∨
      s = f ∧ r ≠ f ∧ (∃ d ∈ srcs, d ∈ c.bounds r) ∨ s ≠ f ∧ r = f ∧ ∃ d ∈ srcs, s ∈ c.bounds d)) : Inv c' := by
  have hfs : f ∉ srcs := h.notMem (List.mem_singleton_self f)
  have hfree : ∀ x, x ∈ [f] → c.isSubtreeRoot x = false := fun x hx => hI.root_free h hx
  have hgone : ∀ s, s ∈ srcs → c'.isSubtreeRoot s = false := fun s hs => by rw [hM.isSubtreeRoot, if_pos hs]
  have hm := hM.remarks hsame
  refine hI.refrag hM.replaces hm hfree hgone (List.exists_mem_of_ne_nil srcs h.ne_nil) (fun x => ?_) (fun x => ?_)
    (fun x hx => ?_) (fun r s => ?_)
  · rw [hkey, hM.isSubtreeRoot]
    by_cases hx : x ∈ srcs
    · simp [hx]
    · by_cases hxf : x = f <;> simp [hx, hxf, hfs]
  · rw [hM.pinSubtree]
    by_cases hx : x ∈ srcs
    · simp [hx, hM.isSubtreeRoot]
    · by_cases hxf : x = f
      · simp [hxf, hfs]
      · simp [hx, hxf, hM.isSubtreeRoot, hI.pin]
  · rw [hM.isSubtreeRoot] at hx
    rw [hM.inode]
    by_cases hxs : x ∈ srcs
    · simp [hxs] at hx
    · by_cases hxf : x = f
      · simp [hxf, hfs]
      · rw [if_neg hxs, if_neg hxf] at hx
        simp [hxs, hxf, hI.cached hx]
  · rw [hbounds]
    simp only [List.mem_singleton]
    refine and_congr_right fun hs => and_congr_right fun _ => or_congr_right (or_congr_right ?_)
    refine and_congr_right fun _ => ⟨?_, fun h => ⟨h.1, h.2.1⟩⟩
    rintro ⟨rfl, d, hd, hsd⟩
    obtain ⟨g, hg, hab⟩ := rootAbove_below hI hM.replaces hm hfree hs hsd hd
    exact ⟨rfl, ⟨d, hd, hsd⟩, by rw [hab, List.mem_singleton.mp hg]⟩

end Merged

/-- A merge returns and keeps the invariant, the old fragments are no longer
in the map, and every other fragment has the authority it had. -/
theorem adjustDirFragmentsMerge_spec [Zero L] (hI : Inv c) (h : Steals c.tree i srcs [f] fun _ => f)
    (hnd : srcs.Nodup) (hsame : ∀ s ∈ srcs, c.dirAuth s = a) :
    ∃ c', c.adjustDirFragmentsMerge i srcs f h = .ok c' ∧ Inv c' ∧
      (∀ s ∈ srcs, c'.isSubtreeRoot s = false) ∧
      (∀ x, x ∉ srcs → x ≠ f → c'.authority I x = c.authority I x) ∧
      ∀ s ∈ srcs, c'.authority I f = c.authority I s := by
  have hff : c.isSubtreeRoot f = false := hI.root_free h (List.mem_singleton_self f)
  obtain ⟨p, hp⟩ : ∃ p, p = (c.tree.parentDir i).bind c.getSubtreeRoot := ⟨_, rfl⟩
  have habove : ∀ s ∈ srcs, c.rootAbove s = p := fun s hs => by
    rw [hp]
    simp only [rootAbove, Forest.above, DirTree.forest, h.src hs, Option.bind_some]; rfl
  have hroot : ∀ s ∈ srcs, c.isSubtreeRoot s = (a != cdirAuthDefault) := fun s hs => by
    rw [Cache.isSubtreeRoot, hsame s hs]
  obtain ⟨b, hb, hbk, hbb, hbn⟩ := takeBounds_map hI h.ne_nil hnd hsame habove
  obtain ⟨c₁, hc₁, hs₁, hM₁⟩ := mergeDir_spec (c := { c with subtrees := b.1.subtrees })
    h hnd (fun s _ => hI.pin s) hsame
  -- The new key comes last; it changes nothing but the map.
  obtain ⟨c', hc'⟩ : ∃ c', c' = if srcs.any c.isSubtreeRoot then c₁.mergeSubtree p f b.2 else c₁ := ⟨_, rfl⟩
  have hrest : c' = { c₁ with subtrees := c'.subtrees } := by
    rw [hc']
    cases srcs.any c.isSubtreeRoot with
    | true => cases p <;> rfl
    | false => rfl
  have hM : Merged c c' i srcs f a h := by
    rw [hrest]
    exact ⟨hM₁.dirAuth, hM₁.pinSubtree, hM₁.inode, hM₁.parentDir⟩
  obtain ⟨s₀, hs₀⟩ := List.exists_mem_of_ne_nil srcs h.ne_nil
  have hmap := mergeSubtree_map hI (h.notMem (List.mem_singleton_self f)) hff hroot habove hs₀ (by rw [hs₁]; exact hbk)
    (by simp only [bounds, hs₁]; exact hbb) hbn hc'
  refine ⟨c', ?_, hM.inv hsame hI hmap.1 hmap.2, fun s hs => by rw [hM.isSubtreeRoot, if_pos hs],
    fun x hx hx' => (hM.authority hsame x).1 hx (by simpa using hx'),
    fun s hs => (hM.authority hsame s).2 hs f (List.mem_singleton_self f)⟩
  rw [adjustDirFragmentsMerge, ← hp]
  refine bind_ok.mpr ⟨b, hb, bind_ok.mpr ⟨c₁, hc₁, ?_⟩⟩
  rw [hc']; rfl

/-- What a refragmentation of `srcs` into `news` leaves: the invariant, a map
without `srcs`, and every authority as it was. -/
structure Refragged (I : InodeAuthority ι α) (c c' : Cache ι α L) (srcs news : List α) : Prop where
  inv : Inv c'
  gone {s : α} : s ∈ srcs → c'.subtrees s = none ∧ ∀ r, s ∉ c'.bounds r
  kept {x : α} : x ∉ srcs → x ∉ news → c'.authority I x = c.authority I x
  new {s f : α} : s ∈ srcs → f ∈ news → c'.authority I f = c.authority I s

omit [LinearOrder α] [DecidableEq ι] in
theorem Inv.notMem_of_not (hI : Inv c) {s : α} (h : c.isSubtreeRoot s = false) :
    c.subtrees s = none ∧ ∀ r, s ∉ c.bounds r := by
  refine ⟨?_, fun r hr => ?_⟩
  · rw [← Option.not_isSome_iff_eq_none, hI.key, h]
    exact Bool.false_ne_true
  · have := ((hI.mem_bounds r s).mp hr).1
    rw [h] at this
    cases this

/-- Both halves of `adjust_dir_fragments` return and keep the subtree map: a
split of one fragment into any others, and a merge of fragments that are all
roots with one authority or none of which is a root. -/
theorem adjustDirFragments_refragged [Zero L] (hI : Inv c) :
    (∀ (i : ι) (dir : α) (subs : List α) (pick : ι → α) (fac : L → L)
      (h : Steals c.tree i [dir] subs pick), ∃ c',
      c.adjustDirFragmentsSplit i dir subs pick fac h = .ok c' ∧ Refragged I c c' [dir] subs) ∧
    ∀ (i : ι) (srcs : List α) (f : α) (h : Steals c.tree i srcs [f] fun _ => f), srcs.Nodup →
      ((∃ a, ∀ s ∈ srcs, c.isSubtreeRoot s = true ∧ c.dirAuth s = a) ∨
        ∀ s ∈ srcs, c.isSubtreeRoot s = false) → ∃ c',
      c.adjustDirFragmentsMerge i srcs f h = .ok c' ∧ Refragged I c c' srcs [f] := by
  refine ⟨fun i dir subs pick fac h => ?_, fun i srcs f h hnd hall => ?_⟩
  · obtain ⟨c', hc', hI', hgone, hkept, hnew⟩ := adjustDirFragmentsSplit_spec (I := I) fac hI h
    refine ⟨c', hc', hI', fun {s} hs => ?_, fun {x} hx => hkept x (by simpa using hx), fun {s f} hs hf => ?_⟩
    · rw [List.mem_singleton.mp hs]
      exact hI'.notMem_of_not hgone
    · rw [List.mem_singleton.mp hs]
      exact hnew f hf
  · obtain ⟨a, hsame⟩ : ∃ a, ∀ s ∈ srcs, c.dirAuth s = a := by
      rcases hall with ⟨a, ha⟩ | hno
      · exact ⟨a, fun s hs => (ha s hs).2⟩
      · exact ⟨cdirAuthDefault, fun s hs => by simpa [isSubtreeRoot] using hno s hs⟩
    obtain ⟨c', hc', hI', hgone, hkept, hnew⟩ := adjustDirFragmentsMerge_spec (I := I) hI h hnd hsame
    refine ⟨c', hc', hI', fun {s} hs => hI'.notMem_of_not (hgone s hs),
      fun {x} hx hx' => hkept x hx (by simpa using hx'), fun {s g} hs hg => ?_⟩
    rw [List.mem_singleton.mp hg]
    exact hnew s hs

end Merge

/-- Inode 1 has the fragments 1 and 3 in the base fragment 0, and 2 is in
fragment 1. The fragments 4 and 5 are free. -/
def siblings : DirTree (Fin 3) (Fin 6) :=
  .small ![some 0, some 1, some 2, some 1, none, none] ![none, some 0, some 1] (by decide)

/-- Rank 1 has both fragments of inode 1, and 2 is delegated back. -/
def fragmented : Cache (Fin 3) (Fin 6) ℤ :=
  ((((empty siblings).delegateTo 0 0).delegateTo 1 1).delegateTo 3 1).delegateTo 2 0

theorem steals_split : Steals fragmented.tree 1 [1] [4, 5] fun _ => 5 :=
  ⟨by decide, by decide, by decide, by decide, by decide, by decide⟩

theorem steals_merge : Steals fragmented.tree 1 [1, 3] [4] fun _ => 4 :=
  ⟨by decide, by decide, by decide, by decide, by decide, by decide⟩

theorem adjustDirFragments_refragged_fragmented :
    (∃ c', fragmented.adjustDirFragmentsSplit 1 1 [4, 5] (fun _ => 5) id steals_split = .ok c' ∧
      c'.bounds 5 = {2} ∧ Refragged (.nearest _ _) fragmented c' [1] [4, 5]) ∧
    ∃ c', fragmented.adjustDirFragmentsMerge 1 [1, 3] 4 steals_merge = .ok c' ∧
      c'.bounds 4 = {2} ∧ Refragged (.nearest _ _) fragmented c' [1, 3] [4] := by
  have hI : Inv fragmented := ⟨by decide, by decide, by decide, by decide, by decide⟩
  obtain ⟨c₁, h₁, hr₁⟩ := (adjustDirFragments_refragged (I := .nearest _ _) hI).1 1 1 [4, 5] _ id
    steals_split
  obtain ⟨c₂, h₂, hr₂⟩ := (adjustDirFragments_refragged (I := .nearest _ _) hI).2 1 [1, 3] 4
    steals_merge (by decide) (.inl ⟨⟨1, cdirAuthUnknown⟩, by decide⟩)
  refine ⟨⟨c₁, h₁, ?_, hr₁⟩, c₂, h₂, ?_, hr₂⟩
  · rw [← Except.ok.inj ((Checked.eq_get (d := fragmented) rfl).symm.trans h₁)]
    decide
  · rw [← Except.ok.inj ((Checked.eq_get (d := fragmented) rfl).symm.trans h₂)]
    decide

end Cache

end CephMds
