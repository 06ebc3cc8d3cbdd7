import CephMds.Framework.Run
import CephMds.Model.TryRebalance

/-!
# What `find_exports` chooses

`Adds` is what a search adds to a selection: dirfrags of which none is above
another, below those that were given to it, and not below what is noted in
`already_exporting`. What each way to take a dirfrag keeps, `find_exports` keeps
(`findExports_invariant`). A search below a dirfrag ends, and what it chooses
can be exported and is disjoint (`findExports_selects`).
-/

namespace CephMds.Rebalance

open DirFrags Rebalancing

variable {α : Type} [DecidableEq α] {T : DirFrags α} {cfg : Config} {c c' d e x y : α} {l : List α} {amount need : ℚ}

/-! ## The dirfrags -/

namespace DirFrags

/-- `x` is `d` or below it, through dirfrags of which this rank is the authority. -/
def Below (T : DirFrags α) (d x : α) : Prop :=
  Relation.ReflTransGen (fun p c => c ∈ T.children p ∧ T.isAuth c = true) d x

/-- `x` is above `y`, in the same subtree. -/
def Within (T : DirFrags α) (x y : α) : Prop :=
  Relation.TransGen (fun p c => c ∈ T.children p ∧ T.isSubtreeRoot c = false) x y

/-- `x` is above `y`. -/
def Ancestor (T : DirFrags α) (x y : α) : Prop := Relation.TransGen (fun p c => c ∈ T.children p) x y

/-- Neither is below the other. -/
def Unrelated (T : DirFrags α) (x y : α) : Prop := ¬T.Below x y ∧ ¬T.Below y x

omit [DecidableEq α]

theorem Below.refl (d : α) : T.Below d d := Relation.ReflTransGen.refl

theorem Below.trans (h : T.Below d e) (h' : T.Below e x) : T.Below d x := Relation.ReflTransGen.trans h h'

theorem Below.height (h : T.Below d x) : x = d ∨ T.height x < T.height d := by
  induction h with
  | refl => exact .inl rfl
  | tail _ h ih =>
    have := T.height_lt h.1
    rcases ih with rfl | ih
    · exact .inr this
    · exact .inr (this.trans ih)

theorem Below.antisymm (h : T.Below d x) (h' : T.Below x d) : d = x := by
  rcases h.height with rfl | h
  · rfl
  · rcases h'.height with rfl | h'
    · rfl
    · omega

/-- Two dirfrags above a third. -/
theorem Below.total (h : T.Below d x) (h' : T.Below e x) : T.Below d e ∨ T.Below e d := by
  induction h with
  | refl => exact .inr h'
  | tail h hs ih =>
    rcases Relation.ReflTransGen.cases_tail h' with rfl | ⟨z, h', hz⟩
    · exact .inl (.tail h hs)
    · rw [T.parent_unique hz.1 hs.1] at h'
      exact ih h'

theorem Ancestor.height (h : T.Ancestor x y) : T.height y < T.height x := by
  induction h with
  | single h => exact T.height_lt h
  | tail _ h ih => exact (T.height_lt h).trans ih

/-- Two dirfrags above a third. -/
theorem Ancestor.total (h : T.Ancestor d y) (h' : T.Ancestor e y) : d = e ∨ T.Ancestor d e ∨ T.Ancestor e d := by
  induction h with
  | single h =>
    cases h' with
    | single h' => exact .inl (T.parent_unique h h')
    | tail h' hz => exact .inr (.inr (T.parent_unique hz h ▸ h'))
  | tail h hw ih =>
    cases h' with
    | single h' => exact .inr (.inl (T.parent_unique hw h' ▸ h))
    | tail h' hz =>
      rw [T.parent_unique hz hw] at h'
      exact ih h'

/-- Of two dirfrags below a third, the upper one reaches the lower one as the third does. -/
theorem Ancestor.below (h : T.Ancestor x y) (hx : T.Below d x) (hy : T.Below d y) : T.Below x y := by
  induction hy with
  | refl =>
    have := h.height
    rcases hx.height with rfl | hx
    · exact .refl _
    · omega
  | @tail z w hz hs ih =>
    cases h with
    | single h =>
      rw [T.parent_unique h hs.1]
      exact .single hs
    | tail h hw =>
      rw [T.parent_unique hw hs.1] at h
      exact (ih h).tail hs

theorem Unrelated.symm (h : T.Unrelated x y) : T.Unrelated y x := ⟨h.2, h.1⟩

instance symm_unrelated : Std.Symm T.Unrelated := ⟨fun _ _ h => h.symm⟩

theorem Unrelated.below (h : T.Unrelated d e) (hd : T.Below d x) (he : T.Below e y) : T.Unrelated x y := by
  constructor
  · intro hxy
    exact ((hd.trans hxy).total he).elim h.1 h.2
  · intro hyx
    exact ((he.trans hyx).total hd).elim h.2 h.1

/-- Two subdirectories of one. -/
theorem unrelated_children (hc : c ∈ T.children d) (hc' : c' ∈ T.children d) (hne : c ≠ c') : T.Unrelated c c' := by
  have hno : ∀ {c c'}, c ∈ T.children d → c' ∈ T.children d → c ≠ c' → ¬T.Below c c' := by
    intro c c' hc hc' hne h
    rcases Relation.ReflTransGen.cases_tail h with rfl | ⟨z, h, hz⟩
    · exact hne rfl
    · rw [T.parent_unique hz.1 hc'] at h
      have := T.height_lt hc
      rcases Below.height h with rfl | h
      · omega
      · omega
  exact ⟨hno hc hc' hne, hno hc' hc hne.symm⟩

theorem Within.below (hx : T.isAuth x = true) (h : T.Within x y) : T.Below x y ∧ T.isAuth y = true := by
  induction h with
  | single h =>
    have := T.auth_child hx h.1 h.2
    exact ⟨.single ⟨h.1, this⟩, this⟩
  | tail _ h ih =>
    have := T.auth_child ih.2 h.1 h.2
    exact ⟨.tail ih.1 ⟨h.1, this⟩, this⟩

/-- What is above a dirfrag of a subtree, in the same subtree, is not above its root. -/
theorem Within.above (hd : T.isSubtreeRoot d = true) (h : T.Within x y) (hy : T.Below d y) : T.Below d x := by
  induction h with
  | single h =>
    rcases Relation.ReflTransGen.cases_tail hy with rfl | ⟨z, hy, hz⟩
    · exact absurd hd (by simp [h.2])
    · rw [T.parent_unique hz.1 h.1] at hy
      exact hy
  | tail _ h ih =>
    rcases Relation.ReflTransGen.cases_tail hy with rfl | ⟨z, hy, hz⟩
    · exact absurd hd (by simp [h.2])
    · rw [T.parent_unique hz.1 h.1] at hy
      exact ih hy

theorem not_within_root (hd : T.isSubtreeRoot d = true) : ¬T.Within x d := by
  intro h
  cases h with
  | single h => exact absurd hd (by simp [h.2])
  | tail _ h => exact absurd hd (by simp [h.2])

end DirFrags

/-! ## What a search adds -/

/-- The dirfrag can be chosen for a need of at most the amount. -/
def Admits (T : DirFrags α) (cfg : Config) (amount : ℚ) (x : α) : Prop :=
  ∃ need ≤ amount, T.pop x ≤ need ∨ T.pop x < need * cfg.needMax

/-- From `s` to `s'`, `new` is exported, below the dirfrags of `C`. -/
structure Adds (T : DirFrags α) (cfg : Config) (amount : ℚ) (C : α → Prop) (s s' : Selection α) (new : List α) :
    Prop where
  exports : s'.exports = s.exports ++ new
  haveLoad : s.haveLoad ≤ s'.haveLoad
  already {x : α} : x ∈ s.alreadyExporting → x ∈ s'.alreadyExporting
  noted {x : α} : x ∈ s'.alreadyExporting → x ∈ s.alreadyExporting ∨ x ∈ new
  unrelated : new.Pairwise T.Unrelated
  below {y : α} : y ∈ new → ∃ c, C c ∧ T.Below c y
  unnoted {y : α} : y ∈ new → y ∉ s.alreadyExporting
  avoids {x y : α} : x ∈ s.alreadyExporting → ¬C x → (∃ c, C c ∧ T.Below c x) → y ∈ new → ¬T.Below x y
  admits {y : α} : y ∈ new → Admits T cfg amount y ∧ T.isAuth y = true ∧ T.isFrozen y = false

variable {s s' s'' : Selection α} {C C' : α → Prop} {new new' : List α}

namespace Adds

omit [DecidableEq α]

theorem refl (s : Selection α) : Adds T cfg amount C s s [] := by
  refine ⟨(List.append_nil _).symm, le_rfl, id, .inl, .nil, fun h => ?_, fun h => ?_, fun _ _ _ h => ?_, fun h => ?_⟩
  · cases h
  · cases h
  · cases h
  · cases h

/-- Two searches of different dirfrags. -/
theorem trans (h : Adds T cfg amount C s s' new) (h' : Adds T cfg amount C' s' s'' new')
    (hC : ∀ c c', C c → C' c' → T.Unrelated c c') :
    Adds T cfg amount (fun c => C c ∨ C' c) s s'' (new ++ new') := by
  refine ⟨by rw [h'.exports, h.exports, List.append_assoc], h.haveLoad.trans h'.haveLoad, fun hx => h'.already (h.already hx),
    fun hx => ?_, ?_, fun hy => ?_, fun hy => ?_, fun hx hx' hc hy => ?_, fun hy => ?_⟩
  · rcases h'.noted hx with hx | hx
    · exact (h.noted hx).imp_right (List.mem_append_left _)
    · exact .inr (List.mem_append_right _ hx)
  · refine List.pairwise_append.mpr ⟨h.unrelated, h'.unrelated, fun x hx y hy => ?_⟩
    obtain ⟨c, hc, hcx⟩ := h.below hx
    obtain ⟨c', hc', hcy⟩ := h'.below hy
    exact (hC c c' hc hc').below hcx hcy
  · rcases List.mem_append.mp hy with hy | hy
    · obtain ⟨c, hc, hcy⟩ := h.below hy
      exact ⟨c, .inl hc, hcy⟩
    · obtain ⟨c, hc, hcy⟩ := h'.below hy
      exact ⟨c, .inr hc, hcy⟩
  · rcases List.mem_append.mp hy with hy | hy
    · exact h.unnoted hy
    · exact fun hn => h'.unnoted hy (h.already hn)
  · rw [not_or] at hx'
    obtain ⟨c, hc, hcx⟩ := hc
    rcases List.mem_append.mp hy with hy | hy
    · rcases hc with hc | hc
      · exact h.avoids hx hx'.1 ⟨c, hc, hcx⟩ hy
      · obtain ⟨e, he, hey⟩ := h.below hy
        exact ((hC e c he hc).symm.below hcx hey).1
    · rcases hc with hc | hc
      · obtain ⟨e, he, hey⟩ := h'.below hy
        exact ((hC c e hc he).below hcx hey).1
      · exact h'.avoids (h.already hx) hx'.2 ⟨c, hc, hcx⟩ hy
  · rcases List.mem_append.mp hy with hy | hy
    · exact h.admits hy
    · exact h'.admits hy

/-- A search of more dirfrags than those in which something was found. -/
theorem mono (h : Adds T cfg amount C s s' new) (hC : ∀ c, C c → C' c)
    (hu : ∀ c c', C c → C' c' → c = c' ∨ T.Unrelated c c') : Adds T cfg amount C' s s' new := by
  refine ⟨h.exports, h.haveLoad, h.already, h.noted, h.unrelated, fun hy => ?_, h.unnoted, fun hx hx' hc hy => ?_, h.admits⟩
  · obtain ⟨c, hc, hcy⟩ := h.below hy
    exact ⟨c, hC c hc, hcy⟩
  · obtain ⟨c', hc', hcx⟩ := hc
    obtain ⟨c, hc, hcy⟩ := h.below hy
    rcases hu c c' hc hc' with rfl | hu
    · exact h.avoids hx (fun hCx => hx' (hC _ hCx)) ⟨c, hc, hcx⟩ hy
    · exact (hu.symm.below hcx hcy).1

/-- What was not noted before, and is unrelated to what is searched, is not noted after. -/
theorem not_noted (h : Adds T cfg amount C s s' new) (hd : d ∉ s.alreadyExporting) (hC : ∀ c, C c → T.Unrelated c d) :
    d ∉ s'.alreadyExporting := by
  intro hx
  rcases h.noted hx with hx | hx
  · exact hd hx
  · obtain ⟨c, hc, hcd⟩ := h.below hx
    exact (hC c hc).1 hcd

/-- A search of the subdirectories is one of the directory. -/
theorem lift (h : Adds T cfg amount C s s' new)
    (hC : ∀ c, C c → c ∈ T.children d ∧ T.isAuth c = true ∧ c ∉ s.alreadyExporting) :
    Adds T cfg amount (fun c => c = d) s s' new := by
  have hstep : ∀ {c}, C c → c ∈ T.children d ∧ T.isAuth c = true := fun hc => ⟨(hC _ hc).1, (hC _ hc).2.1⟩
  refine ⟨h.exports, h.haveLoad, h.already, h.noted, h.unrelated, fun hy => ?_, h.unnoted, fun hx hxd hc hy => ?_, h.admits⟩
  · obtain ⟨c, hc, hcy⟩ := h.below hy
    exact ⟨d, rfl, .head (hstep hc) hcy⟩
  · obtain ⟨_, rfl, hdx⟩ := hc
    obtain ⟨c, hc, hcy⟩ := h.below hy
    rcases Relation.ReflTransGen.cases_head hdx with rfl | ⟨z, hz, hzx⟩
    · exact absurd rfl hxd
    · by_cases hzc : z = c
      · exact h.avoids hx (fun hCx => (hC _ hCx).2.2 hx) ⟨c, hc, hzc ▸ hzx⟩ hy
      · exact ((unrelated_children hz.1 (hstep hc).1 hzc).below hzx hcy).1

end Adds

/-! ## The loops -/

omit [DecidableEq α] in
/-- A loop over unrelated dirfrags, of which those of `D` are skipped. -/
theorem untilEnough_adds {P : Selection α → Prop} {D : α → Prop} {enough : ℚ} {f : α → Selection α → Selection α}
    (hl : l.Pairwise T.Unrelated)
    (hP : ∀ {C : α → Prop} {s s' : Selection α} {new}, P s → Adds T cfg amount C s s' new → P s')
    (hskip : ∀ c ∈ l, D c → ∀ s, P s → f c s = s)
    (hf : ∀ c ∈ l, ¬D c → ∀ s, P s → c ∉ s.alreadyExporting → ∃ new, Adds T cfg amount (fun x => x = c) s (f c s) new)
    (hs : P s) (hfresh : ∀ c ∈ l, ¬D c → c ∉ s.alreadyExporting) :
    ∃ new, Adds T cfg amount (fun x => x ∈ l ∧ ¬D x) s (untilEnough enough f l s).1 new := by
  induction l generalizing s with
  | nil => exact ⟨[], .refl s⟩
  | cons d ds ih =>
    obtain ⟨hd, hds⟩ := List.pairwise_cons.mp hl
    have ih := fun {s} (hs : P s) => ih hds (fun c hc => hskip c (List.mem_cons_of_mem _ hc))
      (fun c hc => hf c (List.mem_cons_of_mem _ hc)) hs
    have hu : ∀ c c', c ∈ d :: ds → c' ∈ d :: ds → c = c' ∨ T.Unrelated c c' := by
      intro c c' hc hc'
      by_cases he : c = c'
      · exact .inl he
      · exact .inr (hl.forall hc hc' he)
    unfold untilEnough
    by_cases hD : D d
    · rw [hskip d List.mem_cons_self hD s hs]
      have hfresh := fun c hc => hfresh c (List.mem_cons_of_mem _ hc)
      split
      · exact ⟨[], .refl s⟩
      · obtain ⟨new, h⟩ := ih hs hfresh
        exact ⟨new, h.mono (fun c hc => ⟨List.mem_cons_of_mem _ hc.1, hc.2⟩)
          fun c c' hc hc' => hu c c' (List.mem_cons_of_mem _ hc.1) hc'.1⟩
    · obtain ⟨new, h⟩ := hf d List.mem_cons_self hD s hs (hfresh d List.mem_cons_self hD)
      split
      · refine ⟨new, h.mono (fun c hc => ?_) fun c c' hc hc' => ?_⟩
        · rw [hc]
          exact ⟨List.mem_cons_self, hD⟩
        · rw [hc]
          exact hu d c' List.mem_cons_self hc'.1
      · obtain ⟨new', h'⟩ := ih (hP hs h) fun c hc hDc =>
          h.not_noted (hfresh c (List.mem_cons_of_mem _ hc) hDc) fun e he => he ▸ hd c hc
        refine ⟨new ++ new', (h.trans h' fun c c' hc hc' => hc ▸ hd c' hc'.1).mono (fun c hc => ?_) fun c c' hc hc' => ?_⟩
        · rcases hc with rfl | hc
          · exact ⟨List.mem_cons_self, hD⟩
          · exact ⟨List.mem_cons_of_mem _ hc.1, hc.2⟩
        · rcases hc with rfl | hc
          · exact hu _ c' List.mem_cons_self hc'.1
          · exact hu c c' (List.mem_cons_of_mem _ hc.1) hc'.1

omit [DecidableEq α] in
theorem take_adds (hd : d ∉ s.alreadyExporting) (ha : Admits T cfg amount d)
    (hA : T.isAuth d = true ∧ T.isFrozen d = false) : Adds T cfg amount (fun x => x = d) s (T.take d s) [d] := by
  refine ⟨rfl, ?_, List.mem_cons_of_mem _, fun hx => ?_, List.pairwise_singleton _ _, fun hy => ?_, fun hy => ?_,
    fun hx hxd hc hy => ?_, fun hy => ?_⟩
  · exact le_add_of_nonneg_right (T.pop_nonneg d)
  · exact (List.mem_cons.mp hx).symm.imp_right List.mem_singleton.mpr
  · rw [List.mem_singleton.mp hy]
    exact ⟨d, rfl, .refl d⟩
  · rw [List.mem_singleton.mp hy]
    exact hd
  · obtain ⟨_, rfl, hdx⟩ := hc
    rw [List.mem_singleton.mp hy]
    exact fun hb => hxd (hb.antisymm hdx)
  · rw [List.mem_singleton.mp hy]
    exact ⟨ha, hA⟩

omit [DecidableEq α] in
theorem push_adds (hd : d ∉ s.alreadyExporting) (ha : Admits T cfg amount d)
    (hA : T.isAuth d = true ∧ T.isFrozen d = false) : Adds T cfg amount (fun x => x = d) s (T.push d s) [d] := by
  have h := take_adds hd ha hA
  exact ⟨h.exports, h.haveLoad, id, .inl, h.unrelated, h.below, h.unnoted, h.avoids, h.admits⟩

omit [DecidableEq α] in
/-- All of the dirfrags are exported. -/
theorem foldl_adds {f : α → Selection α → Selection α} (hl : l.Pairwise T.Unrelated)
    (hfresh : ∀ c ∈ l, c ∉ s.alreadyExporting)
    (hf : ∀ c ∈ l, ∀ s, c ∉ s.alreadyExporting → Adds T cfg amount (fun x => x = c) s (f c s) [c]) :
    Adds T cfg amount (fun x => x ∈ l) s (l.foldl (fun s d => f d s) s) l := by
  induction l generalizing s with
  | nil => exact .refl s
  | cons d ds ih =>
    obtain ⟨hd, hds⟩ := List.pairwise_cons.mp hl
    have h := hf d List.mem_cons_self s (hfresh d List.mem_cons_self)
    have h' := ih hds (fun c hc => h.not_noted (hfresh c (List.mem_cons_of_mem _ hc)) fun e he => he ▸ hd c hc)
      fun c hc => hf c (List.mem_cons_of_mem _ hc)
    refine (h.trans h' fun c c' hc hc' => hc ▸ hd c' hc').mono (fun c hc => List.mem_cons.mpr hc) fun c c' hc hc' => ?_
    by_cases he : c = c'
    · exact .inl he
    · exact .inr (hl.forall (List.mem_cons.mpr hc) hc' he)

/-- The hook returns distinct valid indices. -/
def Valid (cfg : Config) : Prop :=
  ∀ hook, cfg.howmuch = some hook → ∀ amount pops, (hook amount pops).Nodup ∧ ∀ k ∈ hook amount pops, k < pops.length

omit [DecidableEq α] in
/-- The hook takes dirfrags out of the list, each once. -/
theorem luahook_eq {hook : ℚ → List ℚ → List ℕ} {a : ℚ} (hv : (hook a (l.map T.pop)).Nodup) (hnd : l.Nodup)
    (s : Selection α) : ∃ new : List α, (∀ c ∈ new, c ∈ l) ∧ new.Nodup ∧
      T.fragmentSelectorLuahook hook l a s = new.foldl (fun s d => T.take d s) s := by
  unfold fragmentSelectorLuahook
  split
  · refine ⟨[], fun c hc => ?_, .nil, rfl⟩
    cases hc
  -- the dirfrags at the indices, in the order of the hook
  have hfold : ∀ (ks : List ℕ) (s : Selection α), ks.foldl (fun s k => l[k]?.elim s fun d => T.take d s) s =
      (ks.filterMap fun k => l[k]?).foldl (fun s d => T.take d s) s := by
    intro ks
    induction ks with
    | nil => exact fun s => rfl
    | cons k ks ih =>
      intro s
      rw [List.foldl_cons, ih, List.filterMap_cons]
      cases l[k]? <;> rfl
  refine ⟨(hook a (l.map T.pop)).filterMap fun k => l[k]?, fun c hc => ?_, ?_, hfold _ s⟩
  · obtain ⟨k, -, hk⟩ := List.mem_filterMap.mp hc
    exact List.mem_of_getElem? hk
  · refine hv.filterMap fun j k c hj hk => ?_
    have hj : l[j]? = some c := hj
    have hk : l[k]? = some c := hk
    exact (List.getElem?_inj (List.getElem?_eq_some_iff.mp hj).1 hnd).mp (hj.trans hk.symm)

/-! ## `find_exports` -/

section FindExports

omit [DecidableEq α] in
theorem mem_byPop : c ∈ T.byPop l ↔ c ∈ l := by
  simp [byPop]

omit [DecidableEq α] in
theorem nodup_byPop : (T.byPop l).Nodup ↔ l.Nodup := by
  rw [byPop, List.nodup_reverse]
  exact (List.perm_insertionSort _ _).nodup_iff

omit [DecidableEq α] in
theorem pairwise_unrelated (hnd : l.Nodup) (hm : ∀ c ∈ l, c ∈ T.children d) : l.Pairwise T.Unrelated :=
  hnd.imp_of_mem fun hc hc' hne => unrelated_children (hm _ hc) (hm _ hc') hne

/-- The dirfrags have not been noted, and there is a load of at least `least`. -/
def Fresh (least : ℚ) (l : List α) (s : Selection α) : Prop := least ≤ s.haveLoad ∧ ∀ c ∈ l, c ∉ s.alreadyExporting

variable {least bound : ℚ}

omit [DecidableEq α] in
theorem Adds.fresh (h : Adds T cfg bound C s s' new) (hl : Fresh least l s)
    (hC : ∀ c c', C c → c' ∈ l → T.Unrelated c c') : Fresh least l s' :=
  ⟨hl.1.trans h.haveLoad, fun c hc => h.not_noted (hl.2 c hc) fun e he => hC e c he hc⟩

omit [DecidableEq α] in
/-- The next of the loops, over other dirfrags. -/
theorem andThen_adds {r : Selection α × Bool} {f : Selection α → Selection α × Bool} (h : ∃ new, Adds T cfg bound C s r.1 new)
    (hl : Fresh least l s) (hC : ∀ c c', C c → c' ∈ l → T.Unrelated c c')
    (hf : ∀ s, Fresh least l s → ∃ new, Adds T cfg bound (fun x => x ∈ l) s (f s).1 new) :
    ∃ new, Adds T cfg bound (fun x => C x ∨ x ∈ l) s (andThen r f).1 new := by
  obtain ⟨new, h⟩ := h
  unfold andThen
  split
  · exact ⟨_, h.trans (.refl _) hC⟩
  · obtain ⟨new', h'⟩ := hf r.1 (h.fresh hl hC)
    exact ⟨_, h.trans h' hC⟩

omit [DecidableEq α] in
/-- A loop over unrelated dirfrags that skips none. -/
theorem untilEnough_all {enough : ℚ} {f : α → Selection α → Selection α} (hl : l.Pairwise T.Unrelated)
    (hf : ∀ c ∈ l, ∀ s, least ≤ s.haveLoad → c ∉ s.alreadyExporting →
      ∃ new, Adds T cfg bound (fun x => x = c) s (f c s) new) (hs : Fresh least l s) :
    ∃ new, Adds T cfg bound (fun x => x ∈ l) s (untilEnough enough f l s).1 new := by
  have : ∃ new, Adds T cfg bound (fun x => x ∈ l ∧ ¬False) s (untilEnough enough f l s).1 new :=
    untilEnough_adds (P := fun s => least ≤ s.haveLoad) (D := fun _ => False) hl (fun hs h => hs.trans h.haveLoad) (fun _ _ hD => hD.elim)
      (fun c hc _ => hf c hc) hs.1 fun c hc _ => hs.2 c hc
  simpa only [not_false_eq_true, and_true] using this

/-- The smaller dirfrags that are chosen first, and those that are left for later. -/
def firstSmaller (T : DirFrags α) (cfg : Config) (need : ℚ) (smaller : List α) : List α :=
  if cfg.howmuch.isSome then smaller else smaller.takeWhile fun c => ¬T.pop c < need * cfg.midchunk

def muchSmaller (T : DirFrags α) (cfg : Config) (need : ℚ) (smaller : List α) : List α :=
  if cfg.howmuch.isSome then [] else smaller.dropWhile fun c => ¬T.pop c < need * cfg.midchunk

omit [DecidableEq α] in
theorem first_append_much : firstSmaller T cfg need l ++ muchSmaller T cfg need l = l := by
  unfold firstSmaller muchSmaller
  split
  · exact List.append_nil l
  · exact List.takeWhile_append_dropWhile

/-- Dirfrags that may be taken: subdirectories of one, and not too big. -/
structure Small (T : DirFrags α) (cfg : Config) (bound : ℚ) (d : α) (l : List α) : Prop where
  nodup : l.Nodup
  child : ∀ c ∈ l, c ∈ T.children d
  admits : ∀ c ∈ l, Admits T cfg bound c ∧ T.isAuth c = true ∧ T.isFrozen c = false

theorem takeSmaller_adds (hv : Valid cfg) (hl : Small T cfg bound d l)
    (hs : Fresh least (firstSmaller T cfg need l) s) :
    ∃ new, Adds T cfg bound (fun x => x ∈ firstSmaller T cfg need l) s (T.takeSmaller cfg amount need l s).1 new := by
  unfold takeSmaller
  cases hh : cfg.howmuch with
  | some hook =>
    have he : firstSmaller T cfg need l = l := by simp [firstSmaller, hh]
    rw [he] at hs ⊢
    obtain ⟨new, hnew, hnd, hrun⟩ := luahook_eq (T := T) (hv hook hh amount _).1 hl.nodup s
    simp only [hrun]
    have h := foldl_adds (pairwise_unrelated hnd fun c hc => hl.child c (hnew c hc)) (fun c hc => hs.2 c (hnew c hc))
      fun c hc s hn => take_adds hn (hl.admits c (hnew c hc)).1 (hl.admits c (hnew c hc)).2
    refine ⟨new, h.mono hnew fun c c' hc hc' => ?_⟩
    by_cases he : c = c'
    · exact .inl he
    · exact .inr (unrelated_children (hl.child c (hnew c hc)) (hl.child c' hc') he)
  | none =>
    have he : firstSmaller T cfg need l = l.takeWhile fun c => ¬T.pop c < need * cfg.midchunk := by simp [firstSmaller, hh]
    rw [he] at hs ⊢
    have hsub : ∀ c ∈ l.takeWhile fun c => ¬T.pop c < need * cfg.midchunk, c ∈ l := fun c hc =>
      (List.takeWhile_sublist _).subset hc
    refine untilEnough_all (pairwise_unrelated (hl.nodup.sublist (List.takeWhile_sublist _)) fun c hc => hl.child c (hsub c hc))
      (fun c hc s _ hn => ⟨_, take_adds hn (hl.admits c (hsub c hc)).1 (hl.admits c (hsub c hc)).2⟩) hs

omit [DecidableEq α] in
theorem takeMuchSmaller_adds (hl : Small T cfg bound d l) (hs : Fresh least (muchSmaller T cfg need l) s) :
    ∃ new, Adds T cfg bound (fun x => x ∈ muchSmaller T cfg need l) s (T.takeMuchSmaller cfg need l s).1 new := by
  unfold takeMuchSmaller muchSmaller at *
  split at hs
  · rename_i hh
    simp only [hh, if_true]
    exact ⟨[], .refl s⟩
  · rename_i hh
    simp only [hh]
    have hsub : ∀ c ∈ l.dropWhile fun c => ¬T.pop c < need * cfg.midchunk, c ∈ l := fun c hc =>
      (List.dropWhile_sublist _).subset hc
    refine untilEnough_all (pairwise_unrelated (hl.nodup.sublist (List.dropWhile_sublist _)) fun c hc => hl.child c (hsub c hc))
      (fun c hc s _ hn => ⟨_, take_adds hn (hl.admits c (hsub c hc)).1 (hl.admits c (hsub c hc)).2⟩) hs

/-- What is chosen is below the dirfrag, and admitted by a bound on what is needed. -/
theorem findExports_adds (hv : Valid cfg) (h : ℕ) (hs : amount - bound ≤ s.haveLoad) :
    ∃ new, Adds T cfg bound (fun x => x = d) s (T.findExports cfg amount h d s) new := by
  induction h generalizing d s with
  | zero => exact ⟨[], .refl s⟩
  | succ h ih =>
    obtain ⟨need, hneed⟩ : ∃ need, need = amount - s.haveLoad := ⟨_, rfl⟩
    have hle : need ≤ bound := by rw [hneed]; linarith
    have hsub : ∀ c ∈ T.subdirs cfg d need s, c ∈ T.children d ∧ (T.isAuth c = true ∧ T.isFrozen c = false) ∧
        c ∉ s.alreadyExporting := by
      intro c hc
      simp only [subdirs, List.mem_filter, Bool.and_eq_true, decide_eq_true_eq, Bool.not_eq_true'] at hc
      exact ⟨hc.1, ⟨hc.2.1.1.1, hc.2.1.2⟩, hc.2.1.1.2⟩
    have hnd : (T.subdirs cfg d need s).Nodup := (T.nodup_children d).filter _
    unfold findExports
    simp only [← hneed]
    split
    · exact ⟨[], .refl s⟩
    split
    · rename_i c hc
      obtain ⟨hch, hA, hn⟩ := hsub c (List.mem_of_find?_eq_some hc)
      have hlucky := List.find?_some hc
      simp only [lucky, decide_eq_true_eq] at hlucky
      refine ⟨[c], (take_adds hn ⟨need, hle, .inr hlucky.2⟩ hA).lift fun e he => ?_⟩
      rw [he]
      exact ⟨hch, hA.1, hn⟩
    · -- the smaller ones, and the bigger ones of either kind, are different subdirectories
      have hmem : ∀ c, c ∈ T.byPop ((T.subdirs cfg d need s).filter fun c => ¬need < T.pop c) →
          c ∈ T.subdirs cfg d need s ∧ ¬need < T.pop c := by
        intro c hc
        simpa using mem_byPop.mp hc
      have hsm : Small T cfg bound d (T.byPop ((T.subdirs cfg d need s).filter fun c => ¬need < T.pop c)) :=
        ⟨nodup_byPop.mpr (hnd.filter _), fun c hc => (hsub c (hmem c hc).1).1, fun c hc =>
          ⟨⟨need, hle, .inl (not_lt.mp (hmem c hc).2)⟩, (hsub c (hmem c hc).1).2.1⟩⟩
      generalize hS : T.byPop ((T.subdirs cfg d need s).filter fun c => ¬need < T.pop c) = S at hmem hsm ⊢
      have hbig : ∀ c, c ∈ (T.subdirs cfg d need s).filter (fun c => need < T.pop c) →
          c ∈ T.subdirs cfg d need s ∧ need < T.pop c := by
        intro c hc
        simpa using hc
      have hbnd : ((T.subdirs cfg d need s).filter fun c => need < T.pop c).Nodup := hnd.filter _
      generalize (T.subdirs cfg d need s).filter (fun c => need < T.pop c) = B at hbig hbnd ⊢
      have happ : firstSmaller T cfg need S ++ muchSmaller T cfg need S = S := first_append_much
      have hfirst : ∀ c ∈ firstSmaller T cfg need S, c ∈ S := fun c hc => by
        rw [← happ]
        exact List.mem_append_left _ hc
      have hmuch : ∀ c ∈ muchSmaller T cfg need S, c ∈ S := fun c hc => by
        rw [← happ]
        exact List.mem_append_right _ hc
      have hne : ∀ c c', c ∈ S → c' ∈ B → T.Unrelated c c' := fun c c' hc hc' =>
        unrelated_children (hsub c (hmem c hc).1).1 (hsub c' (hbig c' hc').1).1 fun he =>
          (hmem c hc).2 (he ▸ (hbig c' hc').2)
      have hS₂ : ∀ c c', c ∈ firstSmaller T cfg need S → c' ∈ muchSmaller T cfg need S → T.Unrelated c c' := by
        intro c c' hc hc'
        refine unrelated_children (hsm.child c (hfirst c hc)) (hsm.child c' (hmuch c' hc')) ?_
        have := hsm.nodup
        rw [← happ] at this
        exact (List.nodup_append.mp this).2.2 c hc c' hc'
      have hB₂ : ∀ c c', c ∈ B.filter (fun c => !T.isRep c) → c' ∈ B.filter T.isRep → T.Unrelated c c' := by
        intro c c' hc hc'
        rw [List.mem_filter] at hc hc'
        refine unrelated_children (hsub c (hbig c hc.1).1).1 (hsub c' (hbig c' hc'.1).1).1 ?_
        rintro rfl
        rw [hc'.2] at hc
        cases hc.2
      have hfresh : ∀ l : List α, (∀ c ∈ l, c ∈ T.subdirs cfg d need s) → Fresh (amount - bound) l s := fun l hl =>
        ⟨hs, fun c hc => (hsub c (hl c hc)).2.2⟩
      have hdescend : ∀ (l : List α) (_ : l.Nodup) (_ : ∀ c ∈ l, c ∈ B) (s : Selection α), Fresh (amount - bound) l s →
          ∃ new, Adds T cfg bound (fun x => x ∈ l) s
            (untilEnough (need * cfg.needMin) (T.findExports cfg amount h) l s).1 new := fun l hl hlB s hs =>
        untilEnough_all (pairwise_unrelated hl fun c hc => (hsub c (hbig c (hlB c hc)).1).1)
          (fun c _ s hs _ => ih hs) hs
      have hB₁ : ∀ c ∈ B.filter (fun c => !T.isRep c), c ∈ B := fun c hc => (List.mem_filter.mp hc).1
      have hB₃ : ∀ c ∈ B.filter T.isRep, c ∈ B := fun c hc => (List.mem_filter.mp hc).1
      obtain ⟨new, hnew⟩ := andThen_adds
        (andThen_adds
          (andThen_adds
            (takeSmaller_adds hv hsm (hfresh (firstSmaller T cfg need S) fun c hc => (hmem c (hfirst c hc)).1))
            (hfresh _ fun c hc => (hbig c (hB₁ c hc)).1)
            (fun c c' hc hc' => hne c c' (hfirst c hc) (hB₁ c' hc'))
            (hdescend _ (hbnd.filter _) hB₁))
          (hfresh _ fun c hc => (hmem c (hmuch c hc)).1)
          (fun c c' hc hc' => hc.elim (fun hc => hS₂ c c' hc hc') fun hc => (hne c' c (hmuch c' hc') (hB₁ c hc)).symm)
          (fun s hs => takeMuchSmaller_adds hsm hs))
        (hfresh _ fun c hc => (hbig c (hB₃ c hc)).1)
        (fun c c' hc hc' => hc.elim (fun hc => hc.elim (fun hc => hne c c' (hfirst c hc) (hB₃ c' hc'))
          fun hc => hB₂ c c' hc hc') fun hc => hne c c' (hmuch c hc) (hB₃ c' hc'))
        (hdescend _ (hbnd.filter _) hB₃)
      refine ⟨new, hnew.lift fun c hc => ?_⟩
      have hc : c ∈ T.subdirs cfg d need s := by
        rcases hc with ((hc | hc) | hc) | hc
        · exact (hmem c (hfirst c hc)).1
        · exact (hbig c (hB₁ c hc)).1
        · exact (hmem c (hmuch c hc)).1
        · exact (hbig c (hB₃ c hc)).1
      exact ⟨(hsub c hc).1, (hsub c hc).2.1.1, (hsub c hc).2.2⟩

omit [DecidableEq α] in
theorem untilEnough_congr {enough : ℚ} {f g : α → Selection α → Selection α} (h : ∀ c ∈ l, ∀ s, f c s = g c s) :
    untilEnough enough f l s = untilEnough enough g l s := by
  induction l generalizing s with
  | nil => rfl
  | cons d ds ih =>
    unfold untilEnough
    rw [h d List.mem_cons_self]
    split
    · rfl
    · exact ih fun c hc => h c (List.mem_cons_of_mem _ hc)

/-- The height of the dirfrag is enough for all that is below it. -/
theorem findExports_height {h h' : ℕ} (hh : T.height d < h) (hh' : T.height d < h') :
    T.findExports cfg amount h d s = T.findExports cfg amount h' d s := by
  induction h generalizing d s h' with
  | zero => omega
  | succ h ih =>
    cases h' with
    | zero => omega
    | succ h' =>
      have hloop : ∀ {need enough : ℚ} {p q : α → Bool},
          untilEnough enough (T.findExports cfg amount h) (((T.subdirs cfg d need s).filter p).filter q) =
            untilEnough enough (T.findExports cfg amount h') (((T.subdirs cfg d need s).filter p).filter q) := by
        intro need enough p q
        refine funext fun s₀ => untilEnough_congr fun c hc t => ?_
        have hch : c ∈ T.children d := (List.mem_filter.mp (List.mem_filter.mp (List.mem_filter.mp hc).1).1).1
        have := T.height_lt hch
        exact ih (by omega) (by omega)
      unfold findExports
      simp only [hloop]

/-! ## What every choice keeps -/

variable {P : Selection α → Prop}

omit [DecidableEq α] in
theorem untilEnough_invariant {enough : ℚ} {f : α → Selection α → Selection α} (hf : ∀ c ∈ l, ∀ s, P s → P (f c s))
    (hs : P s) : P (untilEnough enough f l s).1 := by
  induction l generalizing s with
  | nil => exact hs
  | cons d ds ih =>
    unfold untilEnough
    have hd := hf d List.mem_cons_self s hs
    split
    · exact hd
    · exact ih (fun c hc => hf c (List.mem_cons_of_mem d hc)) hd

omit [DecidableEq α] in
theorem andThen_invariant {r : Selection α × Bool} {f : Selection α → Selection α × Bool} (hr : P r.1)
    (hf : ∀ s, P s → P (f s).1) : P (andThen r f).1 := by
  unfold andThen
  split
  · exact hr
  · exact hf r.1 hr

omit [DecidableEq α] in
theorem luahook_invariant {hook : ℚ → List ℚ → List ℕ} (hP : ∀ c ∈ l, ∀ s, P s → P (T.take c s)) (hs : P s) :
    P (T.fragmentSelectorLuahook hook l amount s) := by
  unfold fragmentSelectorLuahook
  split
  · exact hs
  refine List.foldlRecOn (hook amount (l.map T.pop)) _ hs fun s hs k _ => ?_
  cases hk : l[k]? with
  | none => exact hs
  | some c => exact hP c (List.mem_of_getElem? hk) s hs

omit [DecidableEq α] in
theorem takeSmaller_invariant (hP : ∀ c ∈ l, ∀ s, P s → P (T.take c s)) (hs : P s) :
    P (T.takeSmaller cfg amount need l s).1 := by
  unfold takeSmaller
  cases cfg.howmuch with
  | some hook => exact luahook_invariant hP hs
  | none => exact untilEnough_invariant (fun c hc => hP c ((List.takeWhile_sublist _).subset hc)) hs

omit [DecidableEq α] in
theorem takeMuchSmaller_invariant (hP : ∀ c ∈ l, ∀ s, P s → P (T.take c s)) (hs : P s) :
    P (T.takeMuchSmaller cfg need l s).1 := by
  unfold takeMuchSmaller
  split
  · exact hs
  · exact untilEnough_invariant (fun c hc => hP c ((List.dropWhile_sublist _).subset hc)) hs

/-- A dirfrag may be chosen for some need that is not good enough yet and not above `need`. -/
def Fits (T : DirFrags α) (cfg : Config) (amount need : ℚ) (x : α) : Prop :=
  ∃ n, amount * cfg.minStart ≤ n ∧ n ≤ need ∧ n * cfg.minchunk ≤ T.pop x ∧ (T.pop x ≤ n ∨ T.pop x < n * cfg.needMax)

/-- What is kept when a dirfrag below `d` is taken that fits and is not yet
noted, a search below `d` keeps. -/
theorem findExports_takes {bound : ℚ} {noted : List α} (h : ℕ)
    (hP : ∀ c, T.Ancestor d c → Fits T cfg amount (amount - bound) c → T.isAuth c = true → T.isFrozen c = false →
      c ∉ noted → ∀ s, P s → P (T.take c s))
    (hs : P s) (hb : bound ≤ s.haveLoad) (hn : noted ⊆ s.alreadyExporting) : P (T.findExports cfg amount h d s) := by
  -- what is taken adds to `have` and to what is noted
  suffices hall : ∀ h d s, (∀ c, T.Ancestor d c → Fits T cfg amount (amount - bound) c → T.isAuth c = true →
      T.isFrozen c = false → c ∉ noted → ∀ s, P s → P (T.take c s)) →
      P s ∧ bound ≤ s.haveLoad ∧ noted ⊆ s.alreadyExporting →
      P (T.findExports cfg amount h d s) ∧ bound ≤ (T.findExports cfg amount h d s).haveLoad ∧
        noted ⊆ (T.findExports cfg amount h d s).alreadyExporting from (hall h d s hP ⟨hs, hb, hn⟩).1
  intro h
  induction h with
  | zero => exact fun d s _ hs => hs
  | succ h ih =>
    intro d s hP hs
    obtain ⟨need, hneed⟩ : ∃ need, need = amount - s.haveLoad := ⟨_, rfl⟩
    have hle : need ≤ amount - bound := hneed ▸ sub_le_sub_left hs.2.1 amount
    unfold findExports
    dsimp only
    rw [← hneed]
    split
    · exact hs
    rename_i hgood
    have htake : ∀ c ∈ T.subdirs cfg d need s, (T.pop c ≤ need ∨ T.pop c < need * cfg.needMax) →
        ∀ t : Selection α, P t ∧ bound ≤ t.haveLoad ∧ noted ⊆ t.alreadyExporting →
          P (T.take c t) ∧ bound ≤ (T.take c t).haveLoad ∧ noted ⊆ (T.take c t).alreadyExporting := by
      intro c hc hmax t ht
      simp only [subdirs, List.mem_filter, Bool.and_eq_true, decide_eq_true_eq, Bool.not_eq_true', decide_eq_false_iff_not,
        not_lt] at hc
      obtain ⟨hch, ⟨⟨hauth, hnot⟩, hfrozen⟩, hmin⟩ := hc
      refine ⟨hP c (.single hch) ⟨need, not_lt.mp hgood, hle, hmin, hmax⟩ hauth hfrozen (fun hc => hnot (hs.2.2 hc)) t ht.1,
        ht.2.1.trans (le_add_of_nonneg_right (T.pop_nonneg c)), fun x hx => List.mem_cons_of_mem c (ht.2.2 hx)⟩
    split
    · rename_i c hc
      have hlucky := List.find?_some hc
      simp only [lucky, decide_eq_true_eq] at hlucky
      exact htake c (List.mem_of_find?_eq_some hc) (.inr hlucky.2) s hs
    have hsmaller : ∀ c ∈ T.byPop ((T.subdirs cfg d need s).filter fun c => ¬need < T.pop c), ∀ t : Selection α,
        P t ∧ bound ≤ t.haveLoad ∧ noted ⊆ t.alreadyExporting →
          P (T.take c t) ∧ bound ≤ (T.take c t).haveLoad ∧ noted ⊆ (T.take c t).alreadyExporting := by
      intro c hc
      have hc := List.mem_filter.mp (mem_byPop.mp hc)
      exact htake c hc.1 (.inl (by simpa using hc.2))
    have hbigger : ∀ {p q : α → Bool}, ∀ c ∈ ((T.subdirs cfg d need s).filter p).filter q, ∀ t : Selection α,
        P t ∧ bound ≤ t.haveLoad ∧ noted ⊆ t.alreadyExporting →
          P (T.findExports cfg amount h c t) ∧ bound ≤ (T.findExports cfg amount h c t).haveLoad ∧
            noted ⊆ (T.findExports cfg amount h c t).alreadyExporting := by
      intro p q c hc t ht
      have hbelow : T.Ancestor d c := .single (List.mem_filter.mp (List.mem_filter.mp (List.mem_filter.mp hc).1).1).1
      exact ih c t (fun e he => hP e (hbelow.trans he)) ht
    refine andThen_invariant (P := fun t => P t ∧ bound ≤ t.haveLoad ∧ noted ⊆ t.alreadyExporting)
      (andThen_invariant (andThen_invariant (takeSmaller_invariant hsmaller hs) ?_) ?_) ?_
    · exact fun t ht => untilEnough_invariant hbigger ht
    · exact fun t ht => takeMuchSmaller_invariant hsmaller ht
    · exact fun t ht => untilEnough_invariant hbigger ht

/-- What is kept when a dirfrag below `d` is taken, a search below `d` keeps. -/
theorem findExports_invariant (h : ℕ) (hP : ∀ c, T.Ancestor d c → ∀ s, P s → P (T.take c s)) (hs : P s) :
    P (T.findExports cfg amount h d s) :=
  findExports_takes h (fun c hc _ _ _ _ => hP c hc) hs le_rfl (List.Subset.refl _)

/-- From `s` to `s'`, `new` is exported, with its load. -/
structure Exported (T : DirFrags α) (s s' : Selection α) (new : List α) : Prop where
  exports : s'.exports = s.exports ++ new
  haveLoad : s'.haveLoad = s.haveLoad + (new.map T.pop).sum

omit [DecidableEq α] in
theorem Exported.refl (s : Selection α) : Exported T s s [] := ⟨(List.append_nil _).symm, (add_zero _).symm⟩

omit [DecidableEq α] in
theorem Exported.push (c : α) (h : Exported T s s' new) : Exported T s (T.push c s') (new ++ [c]) := by
  refine ⟨?_, ?_⟩
  · show s'.exports ++ [c] = _
    rw [h.exports, List.append_assoc]
  · show s'.haveLoad + T.pop c = _
    rw [h.haveLoad, List.map_append, List.sum_append, List.map_singleton, List.sum_singleton, add_assoc]

omit [DecidableEq α] in
theorem Exported.take (c : α) (h : Exported T s s' new) : Exported T s (T.take c s') (new ++ [c]) :=
  ⟨(h.push c).exports, (h.push c).haveLoad⟩

/-- What a search below `d` takes is below it, and noted. -/
theorem findExports_exported (h : ℕ) : ∃ new, Exported T s (T.findExports cfg amount h d s) new ∧
    (T.findExports cfg amount h d s).alreadyExporting = new.reverse ++ s.alreadyExporting ∧
    ∀ y ∈ new, T.Ancestor d y := by
  refine findExports_invariant (P := fun t => ∃ new, Exported T s t new ∧
    t.alreadyExporting = new.reverse ++ s.alreadyExporting ∧ ∀ y ∈ new, T.Ancestor d y) h ?_
    ⟨[], .refl s, rfl, fun y hy => absurd hy List.not_mem_nil⟩
  rintro c hc t ⟨new, hnew, hnoted, hbelow⟩
  refine ⟨new ++ [c], hnew.take c, ?_, fun y hy => ?_⟩
  · show c :: t.alreadyExporting = _
    rw [hnoted, List.reverse_append]
    rfl
  · rcases List.mem_append.mp hy with hy | hy
    · exact hbelow y hy
    · rw [List.mem_singleton.mp hy]
      exact hc

/-- A search below `d` ends, and what it chooses is below `d`, can be exported,
is noted with its load, and none of it is above another. -/
theorem findExports_selects (hv : Valid cfg) {h : ℕ} (hh : T.height d < h) :
    (∀ h', T.height d < h' → T.findExports cfg amount h' d s = T.findExports cfg amount h d s) ∧
    ∃ new, (T.findExports cfg amount h d s).exports = s.exports ++ new ∧ new.Nodup ∧
      (new.Pairwise fun x y => ¬T.Ancestor x y ∧ ¬T.Ancestor y x) ∧
      (∀ y ∈ new, T.Ancestor d y ∧ T.isAuth y = true ∧ T.isFrozen y = false ∧ y ∉ s.alreadyExporting) ∧
      (T.findExports cfg amount h d s).alreadyExporting = new.reverse ++ s.alreadyExporting ∧
      (T.findExports cfg amount h d s).haveLoad = s.haveLoad + (new.map T.pop).sum := by
  refine ⟨fun h' hh' => findExports_height hh' hh, ?_⟩
  obtain ⟨new, hnew, hnoted, hancestor⟩ : ∃ new, Exported T s (T.findExports cfg amount h d s) new ∧
      (T.findExports cfg amount h d s).alreadyExporting = new.reverse ++ s.alreadyExporting ∧
      ∀ y ∈ new, T.Ancestor d y := findExports_exported h
  obtain ⟨new', hadds⟩ : ∃ new, Adds T cfg (amount - s.haveLoad) (fun x => x = d) s (T.findExports cfg amount h d s) new :=
    findExports_adds hv h (by linarith)
  obtain rfl : new' = new := List.append_cancel_left (hadds.exports.symm.trans hnew.exports)
  have hbelow : ∀ y ∈ new', T.Below d y := by
    intro y hy
    obtain ⟨c, rfl, hcy⟩ := hadds.below hy
    exact hcy
  refine ⟨new', hnew.exports, ?_, ?_, fun y hy => ⟨hancestor y hy, (hadds.admits hy).2.1, (hadds.admits hy).2.2,
    hadds.unnoted hy⟩, hnoted, hnew.haveLoad⟩
  · refine hadds.unrelated.imp fun hu he => hu.1 ?_
    rw [he]
    exact .refl _
  · exact hadds.unrelated.imp_of_mem fun hx hy hu =>
      ⟨fun ha => hu.1 (ha.below (hbelow _ hx) (hbelow _ hy)), fun ha => hu.2 (ha.below (hbelow _ hy) (hbelow _ hx))⟩

end FindExports

/-! ## Two subdirectories -/

local instance dirsNeZero : NeZero 3 := ⟨by decide⟩

/-- A directory with two subdirectories. -/
def twoDirs : DirFrags (Fin 3) where
  children d := if d = 0 then [1, 2] else []
  height d := if d = 0 then 1 else 0
  height_lt := by decide
  nodup_children := by decide
  parent_unique := by decide
  isSubtreeRoot d := d == 0
  isAuth _ := true
  auth_child := by decide
  isFrozen _ := false
  isFreezing _ := false
  isRep _ := false
  inodeIsBase _ := false
  inodeIsRoot _ := false
  inodeIsStray _ := false
  inMdsdir _ := false
  inodeAuthority _ := 0
  pop := ![15, 8, 7]
  pop_nonneg := by decide +kernel

/-- The defaults, without the hook. -/
def defaults : Config where
  minOffload := 0
  idleThreshold := 0
  minStart := 1 / 5
  needMax := 6 / 5
  needMin := 4 / 5
  midchunk := 3 / 10
  minchunk := 1 / 1000
  howmuch := none

theorem findExports_selects_twoDirs : (twoDirs.findExports defaults 8 2 0 ⟨[], 0, []⟩).exports = [1] ∧
    ∃ new, (twoDirs.findExports defaults 8 2 0 ⟨[], 0, []⟩).exports = [] ++ new ∧
      ∀ y ∈ new, twoDirs.Ancestor 0 y ∧ twoDirs.isAuth y = true ∧ twoDirs.isFrozen y = false ∧ y ∉ [] := by
  have hv : Valid defaults := fun hook hh => by cases hh
  have hh : twoDirs.height 0 < 2 := by decide
  obtain ⟨-, new, hnew, -, -, hsel, -⟩ := @findExports_selects _ _ twoDirs defaults 0 8 ⟨[], 0, []⟩ hv 2 hh
  exact ⟨by decide +kernel, new, hnew, hsel⟩

end CephMds.Rebalance
