import CephMds.Proof.Subtree.Invariant

/-!
# The bounded functions keep the subtree map

`trySubtreeMerge` and `adjustBoundedSubtreeAuth` only call
`adjustSubtreeAuth` and `trySubtreeMergeAt` after the map is first touched, in
loops whose length depends on the map. Whenever they return, the invariant
holds again (`trySubtreeMerge_inv`, `adjustBoundedSubtreeAuth_inv`).
-/

namespace CephMds.Cache

variable {ι α L : Type} {I : InodeAuthority ι α} {c c' c₁ c₂ : Cache ι α L} {d t bound : α}
  {a oldauth : Auth} {bounds : Finset α}

open Checked

theorem authority_ne_default : c.authority I d ≠ cdirAuthDefault := by
  unfold authority
  split
  · rename_i h
    exact isSubtreeRoot_iff.mp h
  · split
    · exact I.ne_default
    · decide

theorem authority_of_root (h : c.isSubtreeRoot d = true) : c.authority I d = c.dirAuth d := by
  rw [authority, if_pos h]

theorem authority_of_parent {q : α} (h : c.isSubtreeRoot d = false) (hq : c.getParentDir d = some q) :
    c.authority I d = c.authority I q := by
  obtain ⟨i, hi, hp⟩ := getParentDir_inode hq
  rw [authority, h, if_neg Bool.false_ne_true, hi, authority]
  simp only [I.of_parent hp]
  cases hqr : c.isSubtreeRoot q with
  | true => rw [if_neg (isSubtreeRoot_iff.mp hqr), if_pos rfl]
  | false => rw [if_pos (by simpa [isSubtreeRoot] using hqr), if_neg Bool.false_ne_true]

/-- `c'` satisfies the invariant and is a state of the same directories as `c`. -/
structure Stays (c c' : Cache ι α L) : Prop where
  inv : Inv c'
  frame : Frame c c'

theorem Stays.refl (hI : Inv c) : Stays c c := ⟨hI, Frame.refl c⟩

theorem Stays.trans (h : Stays c c₁) (h' : Stays c₁ c₂) : Stays c c₂ :=
  ⟨h'.inv, h.frame.trans h'.frame⟩

/-- A loop whose iterations keep the invariant keeps it. -/
theorem foldlM_stays {f : Cache ι α L → α → Checked (Cache ι α L)} {l : List α}
    (hf : ∀ c₁ c₂ p, Inv c₁ → f c₁ p = .ok c₂ → Stays c₁ c₂) (hI : Inv c)
    (h : l.foldlM f c = .ok c') : Stays c c' :=
  foldlM_invariant (P := Stays c) (fun c₁ p c₂ _ h₁ h₂ => h₁.trans (hf c₁ c₂ p h₁.inv h₂))
    (.refl hI) h

variable [LinearOrder α] [AddCommGroup L]

theorem adjustSubtreeAuth_stays (hI : Inv c) (ha : a ≠ cdirAuthDefault)
    (h : c.adjustSubtreeAuth d a = .ok c') : Stays c c' := by
  obtain ⟨hI', -, hF⟩ := adjustSubtreeAuth_spec hI ha h
  exact ⟨hI', hF⟩

theorem trySubtreeMergeAt_stays (hI : Inv c) (h : c.trySubtreeMergeAt d = .ok c') :
    Stays c c' := by
  obtain ⟨-, ⟨-, hI', hF, -⟩ | ⟨-, rfl⟩⟩ := trySubtreeMergeAt_spec hI h
  · exact ⟨hI', hF⟩
  · exact .refl hI

theorem trySubtreeMerge_stays (hI : Inv c) (h : c.trySubtreeMerge d = .ok c') : Stays c c' := by
  obtain ⟨_, -, h⟩ := bind_ok.mp h
  obtain ⟨c₁, h₁, h⟩ := bind_ok.mp h
  have s₁ := trySubtreeMergeAt_stays hI h₁
  exact s₁.trans (foldlM_stays (fun _ _ _ hI h => trySubtreeMergeAt_stays hI h) s₁.inv h)

/-! ## `adjust_bounded_subtree_auth` -/

theorem swallow_stays (hI : Inv c) (ha : a ≠ cdirAuthDefault) (h : c.swallow t a = .ok c') :
    Stays c c' := by
  obtain ⟨c₁, h₁, h⟩ := bind_ok.mp h
  have s₁ := adjustSubtreeAuth_stays hI ha h₁
  exact s₁.trans (trySubtreeMergeAt_stays s₁.inv h)

/-- What a call with the authority `a` keeps if its two kinds of change do. -/
structure Stable (a : Auth) (P : Cache ι α L → Prop) : Prop where
  adjust {c c' : Cache ι α L} {d : α} {o : Auth} : P c → o ≠ cdirAuthDefault →
    c.adjustSubtreeAuth d o = .ok c' → P c'
  swallow {c c' : Cache ι α L} {t : α} : P c → c.swallow t a = .ok c' → P c'

theorem stable_stays (c : Cache ι α L) (ha : a ≠ cdirAuthDefault) : Stable a (Stays c) :=
  ⟨fun hs ho h => hs.trans (adjustSubtreeAuth_stays hs.inv ho h),
    fun hs h => hs.trans (swallow_stays hs.inv ha h)⟩

namespace Stable

variable {P : Cache ι α L → Prop} (hP : Stable a P)
include hP

theorem swallowIntervening {n : ℕ} (hc : P c) (h : swallowIntervening d a bound n t c = .ok c') : P c' := by
  induction n generalizing t c with
  | zero => cases h
  | succ n ih =>
    obtain ⟨t₁, -, h⟩ := bind_ok.mp h
    obtain ⟨c₁, h₁, h⟩ := bind_ok.mp h
    obtain ⟨q, -, h⟩ := bind_ok.mp h
    obtain ⟨t₂, -, h⟩ := bind_ok.mp h
    have hc₁ := hP.swallow hc h₁
    rcases ite_ok.mp h with ⟨-, h⟩ | ⟨-, h⟩
    · rw [pure_ok] at h
      exact h ▸ hc₁
    · exact ih hc₁ h

theorem newBoundBelow (hc : P c) (h : newBoundBelow I d t c bound = .ok c') : P c' := by
  rcases ite_ok.mp h with ⟨-, h⟩ | ⟨-, h⟩
  · rw [pure_ok] at h
    exact h ▸ hc
  · obtain ⟨_, -, h⟩ := bind_ok.mp h
    exact hP.adjust hc authority_ne_default h

theorem adjustBound (ho : oldauth ≠ cdirAuthDefault) (hc : P c)
    (h : adjustBound I d a oldauth c bound = .ok c') : P c' := by
  rcases ite_ok.mp h with ⟨-, h⟩ | ⟨-, h⟩
  · rw [pure_ok] at h
    exact h ▸ hc
  rcases ite_ok.mp h with ⟨-, h⟩ | ⟨-, h⟩
  · exact hP.adjust hc ho h
  · obtain ⟨q, -, h⟩ := bind_ok.mp h
    obtain ⟨t, -, h⟩ := bind_ok.mp h
    obtain ⟨c₁, h₁, h⟩ := bind_ok.mp h
    exact hP.swallowIntervening (hP.newBoundBelow hc h₁) h

theorem swallowExtra {copy : Finset α} (hc : P c) (h : swallowExtra bounds a c copy = .ok c') : P c' := by
  refine foldlM_invariant (fun c₁ p c₂ _ hc₁ h₂ => ?_) hc h
  rcases ite_ok.mp h₂ with ⟨-, h₂⟩ | ⟨-, h₂⟩
  · rw [pure_ok] at h₂
    exact h₂ ▸ hc₁
  · exact hP.swallow hc₁ h₂

theorem mergeStray {n : ℕ} (hc : P c) (h : mergeStray d bounds a n c = .ok c') : P c' := by
  induction n generalizing c with
  | zero => cases h
  | succ n ih =>
    rcases ite_ok.mp h with ⟨-, h⟩ | ⟨-, h⟩
    · cases h
      exact hc
    · obtain ⟨c₁, h₁, h⟩ := bind_ok.mp h
      have hc₁ := hP.swallowExtra hc h₁
      rcases ite_ok.mp h with ⟨-, h⟩ | ⟨-, h⟩
      · rw [pure_ok] at h
        exact h ▸ hc₁
      · exact ih hc₁ h

/-- The whole call, from the state after `delegate`. -/
theorem adjustBoundedSubtreeAuth (h : c.adjustBoundedSubtreeAuth I d bounds a = .ok c')
    (hd : ∀ new c₁, c.delegate c.tree.isRoot d a = .ok (new, c₁) → P c₁) :
    P c' ∧ (c'.subtrees d).isSome = true ∧ c'.bounds d = bounds := by
  obtain ⟨⟨new, c₁⟩, h₁, h⟩ := bind_ok.mp h
  obtain ⟨c₂, h₂, h⟩ := bind_ok.mp h
  obtain ⟨c₃, h₃, h⟩ := bind_ok.mp h
  obtain ⟨u, hkey, h⟩ := bind_ok.mp h
  obtain ⟨v, hb, h⟩ := bind_ok.mp h
  rw [pure_ok] at h
  subst h
  rw [assert_ok] at hkey
  rw [assert_ok, decide_eq_true_eq] at hb
  have hc₂ : P c₂ := foldlM_invariant (fun _ _ _ _ hc h => hP.adjustBound authority_ne_default hc h) (hd new c₁ h₁) h₂
  exact ⟨hP.mergeStray hc₂ h₃, hkey, hb.symm⟩

end Stable

theorem adjustBoundedSubtreeAuth_stays (hI : Inv c) (ha : a ≠ cdirAuthDefault)
    (h : c.adjustBoundedSubtreeAuth I d bounds a = .ok c') : Stays c c' := by
  refine ((stable_stays c ha).adjustBoundedSubtreeAuth h fun new c₁ h₁ => ?_).1
  obtain ⟨hI₁, -, hF₁⟩ := delegate_spec (fun _ => c.tree.root_base) hI ha h₁
  exact ⟨hI₁, hF₁⟩

end CephMds.Cache
