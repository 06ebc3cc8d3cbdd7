import CephMds.Proof.Subtree.Claim

/-!
# When a subtree gets the bounds that it is given

`adjustBoundedSubtreeAuth` gives each root between `d` and its bounds the new
authority, and relies on `trySubtreeMergeAt` to merge it. This is refused for an
ambiguous authority and for an export bound, and then the root stays whatever
else is done (`stable_root`): below a wanted bound the loop never ends, and
elsewhere the bounds are not those of the call. Without such roots the call
establishes them (`adjustBoundedSubtreeAuth_bounds_iff`).
-/

namespace CephMds.Cache

open Checked

variable {ι α L : Type} [LinearOrder α] [AddCommGroup L] {I : InodeAuthority ι α} {c c' : Cache ι α L}
  {d r t x : α} {a : Auth} {B : Finset α}

/-- No root between `d` and `B` refuses to be merged with the authority `a`. -/
def Swallowable (c : Cache ι α L) (d : α) (B : Finset α) (a : Auth) : Prop :=
  ∀ r, c.tree.forest.Region d B r → r ≠ d → c.isSubtreeRoot r = true →
    a.second = cdirAuthUnknown ∧ c.exportBound r = false

omit [AddCommGroup L] in
theorem isSubtreeRoot_update {o : Auth} (ho : o ≠ cdirAuthDefault) (h : c'.dirAuth = Function.update c.dirAuth d o)
    (hr : c.isSubtreeRoot r = true) : c'.isSubtreeRoot r = true := by
  rw [isSubtreeRoot_setDirAuth ho h]
  by_cases hrd : r = d
  · rw [hrd, Function.update_self]
  · rw [Function.update_of_ne hrd, hr]

/-- A root that refuses stays a root. -/
theorem stable_root (c : Cache ι α L) (ha : a ≠ cdirAuthDefault)
    (hr : ¬ (a.second = cdirAuthUnknown ∧ c.exportBound r = false)) :
    Stable a fun c₁ => Stays c c₁ ∧ c₁.isSubtreeRoot r = true := by
  constructor
  · rintro c₁ c₂ x o ⟨hs, hroot⟩ ho h
    obtain ⟨-, hA, -⟩ := adjustSubtreeAuth_spec hs.inv ho h
    exact ⟨hs.trans (adjustSubtreeAuth_stays hs.inv ho h), isSubtreeRoot_update ho hA hroot⟩
  · rintro c₁ c₂ t ⟨hs, hroot⟩ h
    refine ⟨hs.trans (swallow_stays hs.inv ha h), ?_⟩
    obtain ⟨c₃, h₃, h⟩ := bind_ok.mp h
    obtain ⟨hI₃, hA₃, hF₃⟩ := adjustSubtreeAuth_spec hs.inv ha h₃
    have hroot₃ := isSubtreeRoot_update ha hA₃ hroot
    obtain ⟨-, ⟨hM, -, -, hA₂⟩ | ⟨-, rfl⟩⟩ := trySubtreeMergeAt_spec hI₃ h
    · obtain ⟨p, -, -, hplain, hexport⟩ := hM
      rw [hA₃, Function.update_self] at hplain
      rw [hF₃.exportBound, hs.frame.exportBound] at hexport
      have hrt : r ≠ t := by
        rintro rfl
        exact hr ⟨hplain, hexport⟩
      rw [isSubtreeRoot, hA₂, Function.update_of_ne hrt]
      exact hroot₃
    · exact hroot₃

/-- The call returns with the wanted bounds if and only if no root between
refuses to be merged. The bounds are below `d`, none below another. -/
theorem adjustBoundedSubtreeAuth_bounds_iff (hI : Inv c) (ha : a ≠ cdirAuthDefault)
    (hd : Delegable c.tree.isRoot c d) (hB : ∀ b ∈ B, c.tree.forest.above (fun y => y = d ∨ y ∈ B) b = some d) :
    (∃ c', c.adjustBoundedSubtreeAuth I d B a = .ok c' ∧ Inv c' ∧ c'.bounds d = B) ↔ c.Swallowable d B a := by
  constructor
  · rintro ⟨c', h, -⟩ r hR hrd hroot
    by_contra hr
    obtain ⟨⟨hs, hroot'⟩, hkey, hb⟩ := (stable_root c ha hr).adjustBoundedSubtreeAuth h fun new c₁ h₁ => by
      obtain ⟨hI₁, hA₁, hF₁⟩ := delegate_spec (fun _ => c.tree.root_base) hI ha h₁
      exact ⟨⟨hI₁, hF₁⟩, isSubtreeRoot_update ha hA₁ hroot⟩
    rw [hs.inv.key] at hkey
    have hno := no_root_of_bounds hs.inv hkey hb.le (hs.frame.tree ▸ hR) hrd
    exact absurd (hno.symm.trans hroot') Bool.false_ne_true
  · intro h
    have hbound : Boundable c d B a := ⟨hI, ha, hB, fun {r} hR hrd => h r hR hrd⟩
    obtain ⟨c', h', k, -, hb⟩ := hbound.adjustBoundedSubtreeAuth (I := I) (hd.returns hI)
    exact ⟨c', h', k.stays.inv, hb⟩

theorem inv_firstOnly : Inv firstOnly := ⟨by decide, by decide, by decide, by decide, by decide⟩

/-- `first` is swallowed up to `below`, for a plain authority. -/
theorem adjustBoundedSubtreeAuth_bounds_first :
    ∃ c', firstOnly.adjustBoundedSubtreeAuth (.nearest _ _) base {below} ⟨2, cdirAuthUnknown⟩ = .ok c' ∧ Inv c' ∧
      c'.bounds base = {below} := by
  have hB : ∀ b ∈ ({below} : Finset (Fin 4)), firstOnly.tree.forest.above (fun y => y = base ∨ y ∈ ({below} : Finset (Fin 4))) b =
      some base := by decide
  refine (adjustBoundedSubtreeAuth_bounds_iff inv_firstOnly (by decide) ⟨0, rfl, .inl rfl⟩ hB).mpr ?_
  exact fun r _ _ _ => ⟨rfl, rfl⟩

/-- For an ambiguous authority the loop above `below` does not end, and without
bounds `first` stays one. -/
theorem not_adjustBoundedSubtreeAuth_bounds :
    Inv firstOnly ∧ Delegable firstOnly.tree.isRoot firstOnly base ∧
      firstOnly.tree.forest.above (fun y => y = base ∨ y ∈ ({below} : Finset (Fin 4))) below = some base ∧
      firstOnly.adjustBoundedSubtreeAuth (.nearest _ _) base {below} ⟨0, 1⟩ = .error .fuel ∧
      firstOnly.adjustBoundedSubtreeAuth (.nearest _ _) base ∅ ⟨0, 1⟩ = .error .assert := by
  refine ⟨inv_firstOnly, ⟨0, rfl, .inl rfl⟩, by decide, ?_, ?_⟩
  · exact fault_eq_some.mp (by decide +kernel)
  · exact fault_eq_some.mp (by decide +kernel)

end CephMds.Cache
