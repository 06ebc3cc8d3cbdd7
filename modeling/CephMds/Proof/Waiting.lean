import CephMds.Framework.Ordered
import CephMds.Model.Waiting
import Mathlib.Data.Multiset.AddSub
import Mathlib.Order.WellFounded

/-!
# Waiters are kept and handed out

`Waiters.Pinned` is what every function keeps of the two containers: their
pins are held iff they are not empty, and the keys ascend. Each function that
takes waiters returns, hands out exactly the contexts that it is asked for, and
leaves the others (`takeWaiting_eq`, `takeDentryWaiting_eq`). `Conserves` is
what they have in common: a context that was waiting still waits or has been
handed out.
-/

namespace CephMds.Waiting.Waiters

open Checked

variable {ν κ : Type}

structure Pinned [LinearOrder ν] (w : Waiters ν κ) : Prop where
  waiter : w.pinWaiter = if w.waiting = [] then 0 else 1
  dnwaiter : w.pinDnwaiter = if w.waitingOnDentry = [] then 0 else 1
  sorted : (w.waitingOnDentry.map Prod.fst).Pairwise (· < ·)

theorem pinned_empty [LinearOrder ν] : Pinned (empty : Waiters ν κ) := ⟨rfl, rfl, List.Pairwise.nil⟩

/-- All the contexts that wait. -/
def contexts (w : Waiters ν κ) : List κ := w.waiting.map Prod.snd ++ w.waitingOnDentry.flatMap Prod.snd

/-- From `w` to `w'` some of the waiters have been handed out. -/
structure Conserves (w w' : Waiters ν κ) : Prop where
  contexts : (w'.contexts ++ w'.taken).Perm (w.contexts ++ w.taken)
  waiting : w'.waiting.Sublist w.waiting
  taken : w.taken <+: w'.taken
  released : ∀ p ∈ w.waiting, p ∈ w'.waiting ∨ p.2 ∈ w'.taken

theorem Conserves.refl (w : Waiters ν κ) : Conserves w w :=
  ⟨List.Perm.refl _, List.Sublist.refl _, List.prefix_refl _, fun _ => .inl⟩

theorem Conserves.trans {w₁ w₂ w₃ : Waiters ν κ} (h : Conserves w₁ w₂) (h' : Conserves w₂ w₃) :
    Conserves w₁ w₃ where
  contexts := h'.contexts.trans h.contexts
  waiting := h'.waiting.trans h.waiting
  taken := h.taken.trans h'.taken
  released p hp := by
    rcases h.released p hp with hp | hp
    · exact h'.released p hp
    · exact .inr (h'.taken.subset hp)

variable [LinearOrder ν] {w w' : Waiters ν κ} {mask tag : UInt64} {c : κ}

/-! ## By tag -/

omit [LinearOrder ν] in
theorem putWaiter_ok (h : w.pinWaiter = 1) : w.putWaiter = .ok { w with pinWaiter := 0 } := by
  simp only [putWaiter, bind_ok, assert_ok, pure_ok, h]
  exact ⟨(), by decide, trivial⟩

omit [LinearOrder ν] in
theorem putDnwaiter_ok (h : w.pinDnwaiter = 1) : w.putDnwaiter = .ok { w with pinDnwaiter := 0 } := by
  simp only [putDnwaiter, bind_ok, assert_ok, pure_ok, h]
  exact ⟨(), by decide, trivial⟩

theorem takeTagged_eq (h : w.Pinned) (mask : UInt64) : ∃ w', w.takeTagged mask = .ok w' ∧ w'.Pinned ∧
    w'.waiting = w.waiting.filter (fun p => !meets p.1 mask) ∧ w'.waitingOnDentry = w.waitingOnDentry ∧
    w'.taken = w.taken ++ (w.waiting.filter fun p => meets p.1 mask).map Prod.snd := by
  rw [takeTagged]
  split
  · rename_i he
    rw [List.isEmpty_iff] at he
    exact ⟨w, rfl, h, by simp [he], rfl, by simp [he]⟩
  · rename_i he
    rw [List.isEmpty_iff] at he
    have hpin : w.pinWaiter = 1 := by rw [h.waiter, if_neg he]
    by_cases hrest : (w.waiting.filter fun p => !meets p.1 mask) = []
    · refine ⟨_, (if_pos (List.isEmpty_iff.mpr hrest)).trans (putWaiter_ok hpin), ⟨?_, h.dnwaiter, h.sorted⟩,
        rfl, rfl, rfl⟩
      exact (if_pos hrest).symm
    · refine ⟨_, if_neg (mt List.isEmpty_iff.mp hrest), ⟨?_, h.dnwaiter, h.sorted⟩, rfl, rfl, rfl⟩
      exact hpin.trans (if_neg hrest).symm

theorem addWaiter_pinned (h : w.Pinned) : (w.addWaiter tag c).Pinned := by
  have hne : (w.addWaiter tag c).waiting ≠ [] := by
    simp [addWaiter]
  refine ⟨?_, ?_, ?_⟩
  · rw [if_neg hne, addWaiter]
    split
    · rename_i he
      rw [List.isEmpty_iff] at he
      show w.pinWaiter + 1 = 1
      rw [h.waiter, if_pos he]
    · rename_i he
      rw [List.isEmpty_iff] at he
      exact h.waiter.trans (if_neg he)
  · rw [addWaiter]
    split <;> exact h.dnwaiter
  · rw [addWaiter]
    split <;> exact h.sorted

omit [LinearOrder ν] in
theorem addWaiter_perm : (w.addWaiter tag c).waiting.Perm ((tag, c) :: w.waiting) := by
  have hsplit : w.waiting.takeWhile (·.1 ≤ tag) ++ w.waiting.dropWhile (·.1 ≤ tag) = w.waiting :=
    List.takeWhile_append_dropWhile
  have hw : (w.addWaiter tag c).waiting =
      w.waiting.takeWhile (·.1 ≤ tag) ++ (tag, c) :: w.waiting.dropWhile (·.1 ≤ tag) := by
    rw [addWaiter]
    split <;> rfl
  rw [hw]
  refine List.perm_middle.trans ?_
  rw [hsplit]

/-! ## By dentry -/

theorem takeSubWaiting_eq (h : w.Pinned) : w.takeSubWaiting = .ok { w with
    taken := w.taken ++ w.waitingOnDentry.flatMap Prod.snd, waitingOnDentry := [], pinDnwaiter := 0 } := by
  rw [takeSubWaiting]
  split
  · rename_i he
    rw [List.isEmpty_iff] at he
    have hpin : w.pinDnwaiter = 0 := by rw [h.dnwaiter, if_pos he]
    have hw : w = { w with waitingOnDentry := [], pinDnwaiter := 0 } := by
      rw [← he, ← hpin]
    rw [he, List.flatMap_nil, List.append_nil, ← hw]
    rfl
  · rename_i he
    rw [List.isEmpty_iff] at he
    exact putDnwaiter_ok (by rw [h.dnwaiter, if_neg he])

/-- `take_waiting` hands out those whose tag meets the mask, and with
`WAIT_DENTRY` in the mask all the dentry waiters. -/
theorem takeWaiting_eq (h : w.Pinned) (mask : UInt64) : ∃ w', w.takeWaiting mask = .ok w' ∧ w'.Pinned ∧
    w'.waiting = w.waiting.filter (fun p => !meets p.1 mask) ∧
    w'.waitingOnDentry = (if meets mask waitDentry then [] else w.waitingOnDentry) ∧
    w'.taken = w.taken ++ (if meets mask waitDentry then w.waitingOnDentry.flatMap Prod.snd else []) ++
      (w.waiting.filter fun p => meets p.1 mask).map Prod.snd := by
  rw [takeWaiting]
  split
  · rename_i hm
    rw [takeSubWaiting_eq h]
    refine takeTagged_eq ?_ mask
    exact ⟨h.waiter, rfl, List.Pairwise.nil⟩
  · obtain ⟨w', hw', hp, hwait, hdn, ht⟩ := takeTagged_eq h mask
    exact ⟨w', hw', hp, hwait, hdn, by rw [ht, List.append_nil]⟩

theorem Conserves.of_takeWaiting (h : w.Pinned) (hw : w.takeWaiting mask = .ok w') : Conserves w w' := by
  obtain ⟨w₁, hw₁, -, hwait, hdn, ht⟩ := takeWaiting_eq h mask
  rw [hw₁, Except.ok.injEq] at hw
  subst hw
  have hsplit : ((w.waiting.filter fun p => !meets p.1 mask).map Prod.snd ++
      (w.waiting.filter fun p => meets p.1 mask).map Prod.snd).Perm (w.waiting.map Prod.snd) := by
    rw [← List.map_append]
    exact (List.perm_append_comm.trans (List.filter_append_perm _ _)).map _
  refine ⟨?_, ?_, ?_, ?_⟩
  · rw [Waiters.contexts, Waiters.contexts, hwait, hdn, ht]
    classical
    rw [List.perm_iff_count] at hsplit ⊢
    intro a
    have := hsplit a
    split <;> simp only [List.count_append, List.flatMap_nil, List.count_nil] at this ⊢ <;> omega
  · rw [hwait]
    exact List.filter_sublist
  · rw [ht, List.append_assoc]
    exact List.prefix_append _ _
  · intro p hp
    cases hm : meets p.1 mask with
    | false => exact .inl (by simp [hwait, hp, hm])
    | true =>
      refine .inr ?_
      rw [ht]
      exact List.mem_append_right _ (List.mem_map_of_mem (by simp [hp, hm]))

/-- All the dentry waiters are handed out. -/
theorem Conserves.of_takeSubWaiting (h : w.Pinned) (hw : w.takeSubWaiting = .ok w') : Conserves w w' := by
  rw [takeSubWaiting_eq h, Except.ok.injEq] at hw
  subst hw
  refine ⟨?_, List.Sublist.refl _, List.prefix_append _ _, fun _ => .inl⟩
  classical
  rw [List.perm_iff_count]
  intro a
  simp only [Waiters.contexts, List.count_append, List.flatMap_nil, List.count_nil]
  omega

theorem pushBack_keys {key : ν ×ₗ ℕ} {l : List ((ν ×ₗ ℕ) × List κ)} {x : ν ×ₗ ℕ} :
    x ∈ (pushBack key c l).map Prod.fst ↔ x = key ∨ x ∈ l.map Prod.fst := by
  induction l with
  | nil => simp [pushBack]
  | cons p l ih =>
    simp only [pushBack]
    split
    · simp
    · split
      · rename_i hk
        simp [hk]
      · simp only [List.map_cons, List.mem_cons, ih]
        tauto

theorem pushBack_sorted {key : ν ×ₗ ℕ} {l : List ((ν ×ₗ ℕ) × List κ)}
    (h : (l.map Prod.fst).Pairwise (· < ·)) : ((pushBack key c l).map Prod.fst).Pairwise (· < ·) := by
  induction l with
  | nil => simp [pushBack]
  | cons p l ih =>
    rw [List.map_cons, List.pairwise_cons] at h
    simp only [pushBack]
    split
    · rename_i hlt
      rw [List.map_cons, List.pairwise_cons]
      refine ⟨?_, List.pairwise_cons.mpr h⟩
      intro x hx
      rcases List.mem_cons.mp hx with rfl | hx
      · exact hlt
      · exact hlt.trans (h.1 x hx)
    · rename_i hnlt
      split
      · exact List.pairwise_cons.mpr h
      · rename_i hne
        rw [List.map_cons, List.pairwise_cons]
        refine ⟨?_, ih h.2⟩
        intro x hx
        rcases pushBack_keys.mp hx with rfl | hx
        · exact lt_of_le_of_ne (not_lt.mp hnlt) (Ne.symm hne)
        · exact h.1 x hx

omit [LinearOrder ν] in
theorem pushBack_perm [LinearOrder ν] {key : ν ×ₗ ℕ} {l : List ((ν ×ₗ ℕ) × List κ)} :
    ((pushBack key c l).flatMap Prod.snd).Perm (c :: l.flatMap Prod.snd) := by
  induction l with
  | nil => simp [pushBack]
  | cons p l ih =>
    simp only [pushBack]
    split
    · simp
    · split
      · simp only [List.flatMap_cons, List.append_assoc, List.singleton_append]
        exact List.perm_middle
      · simp only [List.flatMap_cons]
        exact (ih.append_left _).trans List.perm_middle

theorem pushBack_ne_nil {key : ν ×ₗ ℕ} {l : List ((ν ×ₗ ℕ) × List κ)} : pushBack key c l ≠ [] := by
  intro h
  have := (pushBack_keys (c := c) (l := l)).mpr (.inl (rfl : key = key))
  rw [h] at this
  cases this

theorem addDentryWaiter_pinned {dname : ν} {snapid : ℕ} (h : w.Pinned) :
    (w.addDentryWaiter dname snapid c).Pinned := by
  have hl : (w.addDentryWaiter dname snapid c).waitingOnDentry =
      pushBack (toLex (dname, snapid)) c w.waitingOnDentry := by
    rw [addDentryWaiter]
    split <;> rfl
  refine ⟨?_, ?_, ?_⟩
  · rw [addDentryWaiter]
    split <;> exact h.waiter
  · rw [hl, if_neg pushBack_ne_nil, addDentryWaiter]
    split
    · rename_i he
      rw [List.isEmpty_iff] at he
      show w.pinDnwaiter + 1 = 1
      rw [h.dnwaiter, if_pos he]
    · rename_i he
      rw [List.isEmpty_iff] at he
      exact h.dnwaiter.trans (if_neg he)
  · rw [hl]
    exact pushBack_sorted h.sorted

/-- The keys between the bounds of `take_dentry_waiting`. -/
theorem key_between {dname : ν} {first last : ℕ} {k : ν ×ₗ ℕ} :
    toLex (dname, first) ≤ k ∧ k ≤ toLex (dname, last) ↔
      (ofLex k).1 = dname ∧ first ≤ (ofLex k).2 ∧ (ofLex k).2 ≤ last := by
  rw [Prod.Lex.le_iff, Prod.Lex.le_iff]
  simp only [ofLex_toLex]
  constructor
  · rintro ⟨h | h, h' | h'⟩
    · exact absurd h' (lt_asymm h)
    · exact absurd h'.1 (ne_of_gt h)
    · exact absurd h.1 (ne_of_gt h')
    · exact ⟨h'.1, h.2, h'.2⟩
  · rintro ⟨h, h₁, h₂⟩
    exact ⟨.inr ⟨h.symm, h₁⟩, .inr ⟨h, h₂⟩⟩

/-- `take_dentry_waiting` hands out those that wait on the name with a snapshot
in the interval. -/
theorem takeDentryWaiting_eq (h : w.Pinned) (dname : ν) (first last : ℕ) :
    ∃ w', w.takeDentryWaiting dname first last = .ok w' ∧ w'.Pinned ∧ w'.waiting = w.waiting ∧
      w'.waitingOnDentry = w.waitingOnDentry.filter (fun p =>
        !decide ((ofLex p.1).1 = dname ∧ first ≤ (ofLex p.1).2 ∧ (ofLex p.1).2 ≤ last)) ∧
      w'.taken = w.taken ++ (w.waitingOnDentry.filter fun p =>
        (ofLex p.1).1 = dname ∧ first ≤ (ofLex p.1).2 ∧ (ofLex p.1).2 ≤ last).flatMap Prod.snd := by
  by_cases he : w.waitingOnDentry = []
  · refine ⟨w, ?_, h, rfl, by simp [he], by simp [he]⟩
    rw [takeDentryWaiting, if_pos (List.isEmpty_iff.mpr he)]
    rfl
  -- The keys ascend, so the loop visits those between the bounds.
  have hsort : w.waitingOnDentry.Pairwise (fun p q => p.1 < q.1) := List.pairwise_map.mp h.sorted
  have hlt : ∀ p q : (ν ×ₗ ℕ) × List κ, p.1 < q.1 → decide (q.1 < toLex (dname, first)) = true →
      decide (p.1 < toLex (dname, first)) = true := by
    intro p q hpq hq
    simp only [decide_eq_true_eq] at hq ⊢
    exact hpq.trans hq
  have hle : ∀ p q : (ν ×ₗ ℕ) × List κ, p.1 < q.1 → (!decide (toLex (dname, last) < q.1)) = true →
      (!decide (toLex (dname, last) < p.1)) = true := by
    intro p q hpq hq
    simp only [Bool.not_eq_true', decide_eq_false_iff_not, not_lt] at hq ⊢
    exact hpq.le.trans hq
  have hfound := Ordered.dropWhile_eq_filter hsort hlt
  have hfsort := hsort.sublist (List.dropWhile_sublist (fun p => decide (p.1 < toLex (dname, first))))
  have htaken : (w.waitingOnDentry.dropWhile fun p => decide (p.1 < toLex (dname, first))).takeWhile
      (fun p => !decide (toLex (dname, last) < p.1)) = w.waitingOnDentry.filter fun p =>
        (ofLex p.1).1 = dname ∧ first ≤ (ofLex p.1).2 ∧ (ofLex p.1).2 ≤ last := by
    rw [Ordered.takeWhile_eq_filter hfsort hle, hfound, List.filter_filter]
    refine List.filter_congr fun p _ => ?_
    rw [Bool.eq_iff_iff, decide_eq_true_eq, ← key_between]
    simp [and_comm]
  have hrest : (w.waitingOnDentry.takeWhile fun p => decide (p.1 < toLex (dname, first))) ++
      (w.waitingOnDentry.dropWhile fun p => decide (p.1 < toLex (dname, first))).dropWhile
        (fun p => !decide (toLex (dname, last) < p.1)) = w.waitingOnDentry.filter fun p =>
        !decide ((ofLex p.1).1 = dname ∧ first ≤ (ofLex p.1).2 ∧ (ofLex p.1).2 ≤ last) := by
    conv_rhs => rw [← List.takeWhile_append_dropWhile
      (p := fun p : (ν ×ₗ ℕ) × List κ => decide (p.1 < toLex (dname, first)))
      (l := w.waitingOnDentry), List.filter_append]
    congr 1
    · symm
      rw [List.filter_eq_self]
      intro p hp
      have hplt := List.mem_takeWhile_imp hp
      rw [decide_eq_true_eq] at hplt
      rw [Bool.not_eq_true', decide_eq_false_iff_not, ← key_between]
      exact fun hb => absurd hb.1 (not_le.mpr hplt)
    · rw [Ordered.dropWhile_eq_filter hfsort hle]
      refine List.filter_congr fun p hp => ?_
      rw [hfound, List.mem_filter] at hp
      have hple : toLex (dname, first) ≤ p.1 := by simpa using hp.2
      rw [Bool.not_not, Bool.eq_iff_iff, decide_eq_true_eq, Bool.not_eq_true', decide_eq_false_iff_not,
        ← key_between, not_and, not_le]
      exact ⟨fun hp' _ => hp', fun hp' => hp' hple⟩
  have hpin : w.pinDnwaiter = 1 := by rw [h.dnwaiter, if_neg he]
  have hsorted : ((w.waitingOnDentry.filter fun p =>
      !decide ((ofLex p.1).1 = dname ∧ first ≤ (ofLex p.1).2 ∧ (ofLex p.1).2 ≤ last)).map
        Prod.fst).Pairwise (· < ·) := h.sorted.sublist (List.filter_sublist.map _)
  rw [takeDentryWaiting, if_neg (mt List.isEmpty_iff.mp he)]
  dsimp only
  rw [htaken, hrest]
  by_cases hnil : (w.waitingOnDentry.filter fun p =>
      !decide ((ofLex p.1).1 = dname ∧ first ≤ (ofLex p.1).2 ∧ (ofLex p.1).2 ≤ last)) = []
  · exact ⟨_, (if_pos (List.isEmpty_iff.mpr hnil)).trans (putDnwaiter_ok hpin),
      ⟨h.waiter, (if_pos hnil).symm, hsorted⟩, rfl, rfl, rfl⟩
  · exact ⟨_, if_neg (mt List.isEmpty_iff.mp hnil),
      ⟨h.waiter, hpin.trans (if_neg hnil).symm, hsorted⟩, rfl, rfl, rfl⟩

theorem Conserves.of_takeDentryWaiting {dname : ν} {first last : ℕ} (h : w.Pinned)
    (hw : w.takeDentryWaiting dname first last = .ok w') : Conserves w w' := by
  obtain ⟨w₁, hw₁, -, hwait, hdn, ht⟩ := takeDentryWaiting_eq h dname first last
  rw [hw₁, Except.ok.injEq] at hw
  subst hw
  refine ⟨?_, by rw [hwait], by rw [ht]; exact List.prefix_append _ _, fun p hp => .inl (by rwa [hwait])⟩
  have hsplit := (List.filter_append_perm (fun p : (ν ×ₗ ℕ) × List κ =>
    decide ((ofLex p.1).1 = dname ∧ first ≤ (ofLex p.1).2 ∧ (ofLex p.1).2 ≤ last))
    w.waitingOnDentry).flatMap_right Prod.snd
  rw [Waiters.contexts, Waiters.contexts, hwait, hdn, ht]
  classical
  rw [List.perm_iff_count] at hsplit ⊢
  intro a
  have := hsplit a
  simp only [List.flatMap_append, List.count_append] at this ⊢
  omega

omit [LinearOrder ν] in
theorem addWaiter_contexts : ((w.addWaiter tag c).contexts ++ (w.addWaiter tag c).taken).Perm
    (c :: (w.contexts ++ w.taken)) := by
  have hdn : (w.addWaiter tag c).waitingOnDentry = w.waitingOnDentry := by
    rw [addWaiter]
    split <;> rfl
  have ht : (w.addWaiter tag c).taken = w.taken := by
    rw [addWaiter]
    split <;> rfl
  rw [contexts, contexts, hdn, ht, List.append_assoc, List.append_assoc]
  exact (addWaiter_perm.map Prod.snd).append_right _

theorem addDentryWaiter_contexts {dname : ν} {snapid : ℕ} :
    ((w.addDentryWaiter dname snapid c).contexts ++ (w.addDentryWaiter dname snapid c).taken).Perm
      (c :: (w.contexts ++ w.taken)) := by
  have hw : (w.addDentryWaiter dname snapid c).waiting = w.waiting ∧
      (w.addDentryWaiter dname snapid c).taken = w.taken ∧ (w.addDentryWaiter dname snapid c).waitingOnDentry =
        pushBack (toLex (dname, snapid)) c w.waitingOnDentry := by
    rw [addDentryWaiter]
    split <;> exact ⟨rfl, rfl, rfl⟩
  rw [contexts, contexts, hw.1, hw.2.1, hw.2.2, ← List.cons_append]
  apply List.Perm.append_right
  exact (pushBack_perm.append_left _).trans List.perm_middle

end CephMds.Waiting.Waiters
