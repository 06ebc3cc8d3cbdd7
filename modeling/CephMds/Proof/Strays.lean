import CephMds.Model.Strays
import Mathlib

/-!
# The life cycle of a stray

A dentry is purging while one operation on it is not complete (`Row`), and
what starts one or ends one changes the flags of the dentry, its pin, the flag
of the inode and the counters together; but not everywhere. When a purge finds
new references it goes on as a truncation, and `num_strays_purging` stays; when
a truncation is safe the inode keeps its `STATE_PURGING`; and `truncate_stray`
takes a dentry off `delayed_eval_stray` and leaves `num_strays_delayed`.
-/

namespace CephMds.Strays.State

variable {ν : Type} [DecidableEq ν] {s s' : State ν} {dn d : ν}

/-- The operations on a dentry that are not complete. -/
def outstanding (s : State ν) (dn : ν) : ℕ := s.ops.countP fun o => o.1 = dn

/-- The purges that `purge_stray` has started, and that are not done with the objects. -/
def purges (s : State ν) : ℕ := s.ops.countP fun o => o.2 = .purge false

structure Row (s : State ν) (dn : ν) (purging : Bool) : Prop where
  state : (s.dentry dn).statePurging = purging
  inState : (s.dentry dn).inStatePurging = purging
  pin : (s.dentry dn).pinPurging = purging.toNat
  outstanding : s.outstanding dn = purging.toNat
  nlink : purging = true → (s.dentry dn).nlink = 0

/-- What does not depend on one dentry. -/
structure Counted (s : State ν) : Prop where
  op (dn : ν) (nlink numRef dirty : ℕ) : (dn, .remove nlink numRef dirty) ∈ s.ops → nlink = 0 ∧ numRef = dirty
  removed (r : Removal) : r ∈ s.removed → r.nlink = 0 ∧ r.nlinkNow = 0 ∧ r.numRef = r.dirty
  nodup : s.delayedEvalStray.Nodup
  delayed : s.numStraysDelayed = s.delayedEvalStray.length
  purging : s.numStraysPurging = s.purges

structure Inv (s : State ν) : Prop extends s.Counted where
  row (dn : ν) : ∃ b, Row s dn b

/-- No operation is on `dn`, and the flag of its inode is as it may be. -/
structure Idle (s : State ν) (dn : ν) : Prop extends s.Counted where
  row (d : ν) : d ≠ dn → ∃ b, Row s d b
  state : (s.dentry dn).statePurging = false
  pin : (s.dentry dn).pinPurging = 0
  outstanding : s.outstanding dn = 0

theorem Inv.idle (h : s.Inv) (hs : (s.dentry dn).statePurging = false) : s.Idle dn := by
  obtain ⟨b, hr⟩ := h.row dn
  obtain rfl : b = false := hr.state.symm.trans hs
  exact ⟨h.toCounted, fun d _ => h.row d, hs, hr.pin, hr.outstanding⟩

theorem Row.congr {b : Bool} (h : Row s dn b) (hd : s'.dentry dn = s.dentry dn) (ho : s'.outstanding dn = s.outstanding dn) :
    Row s' dn b := by
  refine ⟨?_, ?_, ?_, ho.trans h.outstanding, ?_⟩
  all_goals rw [hd]
  · exact h.state
  · exact h.inState
  · exact h.pin
  · exact h.nlink

@[simp]
theorem setDentry_self {x : CDentry} : (s.setDentry dn x).dentry dn = x := Function.update_self ..

theorem setDentry_of_ne {x : CDentry} (h : d ≠ dn) : (s.setDentry dn x).dentry d = s.dentry d :=
  Function.update_of_ne h ..

/-- What is kept elsewhere changes. -/
theorem Inv.setDentry {x : CDentry} (h : s.Inv) (hs : x.statePurging = (s.dentry dn).statePurging)
    (hi : x.inStatePurging = (s.dentry dn).inStatePurging ∨ x.inStatePurging = (s.dentry dn).statePurging)
    (hp : x.pinPurging = (s.dentry dn).pinPurging)
    (hn : (s.dentry dn).statePurging = true → x.nlink = (s.dentry dn).nlink) : (s.setDentry dn x).Inv := by
  refine ⟨⟨h.op, h.removed, h.nodup, h.delayed, h.purging⟩, fun d => ?_⟩
  by_cases hd : d = dn
  · subst hd
    obtain ⟨b, hr⟩ := h.row d
    refine ⟨b, ?_, ?_, ?_, hr.outstanding, fun hb => ?_⟩
    · rw [setDentry_self, hs, hr.state]
    · rw [setDentry_self]
      rcases hi with hi | hi
      · rw [hi, hr.inState]
      · rw [hi, hr.state]
    · rw [setDentry_self, hp, hr.pin]
    · rw [setDentry_self, hn (hr.state.trans hb), hr.nlink hb]
  · obtain ⟨b, hr⟩ := h.row d
    exact ⟨b, hr.congr (setDentry_of_ne hd) rfl⟩

/-! ## The start of an operation -/

theorem countP_concat {α : Type} {p : α → Bool} {l : List α} {a : α} :
    (l ++ [a]).countP p = l.countP p + (p a).toNat := by
  rw [List.countP_append, List.countP_singleton]
  cases p a <;> rfl

theorem Idle.started {x : CDentry} (h : s.Idle dn) (op : Op) (hops : s'.ops = s.ops ++ [(dn, op)])
    (hd : s'.dentry dn = x) (hother : ∀ d, d ≠ dn → s'.dentry d = s.dentry d) (hx : x.statePurging = true)
    (hi : x.inStatePurging = true) (hp : x.pinPurging = (s.dentry dn).pinPurging + 1) (hn : x.nlink = 0) (d : ν) :
    ∃ b, Row s' d b := by
  have hout : s'.outstanding d = s.outstanding d + (decide (dn = d)).toNat := by
    unfold State.outstanding
    rw [hops, countP_concat]
  by_cases hdn : d = dn
  · subst hdn
    refine ⟨true, ?_, ?_, ?_, ?_, fun _ => ?_⟩
    · rw [hd, hx]
    · rw [hd, hi]
    · rw [hd, hp, h.pin]
      rfl
    · rw [hout, h.outstanding, decide_eq_true rfl]
      rfl
    · rw [hd, hn]
  · obtain ⟨b, hr⟩ := h.row d hdn
    refine ⟨b, hr.congr (hother d hdn) ?_⟩
    rw [hout, decide_eq_false (Ne.symm hdn)]
    rfl

theorem Idle.purgeStray (h : s.Idle dn) (hn : (s.dentry dn).nlink = 0) : (s.purgeStray dn).Inv := by
  refine ⟨⟨fun d n r k hm => ?_, h.removed, h.nodup.erase dn, ?_, ?_⟩,
    h.started (.purge false) rfl setDentry_self (fun d hd => setDentry_of_ne hd) rfl rfl rfl hn⟩
  · rcases List.mem_append.mp hm with hm | hm
    · exact h.op d n r k hm
    · cases List.mem_singleton.mp hm
  · show (if dn ∈ s.delayedEvalStray then s.numStraysDelayed - 1 else s.numStraysDelayed) = (s.delayedEvalStray.erase dn).length
    split
    · rename_i hm
      rw [List.length_erase_of_mem hm, h.delayed]
    · rename_i hm
      rw [List.erase_of_not_mem hm, h.delayed]
  · show s.numStraysPurging + 1 = (s.ops ++ [(dn, Op.purge false)]).countP fun o => o.2 = .purge false
    rw [countP_concat, h.purging]
    rfl

theorem Idle.truncateStray (h : s.Idle dn) (hn : (s.dentry dn).nlink = 0) (hm : dn ∉ s.delayedEvalStray) :
    (s.truncateStray dn).Inv := by
  refine ⟨⟨fun d n r k hm => ?_, h.removed, h.nodup.erase dn, ?_, ?_⟩,
    h.started (.purge true) rfl setDentry_self (fun d hd => setDentry_of_ne hd) rfl rfl rfl hn⟩
  · rcases List.mem_append.mp hm with hm | hm
    · exact h.op d n r k hm
    · cases List.mem_singleton.mp hm
  · show s.numStraysDelayed = (s.delayedEvalStray.erase dn).length
    rw [List.erase_of_not_mem hm, h.delayed]
  · show s.numStraysPurging = (s.ops ++ [(dn, Op.purge true)]).countP fun o => o.2 = .purge false
    rw [countP_concat, h.purging]
    rfl

/-! ## The evaluation -/

/-- `eval_stray` comes to start a purge or a truncation, unless it is delayed. -/
def evaluated (x : CDentry) : Bool := x.isAuth && x.nlink == 0 && x.opened && x.prunePastParents.ready

def truncates (x : CDentry) : Bool :=
  evaluated x && x.prunePastParents.hasPastParents && (x.isFile && x.size > 0)

def startsPurge (x : CDentry) : Bool := evaluated x && !x.prunePastParents.hasPastParents

theorem prunePastParents_same {x : CDentry} : x.prunePastParents.statePurging = x.statePurging ∧
    x.prunePastParents.inStatePurging = x.inStatePurging ∧ x.prunePastParents.pinPurging = x.pinPurging ∧
    x.prunePastParents.nlink = x.nlink ∧ x.prunePastParents.isFile = x.isFile ∧ x.prunePastParents.size = x.size := by
  unfold CDentry.prunePastParents
  split <;> exact ⟨rfl, rfl, rfl, rfl, rfl, rfl⟩

theorem not_purging_of_ready {x : CDentry} (h : x.ready = true) : x.statePurging = false := by
  unfold CDentry.ready at h
  simp only [Bool.and_eq_true, Bool.not_eq_true'] at h
  exact h.1.1.1.2

/-- What `eval_stray` does, by the checks it makes. -/
theorem evalStray_cases {delay : Bool} (h : s.evalStray dn delay = some s') :
    (s.dentry dn).isPrimary = true ∧ (evaluated (s.dentry dn) = false ∧ (s' = s ∨
        s' = s.setDentry dn (s.dentry dn).prunePastParents) ∨
      evaluated (s.dentry dn) = true ∧ ∃ t, t = s.setDentry dn (s.dentry dn).prunePastParents ∧
        (delay = true ∧ s' = t.delayEvalStray dn ∨ delay = false ∧ (truncates (s.dentry dn) = true ∧ s' = t.truncateStray dn ∨
          startsPurge (s.dentry dn) = true ∧ s' = t.purgeStray dn ∨
          truncates (s.dentry dn) = false ∧ startsPurge (s.dentry dn) = false ∧ s' = t))) := by
  unfold State.evalStray at h
  by_cases hprim : (s.dentry dn).isPrimary = true
  swap
  · rw [if_neg hprim] at h
    cases h
  rw [if_pos hprim] at h
  refine ⟨hprim, ?_⟩
  by_cases hauth : ((s.dentry dn).isAuth && (s.dentry dn).nlink == 0) = true
  swap
  · rw [if_neg hauth] at h
    cases h
    exact .inl ⟨by simp [evaluated, Bool.not_eq_true _ ▸ hauth], .inl rfl⟩
  rw [if_pos hauth] at h
  by_cases hopen : (s.dentry dn).opened = true
  swap
  · rw [if_neg hopen] at h
    cases h
    exact .inl ⟨by simp [evaluated, Bool.not_eq_true _ ▸ hopen], .inl rfl⟩
  rw [if_pos hopen] at h
  obtain ⟨-, -, -, -, hfile, hsize⟩ := prunePastParents_same (x := s.dentry dn)
  simp only [setDentry_self, hfile, hsize] at h
  by_cases hready : (s.dentry dn).prunePastParents.ready = true
  swap
  · rw [if_neg hready] at h
    cases h
    exact .inl ⟨by simp [evaluated, Bool.not_eq_true _ ▸ hready], .inr rfl⟩
  rw [if_pos hready] at h
  have hev : evaluated (s.dentry dn) = true := by simp [evaluated, hauth, hopen, hready]
  refine .inr ⟨hev, _, rfl, ?_⟩
  by_cases hd : delay = true
  · rw [if_pos hd] at h
    cases h
    exact .inl ⟨hd, rfl⟩
  rw [if_neg hd] at h
  refine .inr ⟨Bool.not_eq_true _ ▸ hd, ?_⟩
  by_cases hpast : (s.dentry dn).prunePastParents.hasPastParents = true
  · rw [if_pos hpast] at h
    split at h
    · rename_i hs
      cases h
      exact .inl ⟨by simp [truncates, hev, hpast, hs], rfl⟩
    · rename_i hs
      cases h
      exact .inr (.inr ⟨by simp [truncates, Bool.not_eq_true _ ▸ hs], by simp [startsPurge, hpast], rfl⟩)
  · rw [if_neg hpast] at h
    cases h
    exact .inr (.inl ⟨by simp [startsPurge, hev, Bool.not_eq_true _ ▸ hpast], rfl⟩)

theorem nlink_of_evaluated {x : CDentry} (h : evaluated x = true) :
    x.nlink = 0 ∧ x.prunePastParents.ready = true := by
  unfold evaluated at h
  simp only [Bool.and_eq_true, beq_iff_eq] at h
  exact ⟨h.1.1.2, h.2⟩

theorem Idle.prune (h : s.Idle dn) : (s.setDentry dn (s.dentry dn).prunePastParents).Idle dn := by
  obtain ⟨hs, -, hp, -⟩ := prunePastParents_same (x := s.dentry dn)
  refine ⟨⟨h.op, h.removed, h.nodup, h.delayed, h.purging⟩, fun d hd => ?_, ?_, ?_, h.outstanding⟩
  · obtain ⟨b, hr⟩ := h.row d hd
    exact ⟨b, hr.congr (setDentry_of_ne hd) rfl⟩
  · rw [setDentry_self, hs, h.state]
  · rw [setDentry_self, hp, h.pin]

/-- A stray that is not purging is truncated or purged. -/
theorem Idle.evalStray (h : s.Idle dn) (he : s.evalStray dn false = some s')
    (hstart : startsPurge (s.dentry dn) = true ∨ truncates (s.dentry dn) = true ∧ dn ∉ s.delayedEvalStray) : s'.Inv := by
  obtain ⟨-, ⟨hev, -⟩ | ⟨hev, t, rfl, ⟨hd, -⟩ | ⟨-, hcase⟩⟩⟩ := evalStray_cases he
  · have : evaluated (s.dentry dn) = true := by
      rcases hstart with hst | ⟨hst, -⟩
      · exact (Bool.and_eq_true_iff.mp hst).1
      · exact (Bool.and_eq_true_iff.mp (Bool.and_eq_true_iff.mp hst).1).1
    exact absurd (this.symm.trans hev) (by decide)
  · cases hd
  · have hn : ((s.setDentry dn (s.dentry dn).prunePastParents).dentry dn).nlink = 0 := by
      rw [setDentry_self, prunePastParents_same.2.2.2.1, (nlink_of_evaluated hev).1]
    rcases hcase with ⟨htr, rfl⟩ | ⟨-, rfl⟩ | ⟨htr, hst, -⟩
    · have hm : dn ∉ s.delayedEvalStray := by
        rcases hstart with hst | ⟨-, hm⟩
        · simp [startsPurge] at hst
          simp [truncates, hst.2] at htr
        · exact hm
      exact h.prune.truncateStray hn hm
    · exact h.prune.purgeStray hn
    · rcases hstart with hst' | ⟨htr', -⟩
      · exact absurd (hst'.symm.trans hst) (by decide)
      · exact absurd (htr'.symm.trans htr) (by decide)

theorem Inv.delayEvalStray (h : s.Inv) : (s.delayEvalStray dn).Inv := by
  unfold State.delayEvalStray
  split
  · exact h
  · rename_i hm
    refine ⟨⟨h.op, h.removed, ?_, ?_, h.purging⟩, fun d => ?_⟩
    · exact List.nodup_append.mpr ⟨h.nodup, List.nodup_singleton _, fun x hx y hy hxy => hm (by
        rw [← List.mem_singleton.mp hy, ← hxy]
        exact hx)⟩
    · show s.numStraysDelayed + 1 = (s.delayedEvalStray ++ [dn]).length
      rw [List.length_append, h.delayed]
      rfl
    · obtain ⟨b, hr⟩ := h.row d
      exact ⟨b, hr.congr rfl rfl⟩

/-- A dentry on the delayed list is not truncated. -/
theorem Inv.evalStray {delay : Bool} (h : s.Inv) (he : s.evalStray dn delay = some s')
    (hok : dn ∈ s.delayedEvalStray → delay = true ∨ truncates (s.dentry dn) = false) : s'.Inv := by
  have hprune : (s.setDentry dn (s.dentry dn).prunePastParents).Inv := by
    obtain ⟨hs, hi, hp, hn, -⟩ := prunePastParents_same (x := s.dentry dn)
    exact h.setDentry hs (.inl hi) hp fun _ => hn
  obtain ⟨-, ⟨-, rfl | rfl⟩ | ⟨hev, t, rfl, ⟨-, rfl⟩ | ⟨rfl, hcase⟩⟩⟩ := evalStray_cases he
  · exact h
  · exact hprune
  · exact hprune.delayEvalStray
  · have hidle : s.Idle dn := by
      refine h.idle ?_
      rw [← prunePastParents_same.1]
      exact not_purging_of_ready (nlink_of_evaluated hev).2
    rcases hcase with ⟨htr, -⟩ | ⟨hst, -⟩ | ⟨-, -, rfl⟩
    · refine hidle.evalStray he (.inr ⟨htr, fun hm => ?_⟩)
      rcases hok hm with hd | hf
      · cases hd
      · exact absurd (htr.symm.trans hf) (by decide)
    · exact hidle.evalStray he (.inl hst)
    · exact hprune

theorem evalStray_delayed (h : s.evalStray dn false = some s') (hm : dn ∉ s.delayedEvalStray) :
    s'.delayedEvalStray = s.delayedEvalStray := by
  obtain ⟨-, ⟨-, rfl | rfl⟩ | ⟨-, t, rfl, ⟨hd, -⟩ | ⟨-, ⟨-, rfl⟩ | ⟨-, rfl⟩ | ⟨-, -, rfl⟩⟩⟩⟩ := evalStray_cases h
  · rfl
  · rfl
  · cases hd
  · exact List.erase_of_not_mem hm
  · exact List.erase_of_not_mem hm
  · rfl

/-- The loop of `trim` takes each dentry off the list before it is evaluated. -/
theorem Inv.trimDelayed {l : List ν} (h : s.Inv) (hl : s.delayedEvalStray = l) (he : s.trimDelayed l = some s') : s'.Inv := by
  induction l generalizing s with
  | nil =>
    cases he
    exact h
  | cons dn rest ih =>
    obtain ⟨t, ht, he⟩ := Option.bind_eq_some_iff.mp he
    have hnot : dn ∉ rest := (List.nodup_cons.mp (hl ▸ h.nodup)).1
    have herase : s.delayedEvalStray.erase dn = rest := by
      rw [hl]
      exact List.erase_cons_head ..
    have hinv : ({ s with delayedEvalStray := s.delayedEvalStray.erase dn,
                          numStraysDelayed := s.numStraysDelayed - 1 } : State ν).Inv := by
      refine ⟨⟨h.op, h.removed, h.nodup.erase dn, ?_, h.purging⟩, fun d => ?_⟩
      · show s.numStraysDelayed - 1 = (s.delayedEvalStray.erase dn).length
        rw [List.length_erase_of_mem (hl ▸ List.mem_cons_self), h.delayed]
      · obtain ⟨b, hr⟩ := h.row d
        exact ⟨b, hr.congr rfl rfl⟩
    have hnot' : dn ∉ s.delayedEvalStray.erase dn := herase ▸ hnot
    refine ih (hinv.evalStray ht fun hm => absurd hm hnot') ?_ he
    rw [evalStray_delayed ht hnot']
    exact herase

/-! ## The completions -/

theorem perm_ops {α : Type} {l : List α} {i : ℕ} {a : α} (h : l[i]? = some a) :
    l.Perm (a :: l.eraseIdx i) ∧ ∀ b, (l.set i b).Perm (b :: l.eraseIdx i) := by
  obtain ⟨hi, rfl⟩ := List.getElem?_eq_some_iff.mp h
  exact ⟨(List.getElem_cons_eraseIdx_perm hi).symm, fun b => List.set_perm_cons_eraseIdx hi b⟩

theorem Inv.purging_of_op {i : ℕ} {op : Op} (h : s.Inv) (hi : s.ops[i]? = some (dn, op)) : Row s dn true := by
  obtain ⟨b, hr⟩ := h.row dn
  have hpos : 0 < s.outstanding dn := List.countP_pos_iff.mpr ⟨_, List.mem_of_getElem? hi, decide_eq_true rfl⟩
  cases b with
  | false => exact absurd hr.outstanding (by simp; omega)
  | true => exact hr

/-- An operation goes on as another on the same dentry. -/
theorem Inv.replaced {i n : ℕ} {op' : Op} {x : CDentry} (h : s.Inv) (op : Op) (hi : s.ops[i]? = some (dn, op))
    (hs : x.statePurging = (s.dentry dn).statePurging) (hin : x.inStatePurging = (s.dentry dn).inStatePurging)
    (hp : x.pinPurging = (s.dentry dn).pinPurging) (hn : x.nlink = (s.dentry dn).nlink)
    (hop : ∀ n r d, op' = .remove n r d → n = 0 ∧ r = d)
    (hnum : n + (decide (op = .purge false)).toNat = s.numStraysPurging + (decide (op' = .purge false)).toNat) :
    ({ s.setDentry dn x with ops := s.ops.set i (dn, op'), numStraysPurging := n } : State ν).Inv := by
  obtain ⟨hperm, hset⟩ := perm_ops hi
  have hcount : ∀ (p : ν × Op → Bool) b, (s.ops.set i b).countP p + (p (dn, op)).toNat = s.ops.countP p + (p b).toNat := by
    intro p b
    rw [(hset b).countP_eq p, hperm.countP_eq p, List.countP_cons, List.countP_cons]
    cases p b <;> cases p (dn, op) <;> simp
  refine ⟨⟨fun d m r k hm => ?_, h.removed, h.nodup, h.delayed, ?_⟩, fun d => ?_⟩
  · rcases List.mem_cons.mp ((hset _).mem_iff.mp hm) with he | hm
    · cases he
      exact hop m r k rfl
    · exact h.op d m r k (List.mem_of_mem_eraseIdx hm)
  · show n = (s.ops.set i (dn, op')).countP fun o => o.2 = .purge false
    have hpur : s.numStraysPurging = s.ops.countP fun o => o.2 = .purge false := h.purging
    have hset' : (s.ops.set i (dn, op')).countP (fun o => o.2 = .purge false) + (decide (op = .purge false)).toNat =
        (s.ops.countP fun o => o.2 = .purge false) + (decide (op' = .purge false)).toNat :=
      hcount (fun o => o.2 = .purge false) (dn, op')
    omega
  · have hout : (s.ops.set i (dn, op')).countP (fun o => o.1 = d) = s.outstanding d := by
      have := hcount (fun o => o.1 = d) (dn, op')
      exact Nat.add_right_cancel this
    obtain ⟨b, hr⟩ := (h.setDentry hs (.inl hin) hp fun _ => hn).row d
    exact ⟨b, hr.congr rfl hout⟩

theorem Inv.purgeStrayPurged {i : ℕ} {onlyHead : Bool} (h : s.Inv) (hi : s.ops[i]? = some (dn, .purge onlyHead))
    (hok : onlyHead = false → (s.dentry dn).unused = true) : (s.purgeStrayPurged i dn onlyHead).Inv := by
  unfold State.purgeStrayPurged
  dsimp only
  split
  · rename_i hc
    obtain ⟨hoh, hunused⟩ := Bool.and_eq_true_iff.mp hc
    obtain rfl : onlyHead = false := by simpa using hoh
    have hpos : 0 < s.numStraysPurging := by
      rw [h.purging]
      exact List.countP_pos_iff.mpr ⟨_, List.mem_of_getElem? hi, decide_eq_true rfl⟩
    refine h.replaced (.purge false) hi rfl rfl rfl rfl (fun n r d he => ?_) ?_
    · cases he
      exact ⟨(h.purging_of_op hi).nlink rfl, beq_iff_eq.mp (Bool.and_eq_true_iff.mp hunused).1⟩
    · show s.numStraysPurging - 1 + 1 = s.numStraysPurging + 0
      omega
  · rename_i hc
    have hoh : onlyHead = true := by
      by_contra hoh
      have hoh : onlyHead = false := Bool.not_eq_true _ ▸ hoh
      exact hc (by rw [hoh, hok hoh]; rfl)
    subst hoh
    exact h.replaced (.purge true) (n := s.numStraysPurging) hi rfl rfl rfl rfl nofun rfl

/-- An operation on `dn` is complete. -/
theorem Inv.completed {i : ℕ} {op : Op} {x : CDentry} {l : List Removal} (h : s.Inv) (hi : s.ops[i]? = some (dn, op))
    (hop : op ≠ .purge false) (hs : x.statePurging = false) (hp : x.pinPurging = (s.dentry dn).pinPurging - 1)
    (hl : ∀ r ∈ l, r.nlink = 0 ∧ r.nlinkNow = 0 ∧ r.numRef = r.dirty) :
    ({ s.setDentry dn x with ops := s.ops.eraseIdx i, removed := l } : State ν).Idle dn := by
  obtain ⟨hperm, -⟩ := perm_ops hi
  have hcount : ∀ p : ν × Op → Bool, s.ops.countP p = (s.ops.eraseIdx i).countP p + (p (dn, op)).toNat := by
    intro p
    rw [hperm.countP_eq p, List.countP_cons]
    cases p (dn, op) <;> rfl
  have hrow := h.purging_of_op hi
  have hout : ∀ d, s.outstanding d = (s.ops.eraseIdx i).countP (fun o => o.1 = d) + (decide (dn = d)).toNat :=
    fun d => hcount fun o => o.1 = d
  refine ⟨⟨fun d n r k hm => h.op d n r k (List.mem_of_mem_eraseIdx hm), hl, h.nodup, h.delayed, ?_⟩, fun d hd => ?_, ?_,
    ?_, ?_⟩
  · show s.numStraysPurging = (s.ops.eraseIdx i).countP fun o => o.2 = .purge false
    rw [h.purging]
    have := hcount fun o => o.2 = .purge false
    rwa [decide_eq_false hop] at this
  · obtain ⟨b, hr⟩ := h.row d
    refine ⟨b, hr.congr (setDentry_of_ne hd) ?_⟩
    have := hout d
    rw [decide_eq_false (Ne.symm hd)] at this
    exact this.symm
  · show ((s.setDentry dn x).dentry dn).statePurging = false
    rw [setDentry_self, hs]
  · show ((s.setDentry dn x).dentry dn).pinPurging = 0
    rw [setDentry_self, hp, hrow.pin]
    rfl
  · have := hout dn
    rw [hrow.outstanding, decide_eq_true rfl] at this
    show (s.ops.eraseIdx i).countP (fun o => o.1 = dn) = 0
    exact (Nat.add_right_cancel ((Nat.zero_add 1).trans this)).symm

theorem Idle.inv (dn : ν) (h : s.Idle dn) (hi : (s.dentry dn).inStatePurging = false) : s.Inv := by
  refine ⟨h.toCounted, fun d => ?_⟩
  by_cases hd : d = dn
  · subst hd
    exact ⟨false, h.state, hi, h.pin, h.outstanding, nofun⟩
  · exact h.row d hd

theorem Inv.purgeStrayLogged {i n r k : ℕ} (h : s.Inv) (hi : s.ops[i]? = some (dn, .remove n r k)) :
    (s.purgeStrayLogged i dn n r k).Inv := by
  refine Idle.inv dn (h.completed hi nofun rfl rfl fun x hx => ?_) ?_
  · rcases List.mem_append.mp hx with hx | hx
    · exact h.removed x hx
    · rw [List.mem_singleton.mp hx]
      obtain ⟨hn, hr⟩ := h.op dn n r k (List.mem_of_getElem? hi)
      exact ⟨hn, (h.purging_of_op hi).nlink rfl, hr⟩
  · show ((s.setDentry dn _).dentry dn).inStatePurging = false
    rw [setDentry_self]

/-! ## The runs -/

/-- The condition on a run. A dentry that is on the delayed list is not
truncated; a purge finds no new references when the objects are gone; and a
truncation that is safe is followed at once by a purge or another truncation. -/
def Careful (s : State ν) : Action ν → Prop
  | .evalStray dn delay => dn ∈ s.delayedEvalStray → delay = true ∨ truncates (s.dentry dn) = false
  | .purged i => ∀ dn, s.ops[i]? = some (dn, .purge false) → (s.dentry dn).unused = true
  | .loggedTruncate i => ∀ dn, s.ops[i]? = some (dn, .truncate) →
      startsPurge ((s.truncated i dn).dentry dn) = true ∨
        truncates ((s.truncated i dn).dentry dn) = true ∧ dn ∉ s.delayedEvalStray
  | _ => True

theorem Inv.step {a : Action ν} (h : s.Inv) (hok : s.Careful a) (hs : s.step a = some s') : s'.Inv := by
  cases a with
  | environment dn e =>
    simp only [State.step] at hs
    split at hs
    · cases hs
    · rename_i hc
      cases hs
      refine h.setDentry rfl (.inl rfl) rfl fun hst => ?_
      obtain ⟨b, hr⟩ := h.row dn
      have hin : (s.dentry dn).inStatePurging = true := hr.inState.trans (hr.state.symm.trans hst)
      simpa [hin] using hc
  | linkInode dn e =>
    simp only [State.step] at hs
    split at hs
    · cases hs
    · rename_i hc
      cases hs
      have hst : (s.dentry dn).statePurging = false := (Bool.or_eq_false_iff.mp (Bool.not_eq_true _ ▸ hc)).2
      exact h.setDentry rfl (.inr hst.symm) rfl fun hst' => absurd (hst'.symm.trans hst) (by decide)
  | evalStray dn delay => exact h.evalStray hs hok
  | trim => exact h.trimDelayed rfl hs
  | purged i =>
    simp only [State.step] at hs
    split at hs
    · rename_i dn onlyHead hi
      cases hs
      exact h.purgeStrayPurged hi fun hoh => hok dn (hoh ▸ hi)
    · cases hs
  | logged i =>
    simp only [State.step] at hs
    split at hs
    · rename_i dn n r k hi
      split at hs
      · cases hs
      · cases hs
        exact h.purgeStrayLogged hi
    · cases hs
  | loggedTruncate i =>
    simp only [State.step] at hs
    split at hs
    · rename_i dn hi
      exact (h.completed hi nofun rfl rfl h.removed).evalStray hs (hok dn hi)
    · cases hs

/-- The strays as they are scanned, or made: nothing has been started. -/
def initial (dentry : ν → CDentry) : State ν where
  dentry dn := { dentry dn with statePurging := false, pinPurging := 0, inStatePurging := false }
  delayedEvalStray := []
  numStraysDelayed := 0
  numStraysPurging := 0
  ops := []
  removed := []

theorem inv_initial {dentry : ν → CDentry} : (initial dentry).Inv :=
  ⟨⟨nofun, nofun, .nil, rfl, rfl⟩, fun _ => ⟨false, rfl, rfl, rfl, rfl, nofun⟩⟩

/-- The flags, the pin and the operations agree, no inode is removed that is
linked or referenced, and the counters are right; a purge counts until it is
done with the objects. -/
def LifeCycle (s : State ν) : Prop :=
  (∀ dn, ((s.dentry dn).statePurging = true ↔ s.outstanding dn = 1) ∧
    ((s.dentry dn).statePurging = true ↔ (s.dentry dn).pinPurging = 1) ∧
    ((s.dentry dn).statePurging = true ↔ (s.dentry dn).inStatePurging = true) ∧
    s.outstanding dn ≤ 1 ∧ (s.dentry dn).pinPurging ≤ 1) ∧
  (∀ r ∈ s.removed, r.nlink = 0 ∧ r.nlinkNow = 0 ∧ r.numRef = r.dirty) ∧
  s.numStraysDelayed = s.delayedEvalStray.length ∧ s.numStraysPurging = s.purges

theorem Inv.lifeCycle (h : s.Inv) : s.LifeCycle := by
  refine ⟨fun dn => ?_, h.removed, h.delayed, h.purging⟩
  obtain ⟨b, hr⟩ := h.row dn
  rw [hr.state, hr.outstanding, hr.pin, hr.inState]
  cases b <;> decide

/-- In every run whose steps all meet the condition. -/
theorem run_lifeCycle {dentry : ν → CDentry} {as : List (Action ν)} (hok : Meets step Careful (initial dentry) as)
    (h : run step (initial dentry) as = some s) : s.LifeCycle := by
  have hinv : s.Inv := run_invariant_of (fun _ _ _ hi hok hs => hi.step hok hs) inv_initial hok h
  exact hinv.lifeCycle

/-! ## Three strays -/

/-- A file without links, of size 1, with past parents or not. -/
def unlinkedFile (pastParents : Bool) : CDentry where
  isAuth := true
  isReplicated := false
  isAnyLeases := false
  isNew := false
  isDirty := false
  refs := 0
  nlink := 0
  isDir := false
  isFile := true
  isAnyCaps := false
  hasPastParents := pastParents
  havePastParentsOpen := true
  prunable := false
  stateNeedsrecover := false
  stateRecovering := false
  inDirty := false
  inDirtyParent := false
  inRefs := 0
  size := 1
  isPrimary := true
  statePurging := false
  pinPurging := 0
  inStatePurging := false

/-- The file is purged from the delayed list. -/
theorem run_lifeCycle_purged : ∃ s : State ℕ, run step (initial fun _ => unlinkedFile false)
    [.evalStray 0 true, .trim, .purged 0, .logged 0] = some s ∧ s.removed = [⟨0, 0, 0, 0⟩] ∧ s.LifeCycle := by
  have hrun : ∃ s : State ℕ, run step (initial fun _ => unlinkedFile false)
      [.evalStray 0 true, .trim, .purged 0, .logged 0] = some s ∧ s.removed = [⟨0, 0, 0, 0⟩] := ⟨_, rfl, rfl⟩
  have hok : Meets step Careful (initial fun _ : ℕ => unlinkedFile false) [.evalStray 0 true, .trim, .purged 0, .logged 0] := by
    refine ⟨fun _ => .inl rfl, fun t ht => ⟨trivial, fun u hu => ⟨fun dn hdn => ?_, fun v hv => ⟨trivial, fun _ _ => trivial⟩⟩⟩⟩
    cases ht
    cases hu
    obtain rfl : (0 : ℕ) = dn := congrArg Prod.fst (Option.some.inj hdn)
    rfl
  obtain ⟨s, hrun, hr⟩ := hrun
  exact ⟨s, hrun, hr, run_lifeCycle hok hrun⟩

/-- A truncation leaves the inode purging; a purge that finds a new reference
leaves `num_strays_purging`; and a truncation from the delayed list leaves `num_strays_delayed`. -/
theorem not_run_lifeCycle :
    (∃ s : State ℕ, run step (initial fun _ => unlinkedFile true) [.evalStray 0 false, .purged 0, .loggedTruncate 0] =
      some s ∧ (s.dentry 0).statePurging = false ∧ (s.dentry 0).inStatePurging = true ∧ ¬ s.LifeCycle) ∧
    (∃ s : State ℕ, run step (initial fun _ => unlinkedFile false) [.evalStray 0 false,
      .environment 0 { (unlinkedFile false).toEnv with inRefs := 1 }, .purged 0, .loggedTruncate 0] =
      some s ∧ s.numStraysPurging = 1 ∧ s.ops = [] ∧ ¬ s.LifeCycle) ∧
    (∃ s : State ℕ, run step (initial fun _ => unlinkedFile true) [.evalStray 0 true, .evalStray 0 false] = some s ∧
      s.numStraysDelayed = 1 ∧ s.delayedEvalStray = [] ∧ ¬ s.LifeCycle) := by
  refine ⟨⟨_, rfl, rfl, rfl, fun h => ?_⟩, ⟨_, rfl, rfl, rfl, fun h => ?_⟩, ⟨_, rfl, rfl, rfl, fun h => ?_⟩⟩
  · exact absurd ((h.1 0).2.2.1.mpr rfl) (by decide)
  · exact absurd h.2.2.2 (by decide)
  · exact absurd h.2.2.1 (by decide)

end CephMds.Strays.State
