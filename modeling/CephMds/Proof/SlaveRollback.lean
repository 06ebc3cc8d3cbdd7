import CephMds.Model.SlaveRollback
import CephMds.Proof.Stat
import CephMds.Proof.Subtree.Reachable

/-!
# What a rollback restores

The climb of a slave link touches the parent of the inode and what is above
it, and of the parent only the rstat (`predirty_spec`): so the rollback finds
the ctime that the link has set, and the fragstat as it was. Pending recursive
statistics of the inode that the climb has carried to the parent stay there.
A removal carries the fragments of the directory from below one subtree root to
below another, and its rollback carries them back; `Carried` says what becomes
of the authority of each, and `carried_frag` what is left of both. A removal
that is not journaled leaves the inode with the first of the stray dentry. The
result is `slaveRollbacks_restore_iff`.
-/

namespace CephMds.SlaveRollback

open Checked Stat
open SlaveRename (Linkage)

/-! ## The climb of a link -/

section Climb

variable {ι α : Type} [DecidableEq ι] [DecidableEq α] {t : Names ι α} {locks : Locks α} {stamp : ℕ}
  {s s' : Stats ι α} {l : Level ι α} {d last : α} {pin i : ι}

/-- A climb touches no fragment and no inode below its first level. -/
theorem climb_above {fuel : ℕ} (h : Stat.climb t locks stamp fuel s l = .ok (s', last)) :
    (∀ e, t.depth l.parent < t.depth e → s'.fnode e = s.fnode e) ∧
      ∀ j, j ≠ l.cur → (∀ e, t.inode e = some j → t.depth l.parent < t.depth e) → s'.inode j = s.inode j := by
  induction fuel generalizing s l with
  | zero => cases h
  | succ fuel ih =>
    obtain ⟨pin, hd, -⟩ := bind_ok.mp h
    rw [deref_ok] at hd
    rw [climb_succ hd] at h
    have hpin : ∀ j, (∀ e, t.inode e = some j → t.depth l.parent < t.depth e) → j ≠ pin := by
      rintro j hj rfl
      exact absurd (hj _ hd) (lt_irrefl _)
    obtain ⟨f, n, hf, -⟩ := touchFrag_eq s locks stamp l pin
    set s₁ := touchFrag s locks stamp l pin
    have h₁ : (∀ e, t.depth l.parent < t.depth e → s₁.fnode e = s.fnode e) ∧
        ∀ j, j ≠ l.cur → s₁.inode j = s.inode j := by
      refine ⟨fun e he => ?_, fun j hj => ?_⟩
      · rw [hf, setInode_fnode, setFnode_fnode, Function.update_of_ne (fun h => (lt_irrefl _ (h ▸ he)))]
      · rw [hf, setInode_inode, Function.update_of_ne hj, setFnode_inode]
    by_cases hstop : locks.stop l.parent = true
    · rw [if_pos hstop] at h
      rw [← (Prod.mk.inj (Except.ok.inj h)).1]
      exact ⟨h₁.1, fun j hj _ => h₁.2 j hj⟩
    rw [if_neg hstop] at h
    obtain ⟨g, m, hg, -⟩ := touchDirstat_eq t s₁ l.parent pin
    set s₂ := if l.counts then touchDirstat t s₁ l.parent pin else s₁ with hs₂
    have h₂ : (∀ e, t.depth l.parent < t.depth e → s₂.fnode e = s.fnode e) ∧
        ∀ j, j ≠ l.cur → (∀ e, t.inode e = some j → t.depth l.parent < t.depth e) →
          s₂.inode j = s.inode j := by
      rw [hs₂]
      split
      · refine ⟨fun e he => ?_, fun j hj hb => ?_⟩
        · rw [hg, setInode_fnode, setFnode_fnode, Function.update_of_ne (fun h => (lt_irrefl _ (h ▸ he))), h₁.1 e he]
        · rw [hg, setInode_inode, Function.update_of_ne (hpin j hb), setFnode_inode, h₁.2 j hj]
      · exact ⟨h₁.1, fun j hj _ => h₁.2 j hj⟩
    by_cases hb : t.isBase pin = true
    · simp only [hb, if_true] at h
      rw [← (Prod.mk.inj (Except.ok.inj h)).1]
      exact h₂
    simp only [hb] at h
    obtain ⟨q, hq, h⟩ := bind_ok.mp h
    rw [deref_ok] at hq
    have hlt : t.depth q < t.depth l.parent := t.depth_lt hd hq
    obtain ⟨k, o, hk, -⟩ := touchInodeRstat_eq t s₂ l.parent pin
    obtain ⟨hfn, hin⟩ := ih h
    refine ⟨fun e he => ?_, fun j hj hb => ?_⟩
    · rw [hfn e (hlt.trans he)]
      split
      · rw [hk, setInode_fnode, setFnode_fnode, Function.update_of_ne (fun h => (lt_irrefl _ (h ▸ he))), h₂.1 e he]
      · exact h₂.1 e he
    · rw [hin j (hpin j hb) fun e he => hlt.trans (hb e he)]
      split
      · rw [hk, setInode_inode, Function.update_of_ne (hpin j hb), setFnode_inode, h₂.2 j hj hb]
      · exact h₂.2 j hj hb

/-- It returns where the way to the top is cached. -/
theorem climb_returns (locks : Locks α) (stamp : ℕ) {fuel : ℕ} (hr : Rooted t d) (hl : l.parent = d)
    (hfuel : t.depth d < fuel) : ∃ r, Stat.climb t locks stamp fuel s l = .ok r := by
  induction hr generalizing s l fuel with
  | @base d pin hd hb =>
    subst hl
    obtain ⟨fuel, rfl⟩ := Nat.exists_eq_add_one_of_ne_zero (Nat.ne_zero_of_lt hfuel)
    rw [climb_succ hd]
    split
    · exact ⟨_, rfl⟩
    · exact ⟨_, rfl⟩
  | @under d q pin hd hb hq hr ih =>
    subst hl
    obtain ⟨fuel, rfl⟩ := Nat.exists_eq_add_one_of_ne_zero (Nat.ne_zero_of_lt hfuel)
    rw [climb_succ hd]
    split
    · exact ⟨_, rfl⟩
    · simp only [hb, hq, deref_some_bind, Bool.false_eq_true, if_false]
      refine ih rfl ?_
      have := t.depth_lt hd hq
      omega

/-- The rstat of the parent after the climb of a link: what is pending in the
inode is added if the nestlock can be written. -/
def climbedRstat (t : Names ι α) (locks : Locks α) (s : Stats ι α) (i : ι) (parent : α) (pin : ι) : NestInfo :=
  let pf := s.fnode parent
  let pi := s.inode i
  { version :=
      if pf.accountedRstat.version ≠ (s.inode pin).rstat.version ∧
          (locks.writable parent = true ∨ locks.stop parent = false ∧ t.isBase pin = false) then
        (s.inode pin).rstat.version
      else pf.rstat.version
    rctime :=
      if locks.writable parent = true then max pf.rstat.rctime (max pi.rstat.rctime pi.accountedRstat.rctime)
      else pf.rstat.rctime
    count :=
      if locks.writable parent = true then pf.rstat.count + (pi.rstat.count - pi.accountedRstat.count)
      else pf.rstat.count }

omit [DecidableEq ι] in
theorem resync_rstat (s : Stats ι α) (d : α) (pin : ι) : ((resyncAccountedRstat s d pin).fnode d).rstat =
    if (s.fnode d).accountedRstat.version ≠ (s.inode pin).rstat.version then
      { (s.fnode d).rstat with version := (s.inode pin).rstat.version }
    else (s.fnode d).rstat := by
  rw [resyncAccountedRstat]
  split
  · rw [setFnode_fnode, Function.update_self]
  · rfl

/-- The first level of a link, before it is known whether the climb stops. -/
theorem touchRstat_link (hpin : pin ≠ i) (w : Bool) :
    ((touchRstat s i d pin true 0 w).fnode d).rstat =
      (if w then
        { ((resyncAccountedRstat s d pin).fnode d).rstat with
          rctime := max (s.fnode d).rstat.rctime (max (s.inode i).rstat.rctime (s.inode i).accountedRstat.rctime)
          count := (s.fnode d).rstat.count + ((s.inode i).rstat.count - (s.inode i).accountedRstat.count) }
      else (s.fnode d).rstat) ∧
    ((touchRstat s i d pin true 0 w).fnode d).accountedRstat.version =
      (if w then (s.inode pin).rstat.version else (s.fnode d).accountedRstat.version) ∧
    ((touchRstat s i d pin true 0 w).inode pin).rstat = (s.inode pin).rstat ∧
    ((touchRstat s i d pin true 0 w).inode i).ctime = (s.inode i).ctime := by
  cases w with
  | false =>
    simp only [touchRstat, Bool.not_true, Bool.false_eq_true, if_false, decide_true, Bool.not_false, Bool.and_self,
      if_true, setInode_fnode, setInode_inode, Function.update_self, Function.update_of_ne hpin, and_self]
  | true =>
    obtain ⟨f, hf, -, -, hc, hv, -⟩ := resyncAccountedRstat_eq s d pin
    have hr := resync_rstat s d pin
    rw [hf, setFnode_fnode, Function.update_self] at hr
    have ht : f.rstat.rctime = (s.fnode d).rstat.rctime := by
      rw [hr]
      split <;> rfl
    simp only [touchRstat, Bool.not_true, Bool.false_eq_true, if_false, Bool.and_false, if_true, hf,
      projectRstatInodeToFrag, setInode_fnode, setInode_inode, setFnode_fnode, setFnode_inode, Function.update_self,
      Function.update_of_ne hpin, NestInfo.add, NestInfo.sub, NestInfo.zero, ht, hc, hv, zero_add, Nat.zero_max,
      and_self]

/-- What a link's climb does to the parent and to the inode. -/
theorem predirty_link (hp : t.parentDir i = some d) (hr : Rooted t d) (hd : t.inode d = some pin) (locks : Locks α)
    (stamp : ℕ) (s : Stats ι α) : ∃ s' o,
    predirtyJournalParents t locks stamp s i none true false true 0 = .ok (s', o) ∧
    (s'.fnode d).fragstat = (s.fnode d).fragstat ∧ (s'.fnode d).rstat = climbedRstat t locks s i d pin ∧
    (s'.inode i).ctime = (s.inode i).ctime := by
  have hbase : t.isBase i = false := by
    rw [Bool.eq_false_iff]
    intro hb
    rw [t.base_parent hb] at hp
    cases hp
  have hpin : pin ≠ i := by
    rintro rfl
    exact absurd (t.depth_lt hd hp) (lt_irrefl _)
  obtain ⟨⟨s', last⟩, h⟩ := climb_returns (s := s) (l := ⟨i, d, t.isDir i, true, false, 0⟩) locks stamp hr rfl
    (Nat.lt_succ_self _)
  refine ⟨s', some last, ?_, ?_⟩
  · rw [predirtyJournalParents, if_neg (by rw [hbase]; exact Bool.false_ne_true), hp]
    simp only [assert, deref, bind, Except.bind, Option.none_or, Bool.or_true, if_true, Bool.not_true,
      Bool.and_false, Bool.false_and, Bool.false_eq_true, if_false, h]
    rfl
  obtain ⟨f, n, hf, hff, -⟩ := touchRstat_eq s i d pin true 0 (locks.writable d)
  obtain ⟨hrstat, hver, hpv, hctime⟩ := touchRstat_link (s := s) (d := d) hpin (locks.writable d)
  have hfrag : ((touchRstat s i d pin true 0 (locks.writable d)).fnode d).fragstat = (s.fnode d).fragstat := by
    rw [hf, setInode_fnode, setFnode_fnode, Function.update_self, hff]
  rw [climb_succ hd] at h
  change (if locks.stop d then _ else _) = _ at h
  set s₁ := touchRstat s i d pin true 0 (locks.writable d) with hs₁
  have hstays : locks.stop d = true ∨ t.isBase pin = true → (s₁.fnode d).rstat = climbedRstat t locks s i d pin := by
    intro hb
    have hno : ¬ (locks.stop d = false ∧ t.isBase pin = false) := by
      rintro ⟨h₁, h₂⟩
      rw [h₁, h₂] at hb
      simp at hb
    rw [hrstat, climbedRstat, resync_rstat]
    simp only [hno, or_false]
    by_cases hw : locks.writable d = true
    · by_cases hv : (s.fnode d).accountedRstat.version ≠ (s.inode pin).rstat.version
      · simp [hw, hv]
      · simp [hw, hv]
    · simp [hw]
  by_cases hstop : locks.stop d = true
  · rw [if_pos hstop] at h
    cases h
    exact ⟨hfrag, hstays (.inl hstop), hctime⟩
  rw [if_neg hstop] at h
  by_cases hb : t.isBase pin = true
  · simp only [hb, if_true] at h
    cases h
    exact ⟨hfrag, hstays (.inr hb), hctime⟩
  simp only [hb] at h
  obtain ⟨q, hq, h⟩ := bind_ok.mp h
  rw [deref_ok] at hq
  have hlt : t.depth q < t.depth d := t.depth_lt hd hq
  obtain ⟨hfn, hin⟩ := climb_above h
  obtain ⟨g, m, hg, -, hgf, -, hgr⟩ := touchInodeRstat_eq t s₁ d pin
  have hself : s'.fnode d = g := by
    rw [hfn d hlt]
    change (touchInodeRstat t s₁ d pin).fnode d = g
    rw [hg, setInode_fnode, setFnode_fnode, Function.update_self]
  refine ⟨by rw [hself, hgf, hfrag], ?_, ?_⟩
  · rw [hself, hgr, resync_rstat, hver, hpv, hrstat, climbedRstat, resync_rstat]
    have hgo : locks.stop d = false ∧ t.isBase pin = false := ⟨Bool.eq_false_iff.mpr hstop, Bool.eq_false_iff.mpr hb⟩
    by_cases hw : locks.writable d = true
    · by_cases hv : (s.fnode d).accountedRstat.version ≠ (s.inode pin).rstat.version
      · simp [hw, hv]
      · simp [hw, hv]
    · by_cases hv : (s.fnode d).accountedRstat.version ≠ (s.inode pin).rstat.version
      · simp [hw, hv, hgo]
      · simp [hw, hv]
  · rw [hin i hpin.symm fun e he => hlt.trans (t.depth_lt he hp)]
    change ((touchInodeRstat t s₁ d pin).inode i).ctime = _
    rw [hg, setInode_inode, Function.update_of_ne hpin.symm, setFnode_inode, hctime]

end Climb

/-! ## A link and its rollback -/

section Link

variable {ι α : Type} [DecidableEq ι] [DecidableEq α] {t : Names ι α} {locks : Locks α} {stamp : ℕ}
  {s s' : LinkSlave ι α} {d : α} {pin i : ι} {inc : Bool}

omit [DecidableEq α] in
theorem climbedRstat_ctime (t : Names ι α) (locks : Locks α) (s : Stats ι α) (i : ι) (d : α) (pin : ι) (stamp : ℕ) :
    climbedRstat t locks (s.setInode i { s.inode i with ctime := stamp }) i d pin = climbedRstat t locks s i d pin := by
  have hr : ∀ j, ((s.setInode i { s.inode i with ctime := stamp }).inode j).rstat = (s.inode j).rstat := by
    intro j
    rw [setInode_inode, Function.update_apply]
    split
    · rename_i hj
      rw [hj]
    · rfl
  have ha : ((s.setInode i { s.inode i with ctime := stamp }).inode i).accountedRstat = (s.inode i).accountedRstat := by
    rw [setInode_inode, Function.update_self]
  simp only [climbedRstat, hr, ha, setInode_fnode]

/-- The rollback finds the stamp of the link, and takes back what it has changed. -/
theorem linkAndRollback_eq (hp : t.parentDir i = some d) (hr : Rooted t d) (hd : t.inode d = some pin)
    (hs : s.projected = none) (locks : Locks α) (stamp : ℕ) (inc : Bool) : ∃ s',
    linkAndRollback t locks stamp s i inc = .ok s' ∧ s'.projected = none ∧ s'.fields.nlink = s.fields.nlink ∧
    (s'.fields.stats.inode i).ctime = (s.fields.stats.inode i).ctime ∧
    (s'.fields.stats.fnode d).fragstat = (s.fields.stats.fnode d).fragstat ∧
    (s'.fields.stats.fnode d).rstat =
      if (s.fields.stats.fnode d).fragstat.mtime = stamp ∧
          (climbedRstat t locks s.fields.stats i d pin).rctime = stamp then
        { climbedRstat t locks s.fields.stats i d pin with rctime := (s.fields.stats.fnode d).rstat.rctime }
      else climbedRstat t locks s.fields.stats i d pin := by
  obtain ⟨v, p⟩ := s
  obtain rfl : p = none := hs
  obtain ⟨s₁, o, h₁, hf, hrstat, hc⟩ := predirty_link hp hr hd locks stamp
    (v.stats.setInode i { v.stats.inode i with ctime := stamp })
  rw [climbedRstat_ctime] at hrstat
  rw [setInode_inode, Function.update_self] at hc
  rw [setInode_fnode] at hf
  simp only [linkAndRollback, handleSlaveLinkPrep, hp, h₁, loggedSlaveLink, linkRollbackFinish, LinkSlave.apply,
    doLinkRollback, bind, Except.bind, pure, Except.pure, assert, Option.isSome_some, if_true, LinkSlave.latest,
    Option.getD_none, Option.getD_some, Option.isNone_none, deref]
  refine ⟨_, rfl, rfl, ?_, ?_, ?_, ?_⟩
  · simp only [Function.update_self, Function.update_idem]
    cases inc <;> simp
  · simp only [setInode_inode, Function.update_self]
  · simp only [setInode_fnode, setFnode_fnode, Function.update_self, hc, restoreTimes]
    split
    · rw [hf]
    · exact hf
  · simp only [setInode_fnode, setFnode_fnode, Function.update_self, hc, restoreTimes, hf, hrstat]
    split
    · rename_i hm
      simp only [hm, true_and]
    · rename_i hm
      simp only [hm, false_and, if_false, hrstat]

/-- What is restored of the inode `i` and of its parent `d`, a fragment of
`pin`: not the recursive statistics that were pending in the inode. -/
structure LinkRestored (locks : Locks α) (t : Names ι α) (stamp : ℕ) (s s' : Fields ι α) (i : ι) (d : α) (pin : ι) :
    Prop where
  nlink : s'.nlink = s.nlink
  ctime : (s'.stats.inode i).ctime = (s.stats.inode i).ctime
  fragstat : (s'.stats.fnode d).fragstat = (s.stats.fnode d).fragstat
  count : (s'.stats.fnode d).rstat.count = (s.stats.fnode d).rstat.count ↔
    (locks.writable d = true → (s.stats.inode i).rstat.count = (s.stats.inode i).accountedRstat.count)
  rctime : (s'.stats.fnode d).rstat.rctime = (s.stats.fnode d).rstat.rctime ↔
    (locks.writable d = true →
      max (s.stats.inode i).rstat.rctime (s.stats.inode i).accountedRstat.rctime ≤ (s.stats.fnode d).rstat.rctime ∨
      (s.stats.fnode d).fragstat.mtime = stamp ∧
        max (s.stats.inode i).rstat.rctime (s.stats.inode i).accountedRstat.rctime = stamp)
  version : (s'.stats.fnode d).rstat.version = (s.stats.fnode d).rstat.version ↔
    ((s.stats.fnode d).accountedRstat.version ≠ (s.stats.inode pin).rstat.version →
      locks.writable d = true ∨ locks.stop d = false ∧ t.isBase pin = false →
      (s.stats.fnode d).rstat.version = (s.stats.inode pin).rstat.version)

/-- All that a link changes is as it was. -/
structure LinkUndone (s s' : Fields ι α) (i : ι) (d : α) : Prop where
  nlink : s'.nlink = s.nlink
  ctime : (s'.stats.inode i).ctime = (s.stats.inode i).ctime
  fragstat : (s'.stats.fnode d).fragstat = (s.stats.fnode d).fragstat
  rstat : (s'.stats.fnode d).rstat = (s.stats.fnode d).rstat

/-- The climb has nothing to carry to the parent: the inode has nothing pending, or the parent cannot be
written, and the parent is not stale. -/
structure Quiet (locks : Locks α) (t : Names ι α) (stamp : ℕ) (s : Fields ι α) (i : ι) (d : α) (pin : ι) : Prop where
  count : locks.writable d = true → (s.stats.inode i).rstat.count = (s.stats.inode i).accountedRstat.count
  rctime : locks.writable d = true →
    max (s.stats.inode i).rstat.rctime (s.stats.inode i).accountedRstat.rctime ≤ (s.stats.fnode d).rstat.rctime ∨
    (s.stats.fnode d).fragstat.mtime = stamp ∧
      max (s.stats.inode i).rstat.rctime (s.stats.inode i).accountedRstat.rctime = stamp
  version : (s.stats.fnode d).accountedRstat.version ≠ (s.stats.inode pin).rstat.version →
    locks.writable d = true ∨ locks.stop d = false ∧ t.isBase pin = false →
    (s.stats.fnode d).rstat.version = (s.stats.inode pin).rstat.version

omit [DecidableEq ι] [DecidableEq α] in
theorem LinkRestored.undone_iff {f f' : Fields ι α} (h : LinkRestored locks t stamp f f' i d pin) :
    LinkUndone f f' i d ↔ Quiet locks t stamp f i d pin := by
  constructor
  · intro hu
    exact ⟨h.count.mp (congrArg NestInfo.count hu.rstat), h.rctime.mp (congrArg NestInfo.rctime hu.rstat),
      h.version.mp (congrArg NestInfo.version hu.rstat)⟩
  · intro hq
    exact ⟨h.nlink, h.ctime, h.fragstat,
      NestInfo.ext (h.version.mpr hq.version) (h.rctime.mpr hq.rctime) (h.count.mpr hq.count)⟩

theorem linkRestored (hp : t.parentDir i = some d) (hr : Rooted t d) (hd : t.inode d = some pin)
    (hs : s.projected = none) (locks : Locks α) (stamp : ℕ) (inc : Bool) : ∃ s',
    linkAndRollback t locks stamp s i inc = .ok s' ∧ s'.projected = none ∧
    LinkRestored locks t stamp s.fields s'.fields i d pin := by
  obtain ⟨s', hs', hnone, hn, hc, hf, hrstat⟩ := linkAndRollback_eq hp hr hd hs locks stamp inc
  have hcount : (s'.fields.stats.fnode d).rstat.count = (climbedRstat t locks s.fields.stats i d pin).count := by
    rw [hrstat]
    split <;> rfl
  have hversion : (s'.fields.stats.fnode d).rstat.version = (climbedRstat t locks s.fields.stats i d pin).version := by
    rw [hrstat]
    split <;> rfl
  refine ⟨s', hs', hnone, hn, hc, hf, ?_, ?_, ?_⟩
  · rw [hcount, climbedRstat]
    by_cases hw : locks.writable d = true
    · simp only [hw, if_true, forall_const, add_eq_left, sub_eq_zero]
    · simp only [hw, Bool.false_eq_true, if_false, false_imp_iff]
  · rw [hrstat, climbedRstat]
    by_cases hw : locks.writable d = true
    · simp only [hw, if_true, forall_const]
      split
      · rename_i h
        simp only [true_iff]
        omega
      · rename_i h
        simp only
        omega
    · simp only [hw, Bool.false_eq_true, if_false, false_imp_iff, iff_true]
      split <;> rfl
  · rw [hversion, climbedRstat]
    split
    · rename_i h
      exact ⟨fun he _ _ => he.symm, fun he => (he h.1 h.2).symm⟩
    · rename_i h
      exact ⟨fun _ hv hw => absurd ⟨hv, hw⟩ h, fun _ => rfl⟩

end Link

/-! ## The subtree map, there and back -/

section Map

variable {ι α L : Type} {I : InodeAuthority ι α} {c c₁ c₂ : Cache ι α L} {t t' : DirTree ι α} {i : ι} {o n O N d : α}

open Cache

theorem reparented_symm (h : Reparented t t' i o n) : Reparented t' t i n o :=
  ⟨h.inode.symm, h.dirfrags.symm, h.new, h.old, fun hj => (h.other hj).symm⟩

/-- The roots above the two parents are no fragments of the inode. -/
theorem root_not_frag (h : Reparented t t' i o n) {m : α → Bool}
    (hr : t.forest.nearest m o = some d ∨ t.forest.nearest m n = some d) : t.inode d ≠ some i := by
  intro hd
  obtain ⟨ho, hn⟩ := h.parent_frag d hd
  have h₁ := t.forest.depth_lt ho
  have h₂ := t'.forest.depth_lt hn
  rcases hr with hr | hr
  · have := t.forest.nearest_depth hr
    omega
  · rw [← h.nearest_new] at hr
    have := t'.forest.nearest_depth hr
    omega

/-- The roots above the parents stay what they are. -/
theorem Carried.roots (hR : Reparented c.tree c₁.tree i o n) (hc : Carried i O N c c₁) :
    c₁.getSubtreeRoot o = c.getSubtreeRoot o ∧ c₁.getSubtreeRoot n = c.getSubtreeRoot n := by
  have hm : ∀ x, c.tree.inode x ≠ some i → c₁.isSubtreeRoot x = c.isSubtreeRoot x := fun x hx => by
    rw [isSubtreeRoot, isSubtreeRoot, hc.same (.inl hx)]
  refine ⟨?_, ?_⟩
  · rw [getSubtreeRoot, getSubtreeRoot, hR.nearest_old_congr hm, hR.nearest_old]
  · rw [getSubtreeRoot, getSubtreeRoot, hR.nearest_new_congr hm, hR.nearest_new]

/-- What is left of the authority of a fragment, there and back. -/
theorem carried_frag (hR : Reparented c.tree c₁.tree i o n) (hO : c.getSubtreeRoot o = some O)
    (hN : c.getSubtreeRoot n = some N) (hc₁ : Carried i O N c c₁) (hc₂ : Carried i N O c₁ c₂)
    (he : c₁.exportBound = c.exportBound) (hne : O ≠ N) (hd : c.tree.inode d = some i) :
    c₂.dirAuth d = c.dirAuth d ↔ if c.isSubtreeRoot d then ¬ Mergeable c d
      else c.dirAuth O ≠ c.dirAuth N → (c.dirAuth O).second = cdirAuthUnknown ∧ c.exportBound d = false := by
  have hOd : c₁.dirAuth O = c.dirAuth O := hc₁.same (.inl (root_not_frag hR (.inl hO)))
  have hNd : c₁.dirAuth N = c.dirAuth N := hc₁.same (.inl (root_not_frag hR (.inr hN)))
  have hOr : c.dirAuth O ≠ cdirAuthDefault := isSubtreeRoot_iff.mp (c.tree.forest.nearest_marked hO)
  have hNr : c.dirAuth N ≠ cdirAuthDefault := isSubtreeRoot_iff.mp (c.tree.forest.nearest_marked hN)
  have habove : c.rootAbove d = some O := (c.tree.forest.above_of_parent (hR.parent_frag d hd).1).trans hO
  have h₁ := hc₁.frag hd hne
  have hM : Mergeable c d ↔ c.dirAuth O = c.dirAuth d ∧ (c.dirAuth d).second = cdirAuthUnknown ∧ c.exportBound d = false := by
    refine ⟨?_, fun hm => ⟨O, habove, hm⟩⟩
    rintro ⟨r, hr, hm⟩
    cases habove.symm.trans hr
    exact hm
  rw [hc₂.frag (by rw [hR.inode]; exact hd) hne.symm, renamedAuth, he, hOd, hNd, isSubtreeRoot, h₁, renamedAuth, hM]
  by_cases hroot : c.isSubtreeRoot d = true
  · have ha := isSubtreeRoot_iff.mp hroot
    simp only [hroot, if_true]
    by_cases hm : c.dirAuth N = c.dirAuth d ∧ (c.dirAuth d).second = cdirAuthUnknown ∧ c.exportBound d = false
    · -- Merged below `N`, it is split off again, unless `O` has the same authority.
      rw [if_pos hm, bne_self_eq_false, if_neg Bool.false_ne_true, hm.1]
      by_cases hA : c.dirAuth O = c.dirAuth d
      · simp [hA, hm.2, ha.symm]
      · simp [hA, Ne.symm hA]
    · simp only [if_neg hm, bne_iff_ne.mpr ha, if_true]
      split
      · rename_i h
        simp [h, ha.symm]
      · rename_i h
        simp [h]
  · have ha : c.dirAuth d = cdirAuthDefault := by simpa [isSubtreeRoot] using hroot
    simp only [hroot, Bool.false_eq_true, if_false, ha]
    by_cases hAB : c.dirAuth O ≠ c.dirAuth N
    · -- Split off below `N`, it is merged again, unless its authority is not settled.
      simp only [if_pos hAB, bne_iff_ne.mpr hOr, if_true, true_and]
      split
      · rename_i h
        simp [h]
      · rename_i h
        exact ⟨fun he => absurd he hOr, fun hs => absurd (hs hAB) h⟩
    · simp [not_not.mp hAB]

/-- The fragments of the inode come back as they were: none of them is a root
that could have been merged with the one above, and one that is no root can be
merged again. -/
def MapKept (c : Cache ι α L) (i : ι) (O N : α) : Prop :=
  O = N ∨ ∀ d, c.tree.inode d = some i → if c.isSubtreeRoot d then ¬ Mergeable c d
    else c.dirAuth O ≠ c.dirAuth N → (c.dirAuth O).second = cdirAuthUnknown ∧ c.exportBound d = false

/-- The same authorities in the same tree are the same map. -/
theorem subtrees_eq (h : Inv c) (h' : Inv c₁) (ht : c₁.tree = c.tree) (ha : c₁.dirAuth = c.dirAuth) :
    c₁.subtrees = c.subtrees := by
  have hroot : c₁.isSubtreeRoot = c.isSubtreeRoot := by
    funext x
    rw [isSubtreeRoot, isSubtreeRoot, ha]
  have habove : c₁.rootAbove = c.rootAbove := by
    funext x
    rw [rootAbove, rootAbove, ht, hroot]
  have hb : ∀ r, c₁.bounds r = c.bounds r := by
    intro r
    ext x
    rw [h'.mem_bounds, h.mem_bounds, hroot, habove]
  funext r
  have hk : (c₁.subtrees r).isSome = (c.subtrees r).isSome := by rw [h'.key, h.key, hroot]
  have hr := hb r
  rw [bounds, bounds] at hr
  cases h₁ : c₁.subtrees r with
  | none =>
    rw [h₁] at hk
    exact (Option.isNone_iff_eq_none.mp (by simpa using hk)).symm
  | some b =>
    rw [h₁] at hk hr
    obtain ⟨b', hb'⟩ := Option.isSome_iff_exists.mp hk.symm
    rw [hb'] at hr ⊢
    exact congrArg some hr

/-- `c'` is `c` with the inode carried from below `O` to below `N`. -/
structure Moved (i : ι) (o n O N : α) (c c' : Cache ι α L) : Prop where
  inv : Inv c'
  tree : Reparented c.tree c'.tree i o n
  exportBound : c'.exportBound = c.exportBound
  rootAuth (x : α) : c'.rootAuth x = c.rootAuth x
  carried : Carried i O N c c'
  old : c'.getSubtreeRoot o = some O
  new : c'.getSubtreeRoot n = some N

theorem Moved.map (h₁ : Moved i o n O N c c₁) (h₂ : Moved i n o N O c₁ c₂) (hI : Inv c) (ht : c₂.tree = c.tree)
    (hO : c.getSubtreeRoot o = some O) (hN : c.getSubtreeRoot n = some N) :
    c₂.subtrees = c.subtrees ∧ c₂.dirAuth = c.dirAuth ↔ MapKept c i O N := by
  have hsub : c₂.dirAuth = c.dirAuth → c₂.subtrees = c.subtrees := subtrees_eq hI h₂.inv ht
  have hinode : c₁.tree.inode = c.tree.inode := h₁.tree.inode
  by_cases hne : O = N
  · refine ⟨fun _ => .inl hne, fun _ => ?_⟩
    have ha : c₂.dirAuth = c.dirAuth := by
      funext x
      rw [h₂.carried.same (.inr hne.symm), h₁.carried.same (.inr hne)]
    exact ⟨hsub ha, ha⟩
  · refine ⟨fun h => .inr fun d hd => ?_, fun h => ?_⟩
    · exact (carried_frag h₁.tree hO hN h₁.carried h₂.carried h₁.exportBound hne hd).mp (congrFun h.2 d)
    · have ha : c₂.dirAuth = c.dirAuth := by
        funext x
        by_cases hx : c.tree.inode x = some i
        · exact (carried_frag h₁.tree hO hN h₁.carried h₂.carried h₁.exportBound hne hx).mpr
            (h.resolve_left hne x hx)
        · rw [h₂.carried.same (.inl (by rw [hinode]; exact hx)), h₁.carried.same (.inl hx)]
      exact ⟨hsub ha, ha⟩

variable [LinearOrder α] [DecidableEq ι] [AddCommGroup L]

omit [LinearOrder α] [AddCommGroup L] in
/-- The renames that are projected do not matter. -/
theorem Moved.unproject {j : ι} {p q : α} (h : Moved i o n O N (c.projectSubtreeRename j p q) c₁) :
    Moved i o n O N c c₁ :=
  ⟨h.inv, h.tree, h.exportBound, h.rootAuth, ⟨h.carried.same, h.carried.frag⟩, h.old, h.new⟩

/-- `adjustSubtreeAfterRename` carries the inode. -/
theorem adjustSubtreeAfterRename_moved {pop : Bool} (hI : Inv c) (hR : Reparented c.tree t' i o n)
    (hpop : pop = true → (c.projectedSubtreeRenames i).head? = some (o, n)) (hO : c.getSubtreeRoot o = some O)
    (hN : c.getSubtreeRoot n = some N) : ∃ c',
    adjustSubtreeAfterRename I { c with tree := t' } i o pop = .ok c' ∧ c'.tree = t' ∧ Moved i o n O N c c' ∧
    (pop = true →
      c'.projectedSubtreeRenames = Function.update c.projectedSubtreeRenames i (c.projectedSubtreeRenames i).tail) := by
  obtain ⟨c', hc'⟩ := adjustSubtreeAfterRename_returns (I := I) pop hI hR hpop (by rw [hO]; rfl) (by rw [hN]; rfl)
  obtain ⟨⟨hI', ht, he, hA⟩, hpr, hcar⟩ := adjustSubtreeAfterRename_rest hI hR hc'
  have hcarried := hcar O N hO hN
  have htree : Reparented c.tree c'.tree i o n := by rw [ht]; exact hR
  obtain ⟨hro, hrn⟩ := Carried.roots htree hcarried
  exact ⟨c', hc', ht, ⟨hI', htree, he, hA, hcarried, hro.trans hO, hrn.trans hN⟩, hpr⟩

end Map

/-! ## The linkages, there and back -/

namespace RmdirSlave

variable {ι α δ L D : Type} [LinearOrder α] [DecidableEq ι] [DecidableEq δ] {K : DentryClass ι D}
  {I : InodeAuthority ι α} {w : ℤ} {s s' : RmdirSlave ι α δ L D} {a b dn straydn : δ} {i : ι} {moved : DirTree ι α}
  {O N : α}

/-- The inode has gone from the dentry `a` to `b`. -/
structure Switched (K : DentryClass ι D) (s s' : RmdirSlave ι α δ L D) (a b : δ) (i : ι) : Prop where
  dir : s'.dir = s.dir
  dnFirst : s'.dnFirst = s.dnFirst
  src : K.linkage (s'.dentry a) = .null
  dest : K.linkage (s'.dentry b) = .primary i
  projected (x : δ) : K.projected (s'.dentry x) = K.projected (s.dentry x)
  other {x : δ} : x ≠ a → x ≠ b → s'.dentry x = s.dentry x

omit [LinearOrder α] [DecidableEq ι] in
/-- There and back, every dentry has the linkage that it had. -/
theorem Switched.back {s₁ s₂ : RmdirSlave ι α δ L D} (h₁ : Switched K s s₁ a b i) (h₂ : Switched K s₁ s₂ b a i)
    (ha : K.linkage (s.dentry a) = .primary i) (hb : K.linkage (s.dentry b) = .null) (x : δ) :
    K.linkage (s₂.dentry x) = K.linkage (s.dentry x) ∧ K.projected (s₂.dentry x) = K.projected (s.dentry x) := by
  refine ⟨?_, (h₂.projected x).trans (h₁.projected x)⟩
  by_cases hxa : x = a
  · rw [hxa, h₂.dest, ha]
  by_cases hxb : x = b
  · rw [hxb, h₂.src, hb]
  rw [h₂.other hxb hxa, h₁.other hxa hxb]

omit [LinearOrder α] [DecidableEq ι] in
theorem unlinkInode_ok (h : K.linkage (s.dentry a) = .primary i) :
    s.unlinkInode K a = .ok (s.setDentry a (K.setLinkage .null (s.dentry a))) := by
  rw [unlinkInode, h]
  rfl

omit [LinearOrder α] [DecidableEq ι] in
theorem linkPrimaryInode_ok (h : K.linkage (s.dentry b) = .null) :
    s.linkPrimaryInode K b i = .ok (s.setDentry b (K.setLinkage (.primary i) (s.dentry b))) := by
  rw [linkPrimaryInode, h]
  rfl

omit [LinearOrder α] [DecidableEq ι] in
theorem popProjected_ok {l : Linkage ι} {ls : List (Linkage ι)} (h : K.linkage (s.dentry a) = .null)
    (hp : K.projected (s.dentry a) = l :: ls) : ∃ d, s.popProjected K a = .ok (s.setDentry a d) ∧
    K.linkage d = l ∧ K.projected d = ls := by
  obtain ⟨d, hd, hl, hps⟩ := K.pop h hp
  refine ⟨d, ?_, hl, hps⟩
  rw [popProjected, hd]
  rfl

omit [LinearOrder α] [DecidableEq ι] in
/-- Unlinked, and linked again. -/
theorem relink_direct (ha : K.linkage (s.dentry a) = .primary i) (hb : K.linkage (s.dentry b) = .null) :
    ∃ s₁ s', s.unlinkInode K a = .ok s₁ ∧ s₁.linkPrimaryInode K b i = .ok s' ∧ s'.cache = s.cache ∧
    s'.first = s.first ∧ Switched K s s' a b i := by
  have hab : b ≠ a := by
    rintro rfl
    rw [ha] at hb
    cases hb
  have hb₁ : (s.setDentry a (K.setLinkage .null (s.dentry a))).dentry b = s.dentry b := Function.update_of_ne hab ..
  refine ⟨_, _, unlinkInode_ok ha, linkPrimaryInode_ok (by rw [hb₁]; exact hb), rfl, rfl, rfl, rfl, ?_, ?_, fun x => ?_,
    fun {x} hxa hxb => ?_⟩
  · simp only [setDentry, Function.update_of_ne hab.symm, Function.update_self, K.linkage_set]
  · simp only [setDentry, Function.update_self, K.linkage_set]
  · simp only [setDentry, Function.update_apply]
    by_cases hxb : x = b
    · simp [hxb, hab, K.projected_set]
    · by_cases hxa : x = a
      · simp [hxa, hab.symm, K.projected_set]
      · simp [hxa, hxb]
  · simp only [setDentry, Function.update_of_ne hxb, Function.update_of_ne hxa]

omit [LinearOrder α] [DecidableEq ι] in
/-- Projected and journaled, and then unlinked and popped. -/
theorem relink_projected (ha : K.linkage (s.dentry a) = .primary i) (hb : K.linkage (s.dentry b) = .null)
    (hpa : K.projected (s.dentry a) = []) (hpb : K.projected (s.dentry b) = []) (s₀ : RmdirSlave ι α δ L D) {c : Cache ι α L}
    (hs₀ : s₀ = { (s.pushProjected K b (.primary i)).pushProjected K a .null with cache := c }) :
    K.linkage (s₀.dentry a) = .primary i ∧ K.linkage (s₀.dentry b) = .null ∧ ∃ s₁ s₂ s', s₀.unlinkInode K a = .ok s₁ ∧
    s₁.popProjected K b = .ok s₂ ∧ s₂.popProjected K a = .ok s' ∧ s'.cache = c ∧ s'.first = s.first ∧
    Switched K s s' a b i := by
  have hab : b ≠ a := by
    rintro rfl
    rw [ha] at hb
    cases hb
  have ha₀ : s₀.dentry a = K.pushProjectedLinkage .null (s.dentry a) := by
    simp only [hs₀, pushProjected, setDentry, Function.update_self, Function.update_of_ne hab.symm]
  have hb₀ : s₀.dentry b = K.pushProjectedLinkage (.primary i) (s.dentry b) := by
    simp only [hs₀, pushProjected, setDentry, Function.update_self, Function.update_of_ne hab]
  have hl₀ : K.linkage (s₀.dentry a) = .primary i := by rw [ha₀, K.linkage_push, ha]
  have hunlink : s₀.unlinkInode K a = .ok _ := unlinkInode_ok hl₀
  set s₁ := s₀.setDentry a (K.setLinkage .null (s₀.dentry a)) with hs₁
  have hb₁ : s₁.dentry b = s₀.dentry b := Function.update_of_ne hab ..
  have ha₁ : s₁.dentry a = K.setLinkage .null (s₀.dentry a) := Function.update_self ..
  obtain ⟨db, hpopb, hlb, hprb⟩ : ∃ d, s₁.popProjected K b = .ok (s₁.setDentry b d) ∧ K.linkage d = .primary i ∧
      K.projected d = [] :=
    popProjected_ok (by rw [hb₁, hb₀, K.linkage_push, hb]) (by rw [hb₁, hb₀, K.projected_push, hpb]; rfl)
  set s₂ := s₁.setDentry b db with hs₂
  have ha₂ : s₂.dentry a = K.setLinkage .null (s₀.dentry a) := (Function.update_of_ne hab.symm ..).trans ha₁
  obtain ⟨da, hpopa, hla, hpra⟩ : ∃ d, s₂.popProjected K a = .ok (s₂.setDentry a d) ∧ K.linkage d = .null ∧
      K.projected d = [] :=
    popProjected_ok (by rw [ha₂, K.linkage_set]) (by rw [ha₂, K.projected_set, ha₀, K.projected_push, hpa]; rfl)
  have hother : ∀ {x}, x ≠ a → x ≠ b → (s₂.setDentry a da).dentry x = s.dentry x := fun hxa hxb => by
    simp only [hs₂, hs₁, hs₀, pushProjected, setDentry, Function.update_of_ne hxa, Function.update_of_ne hxb]
  have hda : (s₂.setDentry a da).dentry a = da := Function.update_self ..
  have hdb : (s₂.setDentry a da).dentry b = db := (Function.update_of_ne hab ..).trans (Function.update_self ..)
  refine ⟨hl₀, by rw [hb₀, K.linkage_push, hb], s₁, s₂, s₂.setDentry a da, hunlink, hpopb, hpopa, by rw [hs₂, hs₁, hs₀]; rfl,
    by rw [hs₂, hs₁, hs₀]; rfl, by rw [hs₂, hs₁, hs₀]; rfl, by rw [hs₂, hs₁, hs₀]; rfl, ?_, ?_, fun x => ?_, hother⟩
  · rw [hda, hla]
  · rw [hdb, hlb]
  · by_cases hxa : x = a
    · rw [hxa, hda, hpra, hpa]
    by_cases hxb : x = b
    · rw [hxb, hdb, hprb, hpb]
    rw [hother hxa hxb]

/-! ## A removal and its rollback -/

/-- The inode `i` is linked at `dn`, nothing is in flight, and the stray
dentry is ready for it. The root above `dn` is not of this rank: the dentry is
the master's. -/
structure Removable (K : DentryClass ι D) (w : ℤ) (s : RmdirSlave ι α δ L D) (dn straydn : δ) (i : ι)
    (moved : DirTree ι α) (O N : α) : Prop where
  inv : Cache.Inv s.cache
  primary : K.linkage (s.dentry dn) = .primary i
  stray : K.linkage (s.dentry straydn) = .null
  settled : K.projected (s.dentry dn) = [] ∧ K.projected (s.dentry straydn) = []
  moved : Reparented s.cache.tree moved i (s.dir dn) (s.dir straydn)
  old : s.cache.getSubtreeRoot (s.dir dn) = some O
  new : s.cache.getSubtreeRoot (s.dir straydn) = some N
  foreign : (s.cache.dirAuth O).first ≠ w
  renames : s.cache.projectedSubtreeRenames i = []
  first : s.first i ≤ s.dnFirst straydn

/-- What is restored. -/
structure RmdirRestored (K : DentryClass ι D) (w : ℤ) (s s' : RmdirSlave ι α δ L D) (straydn : δ) (i : ι) (O N : α) :
    Prop where
  linkage (x : δ) : K.linkage (s'.dentry x) = K.linkage (s.dentry x) ∧ K.projected (s'.dentry x) = K.projected (s.dentry x)
  first : s'.first = s.first ↔ s.hasSubtreeRootDirfrag w i = true ∨ s.first i = s.dnFirst straydn
  authority (d : α) : s'.cache.rootAuth d = s.cache.rootAuth d
  map : s'.cache.subtrees = s.cache.subtrees ∧ s'.cache.dirAuth = s.cache.dirAuth ↔ MapKept s.cache i O N

/-- The linkages, the inode's first and the subtree map are as they were. -/
structure RmdirUndone (K : DentryClass ι D) (s s' : RmdirSlave ι α δ L D) : Prop where
  linkage (x : δ) : K.linkage (s'.dentry x) = K.linkage (s.dentry x)
  first : s'.first = s.first
  map : s'.cache.subtrees = s.cache.subtrees ∧ s'.cache.dirAuth = s.cache.dirAuth

omit [LinearOrder α] [DecidableEq ι] [DecidableEq δ] in
theorem RmdirRestored.undone_iff (h : RmdirRestored K w s s' straydn i O N) : RmdirUndone K s s' ↔
    (s.hasSubtreeRootDirfrag w i = true ∨ s.first i = s.dnFirst straydn) ∧ MapKept s.cache i O N :=
  ⟨fun hu => ⟨h.first.mp hu.first, h.map.mp hu.map⟩,
    fun hq => ⟨fun x => (h.linkage x).1, h.first.mpr hq.1, h.map.mpr hq.2⟩⟩

omit [DecidableEq ι] [DecidableEq δ] in
/-- A directory without a root of this rank still has none below the stray directory. -/
theorem hasSubtreeRootDirfrag_moved {o n : α} (h : Moved i o n O N s.cache s'.cache) (hO : (s.cache.dirAuth O).first ≠ w)
    (hs : s.hasSubtreeRootDirfrag w i = false) : s'.hasSubtreeRootDirfrag w i = false := by
  rw [hasSubtreeRootDirfrag, List.any_eq_false] at hs ⊢
  intro d hd
  rw [h.tree.dirfrags] at hd
  have hd' := hs d hd
  rw [s.cache.tree.mem_dirfrags] at hd
  by_cases hne : O = N
  · rw [Cache.isSubtreeRoot, h.carried.same (.inr hne)]
    exact hd'
  · rw [Cache.isSubtreeRoot, h.carried.frag hd hne, Cache.renamedAuth]
    split
    · split
      · simp
      · exact hd'
    · split
      · simp [hO]
      · exact hd'

variable [AddCommGroup L] {o n : α} {t : DirTree ι α} {pop : Bool}

omit [DecidableEq δ] in
theorem adjustSubtrees_ok (pop : Bool) (hI : Cache.Inv s.cache) (hR : Reparented s.cache.tree t i o n)
    (hpop : pop = true → (s.cache.projectedSubtreeRenames i).head? = some (o, n))
    (hO : s.cache.getSubtreeRoot o = some O) (hN : s.cache.getSubtreeRoot n = some N) : ∃ c,
    s.adjustSubtrees I t i o pop = .ok { s with cache := c } ∧ c.tree = t ∧ Moved i o n O N s.cache c ∧
    (pop = true → c.projectedSubtreeRenames =
      Function.update s.cache.projectedSubtreeRenames i (s.cache.projectedSubtreeRenames i).tail) := by
  obtain ⟨c, hc, ht, hm, hp⟩ := adjustSubtreeAfterRename_moved (I := I) hI hR hpop hO hN
  refine ⟨c, ?_, ht, hm, hp⟩
  rw [adjustSubtrees, hc]
  rfl

theorem rmdirAndRollback_unjournaled (h : Removable K w s dn straydn i moved O N)
    (hj : s.hasSubtreeRootDirfrag w i = false) : ∃ s', rmdirAndRollback K I w s dn straydn moved s.cache.tree = .ok s' ∧
    RmdirRestored K w s s' straydn i O N := by
  obtain ⟨s₁, s₂, hunlink, hlink, hcache, hfirst, hsw⟩ := relink_direct h.primary h.stray
  set s₃ : RmdirSlave ι α δ L D := { s₂ with first := Function.update s₂.first i (s₂.dnFirst straydn) } with hs₃
  obtain ⟨c, hadj, ht, hm, -⟩ := adjustSubtrees_ok (I := I) (s := s₃) false (hcache ▸ h.inv) (hcache ▸ h.moved)
    (fun h => absurd h Bool.false_ne_true) (hcache ▸ h.old) (hcache ▸ h.new)
  have hm' : Moved i (s.dir dn) (s.dir straydn) O N s.cache c := hcache ▸ hm
  have hle : s₂.first i ≤ s₂.dnFirst straydn := by
    rw [hfirst, hsw.dnFirst]
    exact h.first
  have hdir : s₂.dir = s.dir := hsw.dir
  have hprep : s.handleSlaveRmdirPrep K I w dn straydn moved = .ok (⟨dn, straydn⟩, false, { s₃ with cache := c }) := by
    rw [handleSlaveRmdirPrep, h.primary]
    change (if s.hasSubtreeRootDirfrag w i then _ else _) = _
    rw [hj, if_neg Bool.false_ne_true, rmdirUnjournaled, hunlink]
    simp only [bind, Except.bind, hlink, assert, hle, decide_true, if_true]
    rw [← hdir] at hadj
    rw [← hs₃, hadj]
    rfl
  set s₄ : RmdirSlave ι α δ L D := { s₃ with cache := c } with hs₄
  have hsw₄ : Switched K s s₄ dn straydn i := ⟨hsw.dir, hsw.dnFirst, hsw.src, hsw.dest, hsw.projected, hsw.other⟩
  obtain ⟨s₅, s₆, hunlink', hlink', hcache', hfirst', hsw'⟩ := relink_direct hsw₄.dest hsw₄.src
  obtain rfl : c = s₆.cache := hcache'.symm
  obtain ⟨c', hadj', ht', hback, -⟩ := adjustSubtrees_ok (I := I) (s := s₆) (t := s.cache.tree) false
    hm'.inv (reparented_symm (ht ▸ h.moved)) (fun h => absurd h Bool.false_ne_true) hm'.new hm'.old
  have hroll : s₄.doRmdirRollback K I w ⟨dn, straydn⟩ false s.cache.tree = .ok { s₆ with cache := c' } := by
    rw [doRmdirRollback, hsw₄.dest]
    change s₄.rollbackUnjournaled K I w dn straydn i s.cache.tree = _
    rw [rollbackUnjournaled, hasSubtreeRootDirfrag_moved (show Moved i _ _ O N s.cache s₄.cache from hm') h.foreign hj, hunlink']
    simp only [bind, Except.bind, hlink', assert, Bool.not_false, if_true]
    rw [← hsw₄.dir, ← hsw'.dir] at hadj'
    rw [hsw'.dir, ← hsw'.dir, hadj']
  refine ⟨{ s₆ with cache := c' }, ?_, fun x => hsw₄.back hsw' h.primary h.stray x, ?_, fun d => ?_, ?_⟩
  · rw [rmdirAndRollback, hprep]
    exact hroll
  · change s₆.first = s.first ↔ _
    rw [hfirst', hj]
    change Function.update s₂.first i (s₂.dnFirst straydn) = s.first ↔ _
    rw [hsw.dnFirst, hfirst, Function.update_eq_self_iff]
    exact ⟨fun he => .inr he.symm, fun hf => (hf.resolve_left Bool.false_ne_true).symm⟩
  · exact (hback.rootAuth d).trans (hm'.rootAuth d)
  · exact hm'.map hback h.inv ht' h.old h.new

theorem rmdirAndRollback_journaled (h : Removable K w s dn straydn i moved O N)
    (hj : s.hasSubtreeRootDirfrag w i = true) : ∃ s', rmdirAndRollback K I w s dn straydn moved s.cache.tree = .ok s' ∧
    RmdirRestored K w s s' straydn i O N := by
  obtain ⟨c₀, hc₀⟩ : ∃ c, c = s.cache.projectSubtreeRename i (s.dir dn) (s.dir straydn) := ⟨_, rfl⟩
  obtain ⟨hl₀, -, s₁, s₂, s₃, hunlink, hpopb, hpopa, hcache, hfirst, hsw⟩ := relink_projected h.primary h.stray
    h.settled.1 h.settled.2 (s.rmdirProject K dn straydn i) (c := c₀) (by rw [hc₀]; rfl)
  have hI₀ : Cache.Inv c₀ := by
    rw [hc₀]
    exact ⟨h.inv.key, h.inv.pin, h.inv.mem_bounds, h.inv.rooted, h.inv.cached⟩
  have hr₀ : c₀.projectedSubtreeRenames i = [(s.dir dn, s.dir straydn)] := by
    simp only [hc₀, Cache.projectSubtreeRename, Cache.setProjectedRenames, Function.update_self, h.renames, List.nil_append]
  subst hcache
  obtain ⟨c, hadj, ht, hm, hr⟩ := adjustSubtrees_ok (I := I) (s := s₃) (o := s.dir dn) (n := s.dir straydn) (O := O)
    (N := N) (t := moved) true hI₀ (by rw [hc₀]; exact h.moved) (fun _ => by rw [hr₀]; rfl)
    (by rw [hc₀]; exact h.old) (by rw [hc₀]; exact h.new)
  have hm' : Moved i (s.dir dn) (s.dir straydn) O N s.cache c := by
    rw [hc₀] at hm
    exact hm.unproject
  have hlogged : (s.rmdirProject K dn straydn i).loggedSlaveRmdir K I dn straydn moved = .ok { s₃ with cache := c } := by
    rw [loggedSlaveRmdir, hl₀]
    change (s.rmdirProject K dn straydn i).unlinkInode K dn >>= _ = _
    rw [hunlink]
    simp only [bind, Except.bind, hpopb, hpopa]
    rw [← hsw.dir] at hadj
    exact hadj
  set s₄ : RmdirSlave ι α δ L D := { s₃ with cache := c } with hs₄
  have hsw₄ : Switched K s s₄ dn straydn i := ⟨hsw.dir, hsw.dnFirst, hsw.src, hsw.dest, hsw.projected, hsw.other⟩
  have hdir₄ : s₄.dir = s.dir := hsw.dir
  -- The way back.
  obtain ⟨c₁, hc₁⟩ : ∃ c₁, c₁ = c.projectSubtreeRename i (s.dir straydn) (s.dir dn) := ⟨_, rfl⟩
  obtain ⟨hl₄, hd₄, s₅, s₆, s₇, hunlink', hpopb', hpopa', hcache', hfirst', hsw'⟩ := relink_projected hsw₄.dest
    hsw₄.src ((hsw₄.projected _).trans h.settled.2) ((hsw₄.projected _).trans h.settled.1)
    (s₄.rollbackProject K dn straydn i) (c := c₁) (by rw [hc₁, ← hdir₄]; rfl)
  have hI₁ : Cache.Inv c₁ := by
    rw [hc₁]
    exact ⟨hm.inv.key, hm.inv.pin, hm.inv.mem_bounds, hm.inv.rooted, hm.inv.cached⟩
  have hr₁ : c₁.projectedSubtreeRenames i = [(s.dir straydn, s.dir dn)] := by
    simp only [hc₁, Cache.projectSubtreeRename, Cache.setProjectedRenames, Function.update_self, hr rfl, hr₀,
      List.tail_cons, List.nil_append]
  subst hcache'
  obtain ⟨c', hadj', ht', hback, -⟩ := adjustSubtrees_ok (I := I) (s := s₇) (o := s.dir straydn) (n := s.dir dn) (O := N)
    (N := O) (t := s.cache.tree) true hI₁ (by rw [hc₁]; exact reparented_symm (ht ▸ h.moved))
    (fun _ => by rw [hr₁]; rfl) (by rw [hc₁]; exact hm.new) (by rw [hc₁]; exact hm.old)
  have hback' : Moved i (s.dir straydn) (s.dir dn) N O c c' := by
    rw [hc₁] at hback
    exact hback.unproject
  have hprep : s.handleSlaveRmdirPrep K I w dn straydn moved =
      .ok (⟨dn, straydn⟩, true, s.rmdirProject K dn straydn i) := by
    rw [handleSlaveRmdirPrep, h.primary]
    exact if_pos hj
  have hroll : s₄.doRmdirRollback K I w ⟨dn, straydn⟩ true s.cache.tree = .ok (s₄.rollbackProject K dn straydn i) := by
    rw [doRmdirRollback, hsw₄.dest]
    rfl
  have hfinish : (s₄.rollbackProject K dn straydn i).rmdirRollbackFinish K I dn straydn s.cache.tree =
      .ok { s₇ with cache := c' } := by
    rw [rmdirRollbackFinish, hunlink']
    simp only [bind, Except.bind, hpopb', hpopa', hsw'.dest, Linkage.inode, deref]
    rw [← hdir₄, ← hsw'.dir] at hadj'
    exact hadj'
  refine ⟨{ s₇ with cache := c' }, ?_, fun x => hsw₄.back hsw' h.primary h.stray x, ?_, fun d => ?_, ?_⟩
  · rw [rmdirAndRollback, hprep]
    change (s.rmdirProject K dn straydn i).loggedSlaveRmdir K I dn straydn moved >>= _ = _
    rw [hlogged]
    change s₄.doRmdirRollback K I w ⟨dn, straydn⟩ true s.cache.tree >>= _ = _
    rw [hroll]
    exact hfinish
  · change s₇.first = s.first ↔ _
    rw [hfirst']
    exact ⟨fun _ => .inl hj, fun _ => hfirst⟩
  · exact (hback'.rootAuth d).trans (hm'.rootAuth d)
  · exact hm'.map hback' h.inv ht' h.old h.new

/-- A removal that is rolled back leaves the linkages and the authorities as
they were, and the map where the fragments come back as they were. -/
theorem rmdirRestored (h : Removable K w s dn straydn i moved O N) : ∃ s',
    rmdirAndRollback K I w s dn straydn moved s.cache.tree = .ok s' ∧ RmdirRestored K w s s' straydn i O N := by
  cases hj : s.hasSubtreeRootDirfrag w i with
  | false => exact rmdirAndRollback_unjournaled h hj
  | true => exact rmdirAndRollback_journaled h hj

end RmdirSlave

/-! ## Both rollbacks -/

/-- Whatever the locks let the climb do, a slave link that is rolled back leaves nlink, ctime and fragstat as they
were, and the rstat if nothing was pending, and only then; and so a removal the linkages and the authorities, the
inode's first if it is journaled or the stray dentry begins there, and the map unless a fragment is merged on its way. -/
theorem slaveRollbacks_restore_iff {ι α κ β δ L D : Type} [DecidableEq ι] [DecidableEq α] [LinearOrder β]
    [DecidableEq κ] [DecidableEq δ] [AddCommGroup L] {t : Names ι α} {s : LinkSlave ι α} {i pin : ι} {d : α}
    (hp : t.parentDir i = some d) (hr : Rooted t d) (hd : t.inode d = some pin) (hs : s.projected = none)
    {K : DentryClass κ D} {I : InodeAuthority κ β} {w : ℤ} {r : RmdirSlave κ β δ L D} {dn straydn : δ} {j : κ}
    {moved : DirTree κ β} {O N : β} (hready : r.Removable K w dn straydn j moved O N) (locks : Locks α) (stamp : ℕ)
    (inc : Bool) :
    (∃ s', linkAndRollback t locks stamp s i inc = .ok s' ∧ s'.projected = none ∧
      LinkRestored locks t stamp s.fields s'.fields i d pin ∧
      (LinkUndone s.fields s'.fields i d ↔ Quiet locks t stamp s.fields i d pin)) ∧
    ∃ r', r.rmdirAndRollback K I w dn straydn moved r.cache.tree = .ok r' ∧
      r.RmdirRestored K w r' straydn j O N ∧
      (r.RmdirUndone K r' ↔
        (r.hasSubtreeRootDirfrag w j = true ∨ r.first j = r.dnFirst straydn) ∧ MapKept r.cache j O N) := by
  obtain ⟨s', hs', hnone, hlink⟩ := linkRestored hp hr hd hs locks stamp inc
  obtain ⟨r', hr', hrmdir⟩ := RmdirSlave.rmdirRestored (I := I) hready
  exact ⟨⟨s', hs', hnone, hlink, hlink.undone_iff⟩, r', hr', hrmdir, hrmdir.undone_iff⟩

/-! ## A file and a directory -/

/-- A linkage with those that are projected. -/
def DentryClass.pair (ι : Type) [DecidableEq ι] : DentryClass ι (Linkage ι × List (Linkage ι)) where
  linkage := Prod.fst
  projected := Prod.snd
  setLinkage l d := (l, d.2)
  pushProjectedLinkage l d := (d.1, d.2 ++ [l])
  popProjectedLinkage d := match d.2 with
    | [] => .error .assert
    | l :: ls => if d.1 = .null ∨ d.1 = l then .ok (l, ls) else .error .assert
  linkage_set _ _ := rfl
  projected_set _ _ := rfl
  linkage_push _ _ := rfl
  projected_push _ _ := rfl
  pop {l ls d} hl hp := by
    refine ⟨(l, ls), ?_, rfl, rfl⟩
    simp only [hp, hl, true_or, if_true]

/-- The file of `small`, with `size` bytes of which 10 are accounted. -/
def fileSlave (size : ℤ) : LinkSlave Ino Frag := ⟨⟨smallStats 1 1 10 10 size 10, fun _ => 1⟩, none⟩

local instance strayDirNeZero : NeZero 3 := ⟨by decide⟩

/-- Fragment 0 is the root and 1 the stray directory; the directory is in `p`. -/
def strayTree (p : Fin 3) (h : ∀ d i q : Fin 3, some d = some i → ![none, none, some p] i = some q → q < d) :
    DirTree (Fin 3) (Fin 3) :=
  .small some ![none, none, some p] h

/-- Rank 0 has the root and the stray directory, and `rank` the directory. -/
def dirCache (rank : ℤ) : Cache (Fin 3) (Fin 3) ℤ :=
  (((Cache.empty (strayTree 0 (by decide))).delegateTo 0 0).delegateTo 1 0).delegateTo 2 rank

local instance strayDnNeZero : NeZero 2 := ⟨by decide⟩

/-- Dentry 0 is that of the directory, and 1 the stray one. -/
def dirSlave (rank : ℤ) : RmdirSlave (Fin 3) (Fin 3) (Fin 2) ℤ (Linkage (Fin 3) × List (Linkage (Fin 3))) where
  cache := dirCache rank
  dir := ![0, 1]
  dentry := ![(.primary 2, []), (.null, [])]
  first _ := 2
  dnFirst _ := 2

theorem removable_dirSlave {rank : ℤ} (hr : rank = 0 ∨ rank = 1) :
    (dirSlave rank).Removable (.pair _) 1 0 1 2 (strayTree 1 (by decide)) 0 1 := by
  rcases hr with rfl | rfl <;> exact {
    inv := ⟨by decide +kernel, by decide +kernel, by decide +kernel, by decide +kernel, by decide +kernel⟩
    primary := rfl
    stray := rfl
    settled := ⟨rfl, rfl⟩
    moved := ⟨rfl, rfl, rfl, rfl, by decide⟩
    old := by decide +kernel
    new := by decide +kernel
    foreign := by decide +kernel
    renames := rfl
    first := le_rfl }

/-- The file has nothing pending, and rank 1 has the directory. -/
theorem slaveRollbacks_restore_small :
    (∃ s', linkAndRollback (small true) ⟨fun _ => true, fun _ => false⟩ 1 (fileSlave 10) .file true = .ok s' ∧
      LinkUndone (fileSlave 10).fields s'.fields .file .left) ∧
    ∃ r', (dirSlave 1).rmdirAndRollback (.pair _) (.nearest _ _) 1 0 1 (strayTree 1 (by decide)) (strayTree 0 (by decide)) =
        .ok r' ∧ (dirSlave 1).RmdirUndone (.pair _) r' := by
  obtain ⟨⟨s', hs', -, -, hlink⟩, r', hr', -, hrmdir⟩ := slaveRollbacks_restore_iff (I := .nearest _ _) (t := small true)
    (i := .file) (d := .left) (s := fileSlave 10) rfl (rooted_small true)
    (show (small true).inode .left = some .dir from rfl) rfl (removable_dirSlave (.inr rfl))
    ⟨fun _ => true, fun _ => false⟩ 1 true
  have hmap : MapKept (dirSlave 1).cache 2 0 1 := by
    unfold MapKept Cache.Mergeable
    decide +kernel
  refine ⟨⟨s', hs', hlink.mpr ⟨by decide, by decide, by decide⟩⟩, r', hr', hrmdir.mpr ⟨.inl (by decide +kernel), hmap⟩⟩

/-- The stray dentry begins later than the directory. -/
def laterStray : RmdirSlave (Fin 3) (Fin 3) (Fin 2) ℤ (Linkage (Fin 3) × List (Linkage (Fin 3))) :=
  { dirSlave 0 with dnFirst := fun _ => 3 }

/-- The file has 2 bytes that are not accounted: the parent has them after the
rollback. And rank 0 has the directory as a subtree of its own, so that rank 1
does not journal its removal: after the rollback the inode has the first of the
stray dentry, and the subtree has been merged. -/
theorem not_slaveRollbacks_restore :
    (∃ s', linkAndRollback (small true) ⟨fun _ => true, fun _ => false⟩ 1 (fileSlave 12) .file true = .ok s' ∧
      ((fileSlave 12).fields.stats.fnode .left).rstat.rbytes = 10 ∧ (s'.fields.stats.fnode .left).rstat.rbytes = 12) ∧
    ∃ r', laterStray.rmdirAndRollback (.pair _) (.nearest _ _) 1 0 1 (strayTree 1 (by decide)) (strayTree 0 (by decide)) =
        .ok r' ∧ laterStray.first 2 = 2 ∧ r'.first 2 = 3 ∧
      (laterStray.cache.subtrees 2).isSome = true ∧ (r'.cache.subtrees 2).isSome = false := by
  have hr := eq_get (d := laterStray) (x := laterStray.rmdirAndRollback (.pair _) (.nearest _ _) 1 0 1
    (strayTree 1 (by decide)) (strayTree 0 (by decide))) (by decide +kernel)
  exact ⟨⟨_, rfl, by decide, by decide⟩, _, hr, rfl, by decide +kernel, by decide +kernel, by decide +kernel⟩

end CephMds.SlaveRollback
