import CephMds.Model.Stat
import Mathlib

/-!
# The recursive statistics sum up

`Consistent` says what the statistics of fragments and directories count.
`Short` is the same but for one fragment, which does not count a change below
it yet. Each part of a level of the climb is one update of a fragment and an
inode (`Short.setFnode`, `Short.setAccounted`, `Short.setPin`), and
`climb_spec` the induction over the way to the top.
-/

namespace CephMds.Stat

open Checked

variable {ι α : Type} [DecidableEq ι] [DecidableEq α]

/-! ## What is counted -/

/-- A file or a subdirectory. -/
def Names.kind (t : Names ι α) (i : ι) : FragCount := if t.isDir i then (0, 1) else (1, 0)

/-- The head dentries of a fragment. -/
def Names.dentryCount (t : Names ι α) (d : α) : FragCount :=
  ∑ i ∈ t.children d, t.kind i + ((t.remotes d).map t.kind).sum

/-- A directory counts itself, and its snaprealm. -/
def own (realms : ι → ℤ) (i : ι) : NestCount := (0, 0, 1, realms i)

/-- What the directory with version `v` has counted of a fragment: what the
fragment has accounted, and all of a stale fragment. -/
def Fnode.settledFragstat (f : Fnode) (v : ℕ) : FragCount :=
  if f.accountedFragstat.version ≠ v then f.fragstat.count else f.accountedFragstat.count

def Fnode.settledRstat (f : Fnode) (v : ℕ) : NestCount :=
  if f.accountedRstat.version ≠ v then f.rstat.count else f.accountedRstat.count

/-- The statistics sum up, except that the fragment `d₀` lacks `x` dentries
and `y` of what its children have accounted. -/
structure Short (t : Names ι α) (realms : ι → ℤ) (s : Stats ι α) (d₀ : α) (x : FragCount)
    (y : NestCount) : Prop where
  fragstat {d : α} : (t.inode d).isSome →
    t.dentryCount d = (s.fnode d).fragstat.count + if d = d₀ then x else 0
  rstat {d : α} : (t.inode d).isSome →
    ∑ i ∈ t.children d, (s.inode i).accountedRstat.count =
      (s.fnode d).rstat.count + if d = d₀ then y else 0
  dirstat {i : ι} : t.isDir i = true → t.isBase i = false →
    (s.inode i).dirstat.count =
      ∑ d ∈ (t.dirfrags i).toFinset, (s.fnode d).settledFragstat (s.inode i).dirstat.version
  nest {i : ι} : t.isDir i = true → t.isBase i = false →
    (s.inode i).rstat.count = own realms i +
      ∑ d ∈ (t.dirfrags i).toFinset, (s.fnode d).settledRstat (s.inode i).rstat.version

/-- Every fragment counts its head dentries and what its primary children have
accounted, and every directory but the base ones what its fragments have
accounted, or all that a stale fragment has. -/
structure Consistent (t : Names ι α) (realms : ι → ℤ) (s : Stats ι α) : Prop where
  fragstat {d : α} : (t.inode d).isSome → (s.fnode d).fragstat.count = t.dentryCount d
  rstat {d : α} : (t.inode d).isSome →
    (s.fnode d).rstat.count = ∑ i ∈ t.children d, (s.inode i).accountedRstat.count
  dirstat {i : ι} : t.isDir i = true → t.isBase i = false →
    (s.inode i).dirstat.count =
      ∑ d ∈ (t.dirfrags i).toFinset, (s.fnode d).settledFragstat (s.inode i).dirstat.version
  nest {i : ι} : t.isDir i = true → t.isBase i = false →
    (s.inode i).rstat.count = own realms i +
      ∑ d ∈ (t.dirfrags i).toFinset, (s.fnode d).settledRstat (s.inode i).rstat.version

variable {t t' : Names ι α} {realms : ι → ℤ} {s s' : Stats ι α} {d d₀ : α} {x x' : FragCount}
  {y y' : NestCount} {i pin cur : ι}

omit [DecidableEq ι] in
theorem Short.consistent (h : Short t realms s d₀ 0 0) : Consistent t realms s where
  fragstat hd := by simpa using (h.fragstat hd).symm
  rstat hd := by simpa using (h.rstat hd).symm
  dirstat := h.dirstat
  nest := h.nest

omit [DecidableEq ι] in
/-- A sum in which one term changes. -/
theorem sum_changed {M : Type} [AddCommGroup M] {S : Finset α} {f g : α → M} (hd : d ∈ S)
    (h : ∀ e ∈ S, e ≠ d → g e = f e) : ∑ e ∈ S, g e = ∑ e ∈ S, f e + (g d - f d) := by
  rw [← Finset.add_sum_erase S g hd, ← Finset.add_sum_erase S f hd,
    Finset.sum_congr rfl fun e he => h e (Finset.mem_of_mem_erase he) (Finset.ne_of_mem_erase he)]
  abel

/-! ## Updates -/

omit [DecidableEq ι] in
@[simp] theorem setFnode_fnode {f : Fnode} : (s.setFnode d f).fnode = Function.update s.fnode d f := rfl
omit [DecidableEq ι] in
@[simp] theorem setFnode_inode {f : Fnode} : (s.setFnode d f).inode = s.inode := rfl
omit [DecidableEq α] in
@[simp] theorem setInode_inode {n : Inode} : (s.setInode i n).inode = Function.update s.inode i n := rfl
omit [DecidableEq α] in
@[simp] theorem setInode_fnode {n : Inode} : (s.setInode i n).fnode = s.fnode := rfl

omit [DecidableEq ι] in
theorem setFnode_self : s.setFnode d (s.fnode d) = s := by rw [Stats.setFnode, Function.update_eq_self]

omit [DecidableEq α] in
theorem setInode_self : s.setInode i (s.inode i) = s := by rw [Stats.setInode, Function.update_eq_self]

omit [DecidableEq ι] in
/-- A change of the fragment that its directory does not see. -/
theorem Short.setFnode (h : Short t realms s d x y) (hd : t.inode d = some pin) {f : Fnode}
    (hx : f.fragstat.count + x' = (s.fnode d).fragstat.count + x)
    (hy : f.rstat.count + y' = (s.fnode d).rstat.count + y)
    (hf : f.settledFragstat (s.inode pin).dirstat.version =
      (s.fnode d).settledFragstat (s.inode pin).dirstat.version)
    (hr : f.settledRstat (s.inode pin).rstat.version =
      (s.fnode d).settledRstat (s.inode pin).rstat.version) :
    Short t realms (s.setFnode d f) d x' y' := by
  have hsum : ∀ {M : Type} [AddCommMonoid M] (g : Fnode → ι → M), g f pin = g (s.fnode d) pin → ∀ i,
      ∑ e ∈ (t.dirfrags i).toFinset, g ((s.setFnode d f).fnode e) i =
        ∑ e ∈ (t.dirfrags i).toFinset, g (s.fnode e) i := by
    intro M _ g hg i
    refine Finset.sum_congr rfl fun e he => ?_
    by_cases hed : e = d
    · have : i = pin := by
        rw [List.mem_toFinset, t.mem_dirfrags, hed, hd] at he
        exact (Option.some.inj he).symm
      rw [hed, this, setFnode_fnode, Function.update_self, hg]
    · rw [setFnode_fnode, Function.update_of_ne hed]
  refine ⟨fun {e} he => ?_, fun {e} he => ?_, fun hi hb => ?_, fun hi hb => ?_⟩
  · by_cases hed : e = d
    · subst hed
      have := h.fragstat he
      rw [if_pos rfl] at this
      rw [setFnode_fnode, Function.update_self, if_pos rfl, hx, this]
    · have := h.fragstat he
      rw [if_neg hed] at this
      rw [setFnode_fnode, Function.update_of_ne hed, if_neg hed, this]
  · by_cases hed : e = d
    · subst hed
      have := h.rstat he
      rw [if_pos rfl] at this
      rw [setFnode_fnode, Function.update_self, if_pos rfl, hy, setFnode_inode, this]
    · have := h.rstat he
      rw [if_neg hed] at this
      rw [setFnode_fnode, Function.update_of_ne hed, if_neg hed, setFnode_inode, this]
  · rw [setFnode_inode, h.dirstat hi hb]
    exact (hsum (fun f i => f.settledFragstat (s.inode i).dirstat.version) hf _).symm
  · rw [setFnode_inode, h.nest hi hb]
    exact congrArg _ (hsum (fun f i => f.settledRstat (s.inode i).rstat.version) hr _).symm

/-- A change of what the inode has accounted in the fragment that holds it. -/
theorem Short.setAccounted (h : Short t realms s d x y) {n : Inode}
    (hn : n.dirstat = (s.inode cur).dirstat ∧ n.rstat = (s.inode cur).rstat)
    (hp : t.parentDir cur = some d ∧
        y' = y + (n.accountedRstat.count - (s.inode cur).accountedRstat.count) ∨
      t.parentDir cur = none ∧ y' = y ∨ n.accountedRstat.count = (s.inode cur).accountedRstat.count ∧ y' = y) :
    Short t realms (s.setInode cur n) d x y' := by
  have hdir : ∀ j, ((s.setInode cur n).inode j).dirstat = (s.inode j).dirstat ∧
      ((s.setInode cur n).inode j).rstat = (s.inode j).rstat := by
    intro j
    by_cases hj : j = cur
    · rw [hj, setInode_inode, Function.update_self]
      exact hn
    · rw [setInode_inode, Function.update_of_ne hj]
      exact ⟨rfl, rfl⟩
  have hsame : ∀ e, (cur ∉ t.children e ∨
      n.accountedRstat.count = (s.inode cur).accountedRstat.count) →
      ∑ j ∈ t.children e, ((s.setInode cur n).inode j).accountedRstat.count =
        ∑ j ∈ t.children e, (s.inode j).accountedRstat.count := by
    intro e he
    refine Finset.sum_congr rfl fun j hj => ?_
    by_cases hjc : j = cur
    · subst hjc
      rw [setInode_inode, Function.update_self]
      exact he.resolve_left fun h => h hj
    · rw [setInode_inode, Function.update_of_ne hjc]
  refine ⟨h.fragstat, fun {e} he => ?_, fun hi hb => ?_, fun hi hb => ?_⟩
  · rcases hp with ⟨hp, rfl⟩ | ⟨hp, rfl⟩ | ⟨hp, rfl⟩
    · by_cases hed : e = d
      · subst hed
        have hsum := h.rstat he
        rw [if_pos rfl] at hsum
        have hc := sum_changed (f := fun j => (s.inode j).accountedRstat.count)
          (g := fun j => ((s.setInode cur n).inode j).accountedRstat.count) (t.mem_children.mpr hp)
          fun j _ hj => by rw [setInode_inode, Function.update_of_ne hj]
        rw [hc, hsum, if_pos rfl, setInode_inode, Function.update_self, setInode_fnode]
        abel
      · rw [hsame e (.inl fun hm => ?_), h.rstat he, if_neg hed, if_neg hed, setInode_fnode]
        exact hed (Option.some.inj ((t.mem_children.mp hm).symm.trans hp))
    · rw [hsame e (.inl fun hm => ?_), h.rstat he, setInode_fnode]
      rw [t.mem_children, hp] at hm
      cases hm
    · rw [hsame e (.inr hp), h.rstat he, setInode_fnode]
  · rw [(hdir _).1, h.dirstat hi hb]
    rfl
  · rw [(hdir _).2, h.nest hi hb]
    rfl

/-- A change of the directory by as much as it sees of the fragment. -/
theorem Short.setPin (h : Short t realms s d x y) (hd : t.inode d = some pin) {f : Fnode} {n : Inode}
    (hf : f.fragstat.count = (s.fnode d).fragstat.count) (hr : f.rstat.count = (s.fnode d).rstat.count)
    (ha : n.accountedRstat = (s.inode pin).accountedRstat)
    (hdir : t.isDir pin = true → t.isBase pin = false →
      n.dirstat.version = (s.inode pin).dirstat.version ∧ n.rstat.version = (s.inode pin).rstat.version ∧
      n.dirstat.count = (s.inode pin).dirstat.count + (f.settledFragstat (s.inode pin).dirstat.version -
        (s.fnode d).settledFragstat (s.inode pin).dirstat.version) ∧
      n.rstat.count = (s.inode pin).rstat.count + (f.settledRstat (s.inode pin).rstat.version -
        (s.fnode d).settledRstat (s.inode pin).rstat.version)) :
    Short t realms ((s.setFnode d f).setInode pin n) d x y := by
  have hmem : d ∈ (t.dirfrags pin).toFinset := by rw [List.mem_toFinset, t.mem_dirfrags, hd]
  have hother : ∀ j, j ≠ pin → ∀ e ∈ (t.dirfrags j).toFinset, e ≠ d := by
    rintro j hj e he rfl
    rw [List.mem_toFinset, t.mem_dirfrags, hd] at he
    exact hj (Option.some.inj he).symm
  have hfnode : ∀ e, ((s.setFnode d f).setInode pin n).fnode e = Function.update s.fnode d f e := fun _ => rfl
  have hacc : ∀ j, (((s.setFnode d f).setInode pin n).inode j).accountedRstat = (s.inode j).accountedRstat := by
    intro j
    by_cases hj : j = pin
    · rw [hj, setInode_inode, Function.update_self, ha]
    · rw [setInode_inode, Function.update_of_ne hj, setFnode_inode]
  refine ⟨fun {e} he => ?_, fun {e} he => ?_, fun {j} hi hb => ?_, fun {j} hi hb => ?_⟩
  · rw [h.fragstat he, hfnode]
    by_cases hed : e = d
    · rw [hed, Function.update_self, hf]
    · rw [Function.update_of_ne hed]
  · simp only [hacc]
    rw [h.rstat he, hfnode]
    by_cases hed : e = d
    · rw [hed, Function.update_self, hr]
    · rw [Function.update_of_ne hed]
  · by_cases hj : j = pin
    · subst hj
      obtain ⟨hv, -, hc, -⟩ := hdir hi hb
      have hsum := sum_changed (f := fun e => (s.fnode e).settledFragstat (s.inode j).dirstat.version)
        (g := fun e => (((s.setFnode d f).setInode j n).fnode e).settledFragstat
          (s.inode j).dirstat.version) hmem fun e _ he => by rw [hfnode, Function.update_of_ne he]
      rw [setInode_inode, Function.update_self, hc, hv, hsum, h.dirstat hi hb, hfnode, Function.update_self]
    · rw [setInode_inode, Function.update_of_ne hj, setFnode_inode, h.dirstat hi hb]
      exact Finset.sum_congr rfl fun e he => by rw [hfnode, Function.update_of_ne (hother j hj e he)]
  · by_cases hj : j = pin
    · subst hj
      obtain ⟨-, hv, -, hc⟩ := hdir hi hb
      have hsum := sum_changed (f := fun e => (s.fnode e).settledRstat (s.inode j).rstat.version)
        (g := fun e => (((s.setFnode d f).setInode j n).fnode e).settledRstat
          (s.inode j).rstat.version) hmem fun e _ he => by rw [hfnode, Function.update_of_ne he]
      rw [setInode_inode, Function.update_self, hc, hv, hsum, h.nest hi hb, hfnode, Function.update_self,
        add_assoc]
    · rw [setInode_inode, Function.update_of_ne hj, setFnode_inode, h.nest hi hb]
      refine congrArg _ (Finset.sum_congr rfl fun e he => ?_)
      rw [hfnode, Function.update_of_ne (hother j hj e he)]

/-! ## The parts of a level -/

section Parts

variable {f : Fnode} {linkunlink : ℤ} {isDir doParentMtime primaryDn writable : Bool} {stamp : ℕ}

omit [DecidableEq ι] in
/-- After a resync the versions match, and what the directory sees stays. -/
theorem resyncAccountedRstat_eq (s : Stats ι α) (d : α) (pin : ι) : ∃ f,
    resyncAccountedRstat s d pin = s.setFnode d f ∧ f.fragstat = (s.fnode d).fragstat ∧
    f.accountedFragstat = (s.fnode d).accountedFragstat ∧ f.rstat.count = (s.fnode d).rstat.count ∧
    f.accountedRstat.version = (s.inode pin).rstat.version ∧
    f.accountedRstat.count = (s.fnode d).settledRstat (s.inode pin).rstat.version := by
  unfold resyncAccountedRstat Fnode.settledRstat
  by_cases hv : (s.fnode d).accountedRstat.version ≠ (s.inode pin).rstat.version
  · exact ⟨_, if_pos hv, rfl, rfl, rfl, rfl, (if_pos hv).symm⟩
  · exact ⟨s.fnode d, (if_neg hv).trans setFnode_self.symm, rfl, rfl, rfl, not_not.mp hv, (if_neg hv).symm⟩

omit [DecidableEq ι] in
/-- The fragment after `touchFragstat`. -/
theorem touchFragstat_eq (s : Stats ι α) (d : α) (pin : ι) (isDir doParentMtime : Bool) (linkunlink : ℤ)
    (stamp : ℕ) : ∃ f, touchFragstat s d pin isDir doParentMtime linkunlink stamp = s.setFnode d f ∧
    f.fragstat.count = (s.fnode d).fragstat.count + (if isDir then (0, linkunlink) else (linkunlink, 0)) ∧
    f.accountedFragstat.version = (s.inode pin).dirstat.version ∧
    f.accountedFragstat.count = (s.fnode d).settledFragstat (s.inode pin).dirstat.version ∧
    f.rstat.count = (s.fnode d).rstat.count ∧ f.accountedRstat = (s.fnode d).accountedRstat := by
  obtain ⟨g, hg, hgc, hgv, hga, hgr, hgar⟩ : ∃ g, resyncAccountedFragstat s d pin = s.setFnode d g ∧
      g.fragstat.count = (s.fnode d).fragstat.count ∧
      g.accountedFragstat.version = (s.inode pin).dirstat.version ∧
      g.accountedFragstat.count = (s.fnode d).settledFragstat (s.inode pin).dirstat.version ∧
      g.rstat = (s.fnode d).rstat ∧ g.accountedRstat = (s.fnode d).accountedRstat := by
    unfold resyncAccountedFragstat Fnode.settledFragstat
    by_cases hv : (s.fnode d).accountedFragstat.version ≠ (s.inode pin).dirstat.version
    · exact ⟨_, if_pos hv, rfl, rfl, (if_pos hv).symm, rfl, rfl⟩
    · exact ⟨s.fnode d, (if_neg hv).trans setFnode_self.symm, rfl, not_not.mp hv, (if_neg hv).symm, rfl, rfl⟩
  unfold touchFragstat
  rw [hg]
  simp only [Function.update_self, Stats.setFnode, Function.update_idem]
  refine ⟨_, rfl, ?_, ?_, ?_, ?_, ?_⟩
  · rw [← hgc]
    cases doParentMtime <;> rfl
  · rw [← hgv]
    cases doParentMtime <;> rfl
  · rw [← hga]
    cases doParentMtime <;> rfl
  · rw [← hgr]
    cases doParentMtime
    · rfl
    · simp only [if_true]
      split <;> rfl
  · rw [← hgar]
    cases doParentMtime <;> rfl

omit [DecidableEq ι] in
/-- The fragment counts the dentry. -/
theorem Short.touchFragstat (hd : t.inode d = some pin)
    (h : Short t realms s d (if isDir then (0, linkunlink) else (linkunlink, 0)) y) :
    Short t realms (touchFragstat s d pin isDir doParentMtime linkunlink stamp) d 0 y := by
  obtain ⟨f, hf, hc, hv, ha, hr, har⟩ := touchFragstat_eq s d pin isDir doParentMtime linkunlink stamp
  rw [hf]
  refine h.setFnode hd ?_ ?_ ?_ ?_
  · rw [hc, add_zero]
  · rw [hr]
  · rw [Fnode.settledFragstat, if_neg (not_not.mpr hv), ha]
  · rw [Fnode.settledRstat, Fnode.settledRstat, har, hr]

/-- What the fragment lacks before the rstat of `cur` is projected. -/
def lacksNest (s : Stats ι α) (cur : ι) (primaryDn : Bool) (linkunlink : ℤ) : NestCount :=
  if primaryDn = false ∨ linkunlink = 0 then 0
  else if linkunlink < 0 then -(s.inode cur).accountedRstat.count
  else (s.inode cur).accountedRstat.count

omit [DecidableEq ι] [DecidableEq α] in
theorem lacksNest_remote : lacksNest s cur false linkunlink = 0 := if_pos (.inl rfl)

omit [DecidableEq ι] [DecidableEq α] in
theorem lacksNest_zero : lacksNest s cur primaryDn 0 = 0 := if_pos (.inr rfl)

omit [DecidableEq ι] [DecidableEq α] in
theorem lacksNest_unlink : lacksNest s cur true (-1) = -(s.inode cur).accountedRstat.count := rfl

/-- `projectRstatInodeToFrag` gives the fragment what it lacks. -/
theorem Short.projectRstatInodeToFrag (hd : t.inode d = some pin)
    (hp : t.parentDir cur = if linkunlink < 0 then none else some d)
    (hv : (s.fnode d).accountedRstat.version = (s.inode pin).rstat.version)
    (h : Short t realms s d x (lacksNest s cur true linkunlink)) :
    Short t realms (projectRstatInodeToFrag s cur d linkunlink) d x 0 := by
  have hn : ({ s.inode cur with accountedRstat := (s.inode cur).rstat } : Inode).dirstat =
      (s.inode cur).dirstat := rfl
  have hrv : ((s.setInode cur { s.inode cur with accountedRstat := (s.inode cur).rstat }).inode pin).rstat =
      (s.inode pin).rstat := by
    rw [setInode_inode, Function.update_apply]
    split
    · rename_i hpc
      rw [hpc]
    · rfl
  have hr : ∀ r : NestInfo, ({ s.fnode d with rstat := r } : Fnode).settledRstat (s.inode pin).rstat.version =
      (s.fnode d).settledRstat (s.inode pin).rstat.version := by
    intro r
    simp only [Fnode.settledRstat, hv, ne_eq, not_true_eq_false, if_false]
  rw [lacksNest] at h
  rcases lt_trichotomy linkunlink 0 with hl | hl | hl
  · rw [if_neg (by simp [hl.ne]), if_pos hl] at h
    rw [if_pos hl] at hp
    refine (h.setAccounted ⟨hn, rfl⟩ (.inr (.inl ⟨hp, rfl⟩))).setFnode hd rfl ?_ rfl (by rw [hrv]; exact hr _)
    simp only [if_neg hl.ne, if_pos hl, NestInfo.add, NestInfo.sub, NestInfo.zero, setInode_fnode]
    abel
  · rw [if_pos (.inr hl)] at h
    rw [if_neg hl.not_lt] at hp
    refine (h.setAccounted ⟨hn, rfl⟩ (.inl ⟨hp, rfl⟩)).setFnode hd rfl ?_ rfl (by rw [hrv]; exact hr _)
    simp only [if_pos hl, NestInfo.add, NestInfo.sub, NestInfo.zero, setInode_fnode]
    abel
  · rw [if_neg (by simp [hl.ne']), if_neg hl.not_gt] at h
    rw [if_neg hl.not_gt] at hp
    refine (h.setAccounted ⟨hn, rfl⟩ (.inl ⟨hp, rfl⟩)).setFnode hd rfl ?_ rfl (by rw [hrv]; exact hr _)
    simp only [if_neg hl.ne', if_neg hl.not_gt, NestInfo.add, NestInfo.zero, setInode_fnode]
    abel

/-- The inode is counted above, or marked. -/
def Inode.Settled (n : Inode) : Prop := n.accountedRstat.count = n.rstat.count ∨ n.dirtyRstat = true

/-- The fragment and the inode after `touchRstat`. -/
theorem touchRstat_eq (s : Stats ι α) (cur : ι) (d : α) (pin : ι) (primaryDn : Bool) (linkunlink : ℤ)
    (writable : Bool) : ∃ f n,
    touchRstat s cur d pin primaryDn linkunlink writable = (s.setFnode d f).setInode cur n ∧
    f.fragstat = (s.fnode d).fragstat ∧ f.accountedFragstat = (s.fnode d).accountedFragstat ∧
    n.dirstat = (s.inode cur).dirstat ∧ n.rstat = (s.inode cur).rstat ∧
    (if primaryDn then n.Settled else f = s.fnode d ∧ n = s.inode cur) := by
  rw [touchRstat]
  cases primaryDn with
  | false =>
    refine ⟨s.fnode d, s.inode cur, ?_, rfl, rfl, rfl, rfl, rfl, rfl⟩
    rw [if_pos (by decide), setFnode_self, setInode_self]
  | true =>
    rw [if_neg (by decide)]
    split
    · exact ⟨s.fnode d, { s.inode cur with dirtyRstat := true }, by rw [setFnode_self], rfl, rfl, rfl, rfl,
        .inr rfl⟩
    · obtain ⟨f, hf, hff, hfa, -⟩ := resyncAccountedRstat_eq s d pin
      simp only [hf, projectRstatInodeToFrag, Stats.setInode, Stats.setFnode, Function.update_idem,
        Function.update_self]
      exact ⟨_, _, rfl, hff, hfa, rfl, rfl, .inl rfl⟩

theorem Short.touchRstat (hd : t.inode d = some pin)
    (hp : primaryDn = true → t.parentDir cur = if linkunlink < 0 then none else some d)
    (h : Short t realms s d x (lacksNest s cur primaryDn linkunlink)) :
    Short t realms (touchRstat s cur d pin primaryDn linkunlink writable) d x 0 := by
  rw [Stat.touchRstat]
  cases primaryDn with
  | false =>
    rw [lacksNest_remote] at h
    exact h
  | true =>
    rw [if_neg (by decide)]
    split
    · rename_i hu
      obtain ⟨hl, -⟩ := Bool.and_eq_true_iff.mp hu
      rw [lacksNest, if_pos (.inr (of_decide_eq_true hl))] at h
      exact h.setAccounted ⟨rfl, rfl⟩ (.inr (.inr ⟨rfl, rfl⟩))
    · obtain ⟨f, hf, hff, hfa, hr, hv, ha⟩ := resyncAccountedRstat_eq s d pin
      simp only [hf]
      refine Short.setAccounted ?_ ⟨rfl, rfl⟩ (.inr (.inr ⟨rfl, rfl⟩))
      refine Short.projectRstatInodeToFrag hd (hp rfl) ?_ (h.setFnode hd (by rw [hff]) (by rw [hr]; rfl) ?_ ?_)
      · rw [setFnode_fnode, Function.update_self, setFnode_inode, hv]
      · rw [Fnode.settledFragstat, Fnode.settledFragstat, hff, hfa]
      · rw [Fnode.settledRstat, if_neg (not_not.mpr hv), ha]

/-- The directory counts the dentries of the fragment. -/
theorem Short.touchDirstat (hd : t.inode d = some pin)
    (hv : (s.fnode d).accountedFragstat.version = (s.inode pin).dirstat.version)
    (h : Short t realms s d x y) : Short t realms (touchDirstat t s d pin) d x y := by
  have hset : (s.fnode d).settledFragstat (s.inode pin).dirstat.version =
      (s.fnode d).accountedFragstat.count := if_neg (not_not.mpr hv)
  refine h.setPin hd rfl rfl rfl fun hi hb => ?_
  -- The only fragment is the sum.
  have htrust : (t.whole d && ((s.inode pin).dirstat.addDelta (s.fnode d).fragstat
      (s.fnode d).accountedFragstat).size != (s.fnode d).fragstat.size) = false := by
    cases hw : t.whole d with
    | false => rfl
    | true =>
      have hsum := h.dirstat hi hb
      rw [t.whole_only hw hd, List.toFinset_cons, List.toFinset_nil, insert_empty_eq,
        Finset.sum_singleton, hset] at hsum
      simp [FragInfo.size, FragInfo.addDelta, hsum]
  rw [htrust, if_neg Bool.false_ne_true, hset]
  refine ⟨rfl, rfl, ?_, ?_⟩
  · simp only [FragInfo.addDelta, Fnode.settledFragstat, ite_self]
  · simp only [Fnode.settledRstat, sub_self, add_zero]

/-- The directory counts what is below the fragment. -/
theorem Short.touchInodeRstat (hd : t.inode d = some pin) (hb : t.isBase pin = false)
    (h : Short t realms s d x y) : Short t realms (touchInodeRstat t s d pin) d x y := by
  obtain ⟨f, hf, hff, hfa, hr, hv, ha⟩ := resyncAccountedRstat_eq s d pin
  have h₁ : Short t realms (s.setFnode d f) d x y := by
    refine h.setFnode hd (by rw [hff]) (by rw [hr]) ?_ ?_
    · rw [Fnode.settledFragstat, Fnode.settledFragstat, hff, hfa]
    · rw [Fnode.settledRstat, if_neg (not_not.mpr hv), ha]
  have hset : f.settledRstat (s.inode pin).rstat.version = f.accountedRstat.count :=
    if_neg (not_not.mpr hv)
  rw [Stat.touchInodeRstat]
  simp only [hf, projectRstatFragToInode, setFnode_fnode, setFnode_inode, setInode_fnode, setInode_inode,
    Function.update_self]
  have htrust : (t.whole d && ((s.inode pin).rstat.add (f.rstat.sub f.accountedRstat)).rbytes !=
      f.rstat.rbytes) = false := by
    cases hw : t.whole d with
    | false => rfl
    | true =>
      have hsum := h₁.nest (t.inode_isDir hd) hb
      rw [t.whole_only hw hd, List.toFinset_cons, List.toFinset_nil, insert_empty_eq,
        Finset.sum_singleton, setFnode_fnode, Function.update_self, setFnode_inode, hset] at hsum
      simp [NestInfo.rbytes, NestInfo.add, NestInfo.sub, hsum, own]
  rw [htrust, if_neg Bool.false_ne_true]
  refine h₁.setPin hd ?_ ?_ rfl fun _ _ => ?_
  · rw [setFnode_fnode, Function.update_self]
  · rw [setFnode_fnode, Function.update_self]
  · rw [setFnode_fnode, Function.update_self, setFnode_inode, hset]
    refine ⟨rfl, rfl, ?_, ?_⟩
    · simp only [Fnode.settledFragstat, sub_self, add_zero]
    · simp only [NestInfo.add, NestInfo.sub, Fnode.settledRstat, ite_self]

end Parts

/-! ## What is left behind -/

/-- The count stays, or is accounted. -/
def Fnode.KeptFragstat (f f' : Fnode) : Prop :=
  f'.fragstat.count = f.fragstat.count ∧ f'.accountedFragstat.count = f.accountedFragstat.count ∨
    f'.accountedFragstat.count = f'.fragstat.count

def Fnode.KeptRstat (f f' : Fnode) : Prop :=
  f'.rstat.count = f.rstat.count ∧ f'.accountedRstat.count = f.accountedRstat.count ∨
    f'.accountedRstat.count = f'.rstat.count

def Inode.Kept (n n' : Inode) : Prop :=
  n'.rstat = n.rstat ∧ n'.accountedRstat = n.accountedRstat ∧ n'.dirtyRstat = n.dirtyRstat ∨ n'.Settled

theorem Fnode.KeptFragstat.trans {f f' f'' : Fnode} (h : f.KeptFragstat f') (h' : f'.KeptFragstat f'') :
    f.KeptFragstat f'' := by
  rcases h' with ⟨hc', ha'⟩ | h'
  · rcases h with ⟨hc, ha⟩ | h
    · exact .inl ⟨hc'.trans hc, ha'.trans ha⟩
    · exact .inr (ha'.trans (h.trans hc'.symm))
  · exact .inr h'

theorem Fnode.KeptRstat.trans {f f' f'' : Fnode} (h : f.KeptRstat f') (h' : f'.KeptRstat f'') :
    f.KeptRstat f'' := by
  rcases h' with ⟨hc', ha'⟩ | h'
  · rcases h with ⟨hc, ha⟩ | h
    · exact .inl ⟨hc'.trans hc, ha'.trans ha⟩
    · exact .inr (ha'.trans (h.trans hc'.symm))
  · exact .inr h'

theorem Inode.Settled.kept {n n' : Inode} (h : n.Settled) (h' : n.Kept n') : n'.Settled := by
  rcases h' with ⟨hr, ha, hd⟩ | h'
  · rw [Inode.Settled, hr, ha, hd]
    exact h
  · exact h'

theorem Inode.Kept.trans {n n' n'' : Inode} (h : n.Kept n') (h' : n'.Kept n'') : n.Kept n'' := by
  rcases h with ⟨hr, ha, hd⟩ | h
  · rcases h' with ⟨hr', ha', hd'⟩ | h'
    · exact .inl ⟨hr'.trans hr, ha'.trans ha, hd'.trans hd⟩
    · exact .inr h'
  · exact .inr (h.kept h')

/-- What a climb from the level `l` to the fragment `last` leaves behind: only
`last` can have an rstat that it has not accounted, and a fragstat only if it
is the fragment of `l`; the inodes on the way are accounted or marked. -/
structure Left (s s' : Stats ι α) (l : Level ι α) (last : α) : Prop where
  fragstat {e : α} : e ≠ l.parent ∨ last ≠ l.parent ∨ l.counts = false →
    (s.fnode e).KeptFragstat (s'.fnode e)
  rstat {e : α} : e ≠ last → (s.fnode e).KeptRstat (s'.fnode e)
  inode {j : ι} : (s.inode j).Kept (s'.inode j)
  cur : l.primaryDn = true → (s'.inode l.cur).Settled

/-! ## A level -/

section Levels

variable {locks : Locks α} {stamp : ℕ} {l : Level ι α}

/-- The dentry that the fragment of a level lacks. -/
def Level.lacksFrag (l : Level ι α) : FragCount := if l.isDir then (0, l.linkunlink) else (l.linkunlink, 0)

/-- The inode of a level is linked in its fragment, unless it is unlinked or
linked elsewhere. -/
def Level.Placed (t : Names ι α) (l : Level ι α) : Prop :=
  l.primaryDn = true → t.parentDir l.cur = if l.linkunlink < 0 then none else some l.parent

omit [DecidableEq ι] [DecidableEq α] in
theorem Level.linkunlink_eq_zero (h : l.counts = false) : l.linkunlink = 0 := by
  rw [Level.counts, Bool.or_eq_false_iff] at h
  simpa using h.2

omit [DecidableEq ι] [DecidableEq α] in
theorem Level.lacksFrag_eq_zero (h : l.linkunlink = 0) : l.lacksFrag = 0 := by
  rw [Level.lacksFrag, h]
  split <;> rfl

/-- The fragment and the inode of a level after `touchFrag`. -/
theorem touchFrag_eq (s : Stats ι α) (locks : Locks α) (stamp : ℕ) (l : Level ι α) (pin : ι) : ∃ f n,
    touchFrag s locks stamp l pin = (s.setFnode l.parent f).setInode l.cur n ∧
    n.dirstat = (s.inode l.cur).dirstat ∧ n.rstat = (s.inode l.cur).rstat ∧
    (if l.primaryDn then n.Settled
      else n = s.inode l.cur ∧ f.rstat.count = (s.fnode l.parent).rstat.count ∧
        f.accountedRstat = (s.fnode l.parent).accountedRstat) ∧
    (if l.counts then f.accountedFragstat.version = (s.inode pin).dirstat.version
      else f.fragstat = (s.fnode l.parent).fragstat ∧
        f.accountedFragstat = (s.fnode l.parent).accountedFragstat) := by
  obtain ⟨g, hg, -, hgv, -, hgr, hga⟩ :=
    touchFragstat_eq s l.parent pin l.isDir l.doParentMtime l.linkunlink stamp
  rw [touchFrag]
  cases hc : l.counts with
  | false =>
    obtain ⟨f, n, hf, hff, hfa, hnd, hnr, hn⟩ :=
      touchRstat_eq s l.cur l.parent pin l.primaryDn l.linkunlink (locks.writable l.parent)
    refine ⟨f, n, hf, hnd, hnr, ?_, hff, hfa⟩
    cases hp : l.primaryDn with
    | false =>
      rw [hp, if_neg Bool.false_ne_true] at hn
      obtain ⟨rfl, rfl⟩ := hn
      exact ⟨rfl, rfl, rfl⟩
    | true => rwa [hp] at hn
  | true =>
    simp only [if_true, hg]
    obtain ⟨f, n, hf, -, hfa, hnd, hnr, hn⟩ := touchRstat_eq (s.setFnode l.parent g) l.cur l.parent pin
      l.primaryDn l.linkunlink (locks.writable l.parent)
    rw [setFnode_fnode, Function.update_self] at hfa hn
    refine ⟨f, n, ?_, hnd, hnr, ?_, by rw [hfa, hgv]⟩
    · rw [hf, Stats.setFnode, Stats.setFnode, Function.update_idem, Stats.setFnode]
    · cases hp : l.primaryDn with
      | false =>
        rw [hp, if_neg Bool.false_ne_true] at hn
        obtain ⟨rfl, rfl⟩ := hn
        exact ⟨rfl, hgr, hga⟩
      | true => rwa [hp] at hn

theorem Short.touchFrag (hd : t.inode l.parent = some pin) (hp : l.Placed t)
    (h : Short t realms s l.parent l.lacksFrag (lacksNest s l.cur l.primaryDn l.linkunlink)) :
    Short t realms (touchFrag s locks stamp l pin) l.parent 0 0 := by
  rw [Stat.touchFrag]
  cases hc : l.counts with
  | false =>
    rw [Level.lacksFrag_eq_zero (Level.linkunlink_eq_zero hc)] at h
    exact h.touchRstat hd hp
  | true =>
    rw [if_pos rfl]
    refine Short.touchRstat hd hp ?_
    obtain ⟨g, hg, -⟩ := touchFragstat_eq s l.parent pin l.isDir l.doParentMtime l.linkunlink stamp
    have hl : lacksNest (Stat.touchFragstat s l.parent pin l.isDir l.doParentMtime l.linkunlink stamp) l.cur
        l.primaryDn l.linkunlink = lacksNest s l.cur l.primaryDn l.linkunlink := by
      rw [hg, lacksNest, lacksNest, setFnode_inode]
    rw [hl]
    exact h.touchFragstat hd

theorem touchDirstat_eq (t : Names ι α) (s : Stats ι α) (d : α) (pin : ι) : ∃ f n,
    touchDirstat t s d pin = (s.setFnode d f).setInode pin n ∧ f.accountedFragstat = f.fragstat ∧
    f.rstat = (s.fnode d).rstat ∧ f.accountedRstat = (s.fnode d).accountedRstat ∧
    n.rstat = (s.inode pin).rstat ∧ n.accountedRstat = (s.inode pin).accountedRstat ∧
    n.dirtyRstat = (s.inode pin).dirtyRstat :=
  ⟨_, _, rfl, rfl, rfl, rfl, rfl, rfl, rfl⟩

theorem touchInodeRstat_eq (t : Names ι α) (s : Stats ι α) (d : α) (pin : ι) : ∃ f n,
    touchInodeRstat t s d pin = (s.setFnode d f).setInode pin n ∧ f.accountedRstat = f.rstat ∧
    f.fragstat = (s.fnode d).fragstat ∧ f.accountedFragstat = (s.fnode d).accountedFragstat ∧
    f.rstat = ((resyncAccountedRstat s d pin).fnode d).rstat := by
  obtain ⟨f, hf, hff, hfa, -⟩ := resyncAccountedRstat_eq s d pin
  rw [touchInodeRstat]
  simp only [hf, projectRstatFragToInode, Stats.setFnode, Stats.setInode, Function.update_idem,
    Function.update_self]
  split
  · exact ⟨_, _, rfl, rfl, hff, hfa, rfl⟩
  · exact ⟨_, _, rfl, rfl, hff, hfa, rfl⟩

/-- What a level leaves behind if the climb stops at it. -/
theorem touchFrag_left : Left s (touchFrag s locks stamp l pin) l l.parent := by
  obtain ⟨f, n, hf, -, hnr, hn, hc⟩ := touchFrag_eq s locks stamp l pin
  have hother : ∀ {e}, e ≠ l.parent → (touchFrag s locks stamp l pin).fnode e = s.fnode e := by
    intro e he
    rw [hf, setInode_fnode, setFnode_fnode, Function.update_of_ne he]
  have hcur : (touchFrag s locks stamp l pin).inode l.cur = n := by
    rw [hf, setInode_inode, Function.update_self]
  refine ⟨fun {e} he => ?_, fun he => ?_, fun {j} => ?_, fun hp => ?_⟩
  · by_cases hed : e = l.parent
    · rw [(he.resolve_left (not_not.mpr hed)).resolve_left (not_not.mpr rfl),
        if_neg Bool.false_ne_true] at hc
      rw [hed, hf, setInode_fnode, setFnode_fnode, Function.update_self]
      exact .inl ⟨by rw [hc.1], by rw [hc.2]⟩
    · rw [hother hed]
      exact .inl ⟨rfl, rfl⟩
  · rw [hother he]
    exact .inl ⟨rfl, rfl⟩
  · by_cases hj : j = l.cur
    · rw [hj, hcur]
      cases hp : l.primaryDn with
      | false =>
        rw [hp, if_neg Bool.false_ne_true] at hn
        rw [hn.1]
        exact .inl ⟨rfl, rfl, rfl⟩
      | true =>
        rw [hp, if_pos rfl] at hn
        exact .inr hn
    · rw [hf, setInode_inode, Function.update_of_ne hj]
      exact .inl ⟨rfl, rfl, rfl⟩
  · rw [hp, if_pos rfl] at hn
    rw [hcur]
    exact hn

/-- A level that goes on: nothing is left at its fragment but the rstat. -/
structure Passed (s s' : Stats ι α) (l : Level ι α) : Prop where
  left : Left s s' l l.parent
  fragstat : (s.fnode l.parent).KeptFragstat (s'.fnode l.parent)
  rstat : l.primaryDn = false → (s.fnode l.parent).KeptRstat (s'.fnode l.parent)

/-- `touchFrag` and, if it counts a dentry, `touchDirstat`. -/
theorem level_passed : Passed s (if l.counts then touchDirstat t (touchFrag s locks stamp l pin) l.parent pin
    else touchFrag s locks stamp l pin) l := by
  have h : Left s (touchFrag s locks stamp l pin) l l.parent := touchFrag_left
  have hrstat : l.primaryDn = false →
      (s.fnode l.parent).KeptRstat ((touchFrag s locks stamp l pin).fnode l.parent) := by
    intro hp
    obtain ⟨f, n, hf, -, -, hn, -⟩ := touchFrag_eq s locks stamp l pin
    rw [hp, if_neg Bool.false_ne_true] at hn
    rw [hf, setInode_fnode, setFnode_fnode, Function.update_self]
    exact .inl ⟨hn.2.1, by rw [hn.2.2]⟩
  cases hc : l.counts with
  | false => exact ⟨h, h.fragstat (.inr (.inr hc)), hrstat⟩
  | true =>
    rw [if_pos rfl]
    set s₁ := touchFrag s locks stamp l pin
    obtain ⟨f, n, hf, ha, hfr, hfar, hr, har, hd⟩ := touchDirstat_eq t s₁ l.parent pin
    have hkept : ∀ j, (s₁.inode j).Kept ((touchDirstat t s₁ l.parent pin).inode j) := by
      intro j
      rw [hf, setInode_inode]
      by_cases hj : j = pin
      · rw [hj, Function.update_self]
        exact .inl ⟨hr, har, hd⟩
      · rw [Function.update_of_ne hj]
        exact .inl ⟨rfl, rfl, rfl⟩
    have hfnode : ∀ {e}, e ≠ l.parent → (touchDirstat t s₁ l.parent pin).fnode e = s₁.fnode e := by
      intro e he
      rw [hf, setInode_fnode, setFnode_fnode, Function.update_of_ne he]
    have hself : (touchDirstat t s₁ l.parent pin).fnode l.parent = f := by
      rw [hf, setInode_fnode, setFnode_fnode, Function.update_self]
    refine ⟨⟨fun {e} he => ?_, fun he => ?_, h.inode.trans (hkept _), fun hp => (h.cur hp).kept (hkept _)⟩,
      ?_, fun hp => ?_⟩
    · by_cases hed : e = l.parent
      · rw [hed, hself]
        exact .inr (by rw [ha])
      · rw [hfnode hed]
        exact h.fragstat (.inl hed)
    · rw [hfnode he]
      exact h.rstat he
    · rw [hself]
      exact .inr (by rw [ha])
    · refine (hrstat hp).trans (.inl ?_)
      rw [hself, hfr, hfar]
      exact ⟨rfl, rfl⟩

/-- After the rstat too has reached the directory, what is left is left by the
rest of the climb. -/
theorem Passed.left_rest {s₂ s' : Stats ι α} {l' : Level ι α} {last : α} (h : Passed s s₂ l)
    (hcur : l'.cur = pin) (hp' : l'.primaryDn = true) (hc' : l'.counts = false)
    (h' : Left (if l.primaryDn then touchInodeRstat t s₂ l.parent pin else s₂) s' l' last) :
    Left s s' l last := by
  obtain ⟨f, n, hf, ha, hff, hfa, -⟩ := touchInodeRstat_eq t s₂ l.parent pin
  set s₃ := if l.primaryDn then touchInodeRstat t s₂ l.parent pin else s₂ with hs₃
  have hfnode : ∀ {e}, e ≠ l.parent → s₃.fnode e = s₂.fnode e := by
    intro e he
    rw [hs₃]
    split
    · rw [hf, setInode_fnode, setFnode_fnode, Function.update_of_ne he]
    · rfl
  have hinode : ∀ {j}, j ≠ pin → s₃.inode j = s₂.inode j := by
    intro j hj
    rw [hs₃]
    split
    · rw [hf, setInode_inode, Function.update_of_ne hj, setFnode_inode]
    · rfl
  have hfrag : (s₂.fnode l.parent).KeptFragstat (s₃.fnode l.parent) := by
    rw [hs₃]
    split
    · rw [hf, setInode_fnode, setFnode_fnode, Function.update_self]
      exact .inl ⟨by rw [hff], by rw [hfa]⟩
    · exact .inl ⟨rfl, rfl⟩
  have hnest : (s.fnode l.parent).KeptRstat (s₃.fnode l.parent) := by
    rw [hs₃]
    split
    · rw [hf, setInode_fnode, setFnode_fnode, Function.update_self]
      exact .inr (by rw [ha])
    · exact h.rstat (Bool.eq_false_iff.mpr ‹_›)
  have hpin : (s'.inode pin).Settled := hcur ▸ h'.cur hp'
  refine ⟨fun {e} _ => ?_, fun {e} he => ?_, fun {j} => ?_, fun hp => ?_⟩
  · refine Fnode.KeptFragstat.trans ?_ (h'.fragstat (.inr (.inr hc')))
    by_cases hed : e = l.parent
    · rw [hed]
      exact h.fragstat.trans hfrag
    · rw [hfnode hed]
      exact h.left.fragstat (.inl hed)
  · refine Fnode.KeptRstat.trans ?_ (h'.rstat he)
    by_cases hed : e = l.parent
    · rw [hed]
      exact hnest
    · rw [hfnode hed]
      exact h.left.rstat hed
  · by_cases hj : j = pin
    · rw [hj]
      exact .inr hpin
    · refine h.left.inode.trans ?_
      rw [← hinode hj]
      exact h'.inode
  · by_cases hj : l.cur = pin
    · rw [hj]
      exact hpin
    · refine (h.left.cur hp).kept ?_
      rw [← hinode hj]
      exact h'.inode

/-- The parts of a level that goes on. -/
theorem Short.level (locks : Locks α) (stamp : ℕ) (hd : t.inode l.parent = some pin) (hp : l.Placed t)
    (h : Short t realms s l.parent l.lacksFrag (lacksNest s l.cur l.primaryDn l.linkunlink)) :
    Short t realms (if l.counts then Stat.touchDirstat t (Stat.touchFrag s locks stamp l pin) l.parent pin
      else Stat.touchFrag s locks stamp l pin) l.parent 0 0 := by
  have h₁ : Short t realms (Stat.touchFrag s locks stamp l pin) l.parent 0 0 := h.touchFrag hd hp
  split
  · rename_i hc
    refine h₁.touchDirstat hd ?_
    obtain ⟨f, n, hf, hnd, -, -, hv⟩ := touchFrag_eq s locks stamp l pin
    rw [if_pos hc] at hv
    rw [hf, setInode_fnode, setFnode_fnode, Function.update_self, hv, setInode_inode, Function.update_apply]
    split
    · rename_i hpc
      rw [hnd, hpc]
    · rw [setFnode_inode]
  · exact h₁

end Levels

/-! ## The climb -/

/-- The way from a fragment to a base directory is in the cache. -/
inductive Rooted (t : Names ι α) : α → Prop
  | base {d : α} {i : ι} : t.inode d = some i → t.isBase i = true → Rooted t d
  | under {d q : α} {i : ι} : t.inode d = some i → t.isBase i = false → t.parentDir i = some q →
    Rooted t q → Rooted t d

omit [DecidableEq ι] in
/-- A fragment that lacks nothing is as good as any other. -/
theorem Short.move (h : Short t realms s d 0 0) (e : α) : Short t realms s e 0 0 where
  fragstat hd := by simpa using h.fragstat hd
  rstat hd := by simpa using h.rstat hd
  dirstat := h.dirstat
  nest := h.nest

/-- The level above, in the fragment `q` that holds `pin`. -/
def Level.next (l : Level ι α) (pin : ι) (q : α) : Level ι α where
  cur := pin
  parent := q
  isDir := l.isDir
  primaryDn := true
  doParentMtime := false
  linkunlink := 0

/-- A level of the climb. -/
theorem climb_succ {locks : Locks α} {stamp fuel : ℕ} {l : Level ι α} (hd : t.inode l.parent = some pin) :
    climb t locks stamp (fuel + 1) s l =
      if locks.stop l.parent then .ok (touchFrag s locks stamp l pin, l.parent)
      else
        let s₂ := if l.counts then touchDirstat t (touchFrag s locks stamp l pin) l.parent pin
          else touchFrag s locks stamp l pin
        if t.isBase pin then .ok (s₂, l.parent)
        else deref (t.parentDir pin) >>= fun q =>
          climb t locks stamp fuel (if l.primaryDn then touchInodeRstat t s₂ l.parent pin else s₂)
            (l.next pin q) := by
  rw [climb, hd]
  rfl

/-- The climb returns, the statistics sum up, and what is left behind is left
where it ends: at a fragment it has to stop at, or at the top. The induction
is over the way to the top. -/
theorem climb_spec (locks : Locks α) (stamp : ℕ) {fuel : ℕ} {l : Level ι α} (hr : Rooted t d)
    (hl : l.parent = d) (hfuel : t.depth d < fuel) (hp : l.Placed t)
    (h : Short t realms s d l.lacksFrag (lacksNest s l.cur l.primaryDn l.linkunlink)) :
    ∃ s' last, climb t locks stamp fuel s l = .ok (s', last) ∧ Consistent t realms s' ∧ Left s s' l last ∧
      (locks.stop last = true ∨ ∃ b, t.inode last = some b ∧ t.isBase b = true) := by
  induction hr generalizing s l fuel with
  | @base d pin hd hb =>
    subst hl
    obtain ⟨fuel, rfl⟩ := Nat.exists_eq_add_one_of_ne_zero (Nat.ne_zero_of_lt hfuel)
    rw [climb_succ hd]
    by_cases hstop : locks.stop l.parent = true
    · rw [if_pos hstop]
      exact ⟨_, _, rfl, (h.touchFrag hd hp).consistent, touchFrag_left, .inl hstop⟩
    · rw [if_neg hstop]
      simp only [hb, if_true]
      exact ⟨_, _, rfl, (h.level locks stamp hd hp).consistent, level_passed.left, .inr ⟨pin, hd, hb⟩⟩
  | @under d q pin hd hb hq hr ih =>
    subst hl
    obtain ⟨fuel, rfl⟩ := Nat.exists_eq_add_one_of_ne_zero (Nat.ne_zero_of_lt hfuel)
    rw [climb_succ hd]
    by_cases hstop : locks.stop l.parent = true
    · rw [if_pos hstop]
      exact ⟨_, _, rfl, (h.touchFrag hd hp).consistent, touchFrag_left, .inl hstop⟩
    · rw [if_neg hstop]
      simp only [hb, hq, deref, bind, Except.bind, Bool.false_eq_true, if_false]
      have h₂ := h.level locks stamp hd hp
      have hpass : Passed s (if l.counts then touchDirstat t (touchFrag s locks stamp l pin) l.parent pin
          else touchFrag s locks stamp l pin) l := level_passed
      set s₂ := if l.counts then touchDirstat t (touchFrag s locks stamp l pin) l.parent pin
        else touchFrag s locks stamp l pin
      have h₃ : Short t realms (if l.primaryDn then touchInodeRstat t s₂ l.parent pin else s₂)
          l.parent 0 0 := by
        split
        · exact h₂.touchInodeRstat hd hb
        · exact h₂
      set s₃ := if l.primaryDn then touchInodeRstat t s₂ l.parent pin else s₂
      have hq₃ : Short t realms s₃ q (l.next pin q).lacksFrag (lacksNest s₃ pin true 0) := by
        rw [Level.lacksFrag_eq_zero rfl, lacksNest_zero]
        exact h₃.move q
      have hfuel' : t.depth q < fuel := by
        have := t.depth_lt hd hq
        omega
      obtain ⟨s', last, hs', hcons, hleft, hlast⟩ := ih (l := l.next pin q) rfl hfuel' (fun _ => hq) hq₃
      refine ⟨s', last, hs', hcons, hpass.left_rest ?_ ?_ ?_ hleft, hlast⟩
      · rfl
      · rfl
      · rfl

/-! ## Links, unlinks and resizes -/

/-- The same directories and fragments, with other dentries. -/
structure Names.SameDirs (t t' : Names ι α) : Prop where
  inode : t'.inode = t.inode
  dirfrags : t'.dirfrags = t.dirfrags
  isBase : t'.isBase = t.isBase
  isDir : t'.isDir = t.isDir

/-- `t'` is `t` with a primary dentry of `i` in `d`. -/
structure Names.Linked (t t' : Names ι α) (i : ι) (d : α) : Prop where
  unlinked : t.parentDir i = none
  linked : t'.parentDir i = some d
  other {j : ι} : j ≠ i → t'.parentDir j = t.parentDir j
  remotes : t'.remotes = t.remotes

/-- `t'` is `t` with one more remote dentry of `i` in `d`. -/
structure Names.LinkedRemote (t t' : Names ι α) (i : ι) (d : α) : Prop where
  notBase : t.isBase i = false
  parentDir : t'.parentDir = t.parentDir
  remotes : (t'.remotes d).Perm (i :: t.remotes d)
  other {e : α} : e ≠ d → t'.remotes e = t.remotes e

/-- A link, an unlink or an in-place size change of `i` in `d`, with the flag
and the `linkunlink` that go with it. -/
inductive Change (t t' : Names ι α) (s s' : Stats ι α) (i : ι) (d : α) : Bool → ℤ → Prop
  | link : t.Linked t' i d → s' = s → Change t t' s s' i d true 1
  | unlink : t'.Linked t i d → s' = s → Change t t' s s' i d true (-1)
  | linkRemote : t.LinkedRemote t' i d → s' = s → Change t t' s s' i d false 1
  | unlinkRemote : t'.LinkedRemote t i d → s' = s → Change t t' s s' i d false (-1)
  | resize {r : NestInfo} : t' = t → t.isDir i = false → t.parentDir i = some d →
    s' = s.setInode i { s.inode i with rstat := r } → Change t t' s s' i d true 0

section Change

variable {linkunlink : ℤ} {primaryDn : Bool}

omit [DecidableEq α] in
theorem Names.Linked.children (h : t.Linked t' i d) :
    i ∉ t.children d ∧ t'.children d = insert i (t.children d) ∧ ∀ e, e ≠ d → t'.children e = t.children e := by
  refine ⟨fun hm => ?_, ?_, fun e he => ?_⟩
  · rw [t.mem_children, h.unlinked] at hm
    cases hm
  · ext j
    rw [t'.mem_children, Finset.mem_insert, t.mem_children]
    by_cases hj : j = i
    · rw [hj, h.linked]
      exact ⟨fun _ => .inl rfl, fun _ => rfl⟩
    · rw [h.other hj]
      exact ⟨.inr, fun h => h.resolve_left hj⟩
  · ext j
    rw [t'.mem_children, t.mem_children]
    by_cases hj : j = i
    · rw [hj, h.linked, h.unlinked, Option.some_inj]
      exact ⟨fun hd => absurd hd.symm he, nofun⟩
    · rw [h.other hj]

omit [DecidableEq ι] in
/-- The statistics of `t` seen with the dentries of `t'`. -/
theorem Consistent.short (h : Consistent t realms s) (hd : t.SameDirs t')
    (hx : ∀ e, t'.dentryCount e = t.dentryCount e + if e = d then x else 0)
    (hy : ∀ e, ∑ i ∈ t'.children e, (s.inode i).accountedRstat.count =
      ∑ i ∈ t.children e, (s.inode i).accountedRstat.count + if e = d then y else 0) :
    Short t' realms s d x y where
  fragstat {e} he := by rw [hx, h.fragstat (hd.inode ▸ he)]
  rstat {e} he := by rw [hy, h.rstat (hd.inode ▸ he)]
  dirstat hi hb := by
    rw [hd.isDir] at hi
    rw [hd.isBase] at hb
    rw [hd.dirfrags, h.dirstat hi hb]
  nest hi hb := by
    rw [hd.isDir] at hi
    rw [hd.isBase] at hb
    rw [hd.dirfrags, h.nest hi hb]

/-- A primary dentry more. -/
theorem Names.Linked.sum {M : Type} [AddCommMonoid M] (h : t.Linked t' i d) (g : ι → M) (e : α) :
    ∑ j ∈ t'.children e, g j = ∑ j ∈ t.children e, g j + if e = d then g i else 0 := by
  obtain ⟨hi, hd, hother⟩ := h.children
  by_cases hed : e = d
  · rw [hed, hd, Finset.sum_insert hi, if_pos rfl, add_comm]
  · rw [hother e hed, if_neg hed, add_zero]

theorem Names.Linked.dentryCount (h : t.Linked t' i d) (hk : t'.isDir = t.isDir) (e : α) :
    t'.dentryCount e = t.dentryCount e + if e = d then t.kind i else 0 := by
  have hkind : t'.kind = t.kind := by
    funext j
    rw [Names.kind, Names.kind, hk]
  rw [Names.dentryCount, Names.dentryCount, hkind, h.sum, h.remotes]
  abel

omit [DecidableEq ι] [DecidableEq α] in
theorem Names.LinkedRemote.children (h : t.LinkedRemote t' i d) (e : α) : t'.children e = t.children e := by
  ext j
  rw [t'.mem_children, t.mem_children, h.parentDir]

omit [DecidableEq ι] in
theorem Names.LinkedRemote.dentryCount (h : t.LinkedRemote t' i d) (hk : t'.isDir = t.isDir) (e : α) :
    t'.dentryCount e = t.dentryCount e + if e = d then t.kind i else 0 := by
  have hkind : t'.kind = t.kind := by
    funext j
    rw [Names.kind, Names.kind, hk]
  rw [Names.dentryCount, Names.dentryCount, hkind, h.children]
  by_cases hed : e = d
  · rw [hed, if_pos rfl, (h.remotes.map t.kind).sum_eq, List.map_cons, List.sum_cons]
    abel
  · rw [h.other hed, if_neg hed, add_zero]

/-- Before the climb, the fragment lacks the change. -/
theorem Change.short (hc : Consistent t realms s) (hd : t.SameDirs t')
    (h : Change t t' s s' i d primaryDn linkunlink) :
    Short t' realms s' d (if t'.isDir i then (0, linkunlink) else (linkunlink, 0))
      (lacksNest s' i primaryDn linkunlink) := by
  have hkind : ∀ u : Names ι α, -u.kind i = if u.isDir i then (0, -1) else (-1, 0) := by
    intro u
    rw [Names.kind]
    split <;> rfl
  cases h with
  | link h hs =>
    subst hs
    refine hc.short hd (fun e => ?_) (fun e => h.sum _ e)
    rw [h.dentryCount hd.isDir, Names.kind, hd.isDir]
  | unlink h hs =>
    subst hs
    refine hc.short hd (fun e => ?_) (fun e => ?_)
    · rw [h.dentryCount hd.isDir.symm e, ← hkind]
      split <;> abel
    · rw [h.sum _ e, lacksNest_unlink]
      split <;> abel
  | linkRemote h hs =>
    subst hs
    refine hc.short hd (fun e => ?_) (fun e => ?_)
    · rw [h.dentryCount hd.isDir, Names.kind, hd.isDir]
    · rw [h.children, lacksNest_remote, ite_self, add_zero]
  | unlinkRemote h hs =>
    subst hs
    refine hc.short hd (fun e => ?_) (fun e => ?_)
    · rw [h.dentryCount hd.isDir.symm e, ← hkind]
      split <;> abel
    · rw [h.children, lacksNest_remote, ite_self, add_zero]
  | @resize r ht hi hp hs =>
    subst ht hs
    have hinode : ∀ j, t'.isDir j = true →
        (s.setInode i { s.inode i with rstat := r }).inode j = s.inode j := by
      intro j hj
      rw [setInode_inode, Function.update_of_ne]
      rintro rfl
      exact Bool.false_ne_true (hi.symm.trans hj)
    have hacc : ∀ j, ((s.setInode i { s.inode i with rstat := r }).inode j).accountedRstat =
        (s.inode j).accountedRstat := by
      intro j
      rw [setInode_inode, Function.update_apply]
      split
      · rename_i hj
        rw [hj]
      · rfl
    have hc' : Consistent t' realms (s.setInode i { s.inode i with rstat := r }) := by
      refine ⟨hc.fragstat, fun he => ?_, fun hj hb => ?_, fun hj hb => ?_⟩
      · simp only [hacc]
        exact hc.rstat he
      · rw [hinode _ hj]
        exact hc.dirstat hj hb
      · rw [hinode _ hj]
        exact hc.nest hj hb
    refine hc'.short hd (fun e => ?_) (fun e => ?_)
    · rw [hi, if_neg Bool.false_ne_true]
      exact (add_eq_left.mpr (ite_self _)).symm
    · rw [lacksNest_zero, ite_self, add_zero]

omit [DecidableEq α] in
theorem Change.placed (h : Change t t' s s' i d primaryDn linkunlink) :
    primaryDn = true → t'.parentDir i = if linkunlink < 0 then none else some d := by
  intro hp
  cases h with
  | link h _ => exact h.linked
  | unlink h _ => exact h.unlinked
  | linkRemote => cases hp
  | unlinkRemote => cases hp
  | resize ht _ hd _ => exact ht ▸ hd

omit [DecidableEq α] in
theorem Change.notBase (hd : t.SameDirs t') (h : Change t t' s s' i d primaryDn linkunlink) :
    t'.isBase i = false := by
  have hlinked : ∀ {u : Names ι α}, u.parentDir i = some d → u.isBase i = false := by
    intro u hu
    rw [Bool.eq_false_iff]
    intro hb
    rw [u.base_parent hb] at hu
    cases hu
  cases h with
  | link h _ => exact hlinked h.linked
  | unlink h _ => exact hd.isBase ▸ hlinked h.linked
  | linkRemote h _ => exact hd.isBase ▸ h.notBase
  | unlinkRemote h _ => exact h.notBase
  | resize ht _ hp _ => exact ht ▸ hlinked hp

end Change

/-- After a link, an unlink or a size change in a consistent state,
`predirtyJournalParents` returns whatever the locks are, and the statistics
are consistent again. -/
theorem predirtyJournalParents_consistent {s₁ : Stats ι α} {parent : Option α} {primaryDn : Bool}
    {linkunlink : ℤ} (hc : Consistent t realms s) (hd : t.SameDirs t')
    (h : Change t t' s s₁ i d primaryDn linkunlink) (hr : Rooted t' d)
    (hparent : parent = some d ∨ parent = none ∧ primaryDn = true ∧ t'.parentDir i = some d)
    (locks : Locks α) (stamp : ℕ) (doParentMtime shallow : Bool) : ∃ s' last,
    predirtyJournalParents t' locks stamp s₁ i parent primaryDn doParentMtime shallow linkunlink =
      .ok (s', some last) ∧
    Consistent t' realms s' ∧ Left s₁ s' ⟨i, d, t'.isDir i, primaryDn, doParentMtime, linkunlink⟩ last ∧
    (locks.stop last = true ∨ ∃ b, t'.inode last = some b ∧ t'.isBase b = true) := by
  have hflags : (!primaryDn && !doParentMtime && !shallow && linkunlink == 0) = false := by
    cases h <;> simp
  have hsome : (parent.isSome || primaryDn) = true := by
    rcases hparent with rfl | ⟨-, hp, -⟩
    · rfl
    · rw [hp, Bool.or_true]
  have hor : parent.or (t'.parentDir i) = some d := by
    rcases hparent with rfl | ⟨rfl, -, hp⟩
    · rfl
    · exact hp
  obtain ⟨s', last, hs', hcons, hleft, hlast⟩ := climb_spec locks stamp
    (l := ⟨i, d, t'.isDir i, primaryDn, doParentMtime, linkunlink⟩) hr rfl (Nat.lt_succ_self _) h.placed
    (h.short hc hd)
  refine ⟨s', last, ?_, hcons, hleft, hlast⟩
  rw [predirtyJournalParents, if_neg (by rw [h.notBase hd]; exact Bool.false_ne_true), hsome, hor]
  simp only [assert, deref, bind, Except.bind, if_true, hflags, Bool.false_eq_true, if_false, hs']
  rfl

/-! ## A small tree -/

/-- A base directory with one fragment that holds the directory `dir` with two.
The fragment `left` can hold a file, and `right` holds an empty directory. -/
inductive Ino
  | top | dir | file | sub
  deriving DecidableEq

inductive Frag
  | top | left | right | sub
  deriving DecidableEq

instance : Fintype Ino := ⟨{.top, .dir, .file, .sub}, by rintro ⟨⟩ <;> decide⟩

instance : Fintype Frag := ⟨{.top, .left, .right, .sub}, by rintro ⟨⟩ <;> decide⟩

def small (linked : Bool) : Names Ino Frag where
  dirs := Finset.univ
  inode
    | .top => some .top
    | .left => some .dir
    | .right => some .dir
    | .sub => some .sub
  mem_dirs := by decide
  dirfrags
    | .top => [.top]
    | .dir => [.left, .right]
    | .file => []
    | .sub => [.sub]
  mem_dirfrags := by decide
  nodup_dirfrags := by decide
  parentDir
    | .top => none
    | .dir => some .top
    | .file => if linked then some .left else none
    | .sub => some .right
  isBase i := i = .top
  isRoot i := i = .top
  root_base := by decide
  base_parent := by cases linked <;> decide
  depth
    | .top => 0
    | .left => 1
    | .right => 1
    | .sub => 2
  depth_lt := by cases linked <;> decide
  isDir i := i ≠ .file
  inode_isDir := by decide
  children
    | .top => {.dir}
    | .left => if linked then {.file} else ∅
    | .right => {.sub}
    | .sub => ∅
  mem_children := by cases linked <;> decide
  remotes _ := []
  whole d := d = .top || d = .sub
  whole_only := by decide

theorem rooted_small (linked : Bool) : Rooted (small linked) .left :=
  .under (i := .dir) (q := .top) rfl rfl rfl (.base (i := .top) rfl rfl)

/-- Statistics of `small`: `left` has `nfiles` files and `rbytes` bytes, of
which the directory counts `counted`. The version of `left` is `version`, that
of the other fragments 1. The file has `size` bytes and has accounted
`accounted` of them. -/
def smallStats (version : ℕ) (nfiles rbytes counted size accounted : ℤ) : Stats Ino Frag where
  fnode
    | .top => ⟨⟨1, 0, (0, 1)⟩, ⟨1, 0, (0, 1)⟩, ⟨1, 0, (counted, nfiles, 2, 0)⟩, ⟨1, 0, (counted, nfiles, 2, 0)⟩⟩
    | .left => ⟨⟨version, 0, (nfiles, 0)⟩, ⟨version, 0, (nfiles, 0)⟩, ⟨version, 0, (rbytes, nfiles, 0, 0)⟩,
        ⟨version, 0, (counted, nfiles, 0, 0)⟩⟩
    | .right => ⟨⟨1, 0, (0, 1)⟩, ⟨1, 0, (0, 1)⟩, ⟨1, 0, (0, 0, 1, 0)⟩, ⟨1, 0, (0, 0, 1, 0)⟩⟩
    | .sub => ⟨⟨1, 0, 0⟩, ⟨1, 0, 0⟩, ⟨1, 0, 0⟩, ⟨1, 0, 0⟩⟩
  inode
    | .top => ⟨⟨1, 0, (0, 1)⟩, ⟨1, 0, (counted, nfiles, 3, 0)⟩, ⟨1, 0, 0⟩, 0, 0, false⟩
    | .dir => ⟨⟨1, 0, (nfiles, 1)⟩, ⟨1, 0, (counted, nfiles, 2, 0)⟩, ⟨1, 0, (counted, nfiles, 2, 0)⟩, 0, 0,
        false⟩
    | .file => ⟨⟨0, 0, 0⟩, ⟨0, 0, (size, 1, 0, 0)⟩, ⟨0, 0, (accounted, nfiles, 0, 0)⟩, 0, 0, false⟩
    | .sub => ⟨⟨1, 0, 0⟩, ⟨1, 0, (0, 0, 1, 0)⟩, ⟨1, 0, (0, 0, 1, 0)⟩, 0, 0, false⟩

/-- A file is linked, and the climb reaches the top. -/
theorem predirtyJournalParents_consistent_link : Consistent (small false) 0 (smallStats 1 0 0 0 10 0) ∧
    ∃ s' last, predirtyJournalParents (small true) ⟨fun _ => true, fun _ => false⟩ 1
        (smallStats 1 0 0 0 10 0) .file none true true false 1 = .ok (s', some last) ∧
      Consistent (small true) 0 s' := by
  have hc : Consistent (small false) 0 (smallStats 1 0 0 0 10 0) :=
    ⟨by decide, by decide, by decide, by decide⟩
  have hd : (small false).SameDirs (small true) := ⟨rfl, rfl, rfl, rfl⟩
  have hl : (small false).Linked (small true) .file .left := ⟨rfl, rfl, by decide, rfl⟩
  obtain ⟨s', last, hs', hcons, -⟩ := predirtyJournalParents_consistent hc hd (.link hl rfl)
    (rooted_small true) (.inr ⟨rfl, rfl, rfl⟩) ⟨fun _ => true, fun _ => false⟩ 1 true false
  exact ⟨hc, s', last, hs', hcons⟩

/-- Every directory but the base ones counts what its fragments have
accounted, stale or not. -/
structure Accounted (t : Names ι α) (realms : ι → ℤ) (s : Stats ι α) : Prop where
  fragstat {d : α} : (t.inode d).isSome → (s.fnode d).fragstat.count = t.dentryCount d
  rstat {d : α} : (t.inode d).isSome →
    (s.fnode d).rstat.count = ∑ i ∈ t.children d, (s.inode i).accountedRstat.count
  dirstat {i : ι} : t.isDir i = true → t.isBase i = false →
    (s.inode i).dirstat.count = ∑ d ∈ (t.dirfrags i).toFinset, (s.fnode d).accountedFragstat.count
  nest {i : ι} : t.isDir i = true → t.isBase i = false →
    (s.inode i).rstat.count = own realms i +
      ∑ d ∈ (t.dirfrags i).toFinset, (s.fnode d).accountedRstat.count

/-- In a stale fragment with 10 bytes, of which its directory counts 4, a file
grows by 2 bytes: the directory counts 6, and the fragment says that it has
accounted 12. In a fragment that is not stale, a file is linked and the climb
stops at once, which leaves a dentry that is not accounted; or a file grows
and its fragment cannot be written, which leaves bytes of the inode. -/
theorem not_accounted :
    (∃ s', Accounted (small true) 0 (smallStats 0 1 10 4 10 10) ∧
      Change (small true) (small true) (smallStats 0 1 10 4 10 10) (smallStats 0 1 10 4 12 10) .file .left true 0 ∧
      predirtyJournalParents (small true) ⟨fun _ => true, fun _ => false⟩ 1 (smallStats 0 1 10 4 12 10) .file
        (some .left) true false false 0 = .ok (s', some .top) ∧ ¬ Accounted (small true) 0 s') ∧
    (∃ s', Accounted (small false) 0 (smallStats 1 0 0 0 10 0) ∧
      Change (small false) (small true) (smallStats 1 0 0 0 10 0) (smallStats 1 0 0 0 10 0) .file .left true 1 ∧
      predirtyJournalParents (small true) ⟨fun _ => true, fun _ => true⟩ 1 (smallStats 1 0 0 0 10 0) .file
        (some .left) true true false 1 = .ok (s', some .left) ∧
      (s'.fnode .left).fragstat.count ≠ (s'.fnode .left).accountedFragstat.count) ∧
    ∃ s', Accounted (small true) 0 (smallStats 1 1 10 10 10 10) ∧
      Change (small true) (small true) (smallStats 1 1 10 10 10 10) (smallStats 1 1 10 10 12 10) .file .left true 0 ∧
      predirtyJournalParents (small true) ⟨fun _ => false, fun _ => false⟩ 1 (smallStats 1 1 10 10 12 10) .file
        (some .left) true false false 0 = .ok (s', some .top) ∧
      (s'.inode .file).rstat.count ≠ (s'.inode .file).accountedRstat.count := by
  have resized : ∀ v n r c z a z',
      smallStats v n r c z' a =
        (smallStats v n r c z a).setInode .file
          { (smallStats v n r c z a).inode .file with rstat := ⟨0, 0, (z', 1, 0, 0)⟩ } := by
    intro v n r c z a z'
    rw [Stats.setInode, Stats.mk.injEq]
    refine ⟨rfl, ?_⟩
    funext j
    cases j <;> rfl
  refine ⟨⟨_, ⟨by decide, by decide, by decide, by decide⟩, .resize rfl rfl rfl (resized _ _ _ _ _ _ _), rfl,
    fun h => ?_⟩, ⟨_, ⟨by decide, by decide, by decide, by decide⟩,
      .link ⟨rfl, rfl, by decide, rfl⟩ rfl, rfl, by decide⟩,
    ⟨_, ⟨by decide, by decide, by decide, by decide⟩, .resize rfl rfl rfl (resized _ _ _ _ _ _ _), rfl,
      by decide⟩⟩
  exact absurd (h.nest (i := .dir) rfl rfl) (by decide)

end CephMds.Stat
