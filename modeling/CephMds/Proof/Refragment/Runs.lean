import CephMds.Proof.Refragment.Merge
import Mathlib.Logic.Relation

/-!
# Runs of splits and merges

A directory whose dirfrags are leaves of its fragtree, and have what hashes to
them, is `Whole`. Splits and merges in any order (`Step`) never fail an
assertion, keep it so, and neither lose nor double a dentry; the statistics of the
dirfrags and what the inode has been told of them keep their sums
(`Same`, `step_whole`, `run_whole`).
-/

namespace CephMds.Refragment

open Checked Dentries Writes Stat CDir

namespace CDir

variable {ν κ : Type}

/-- What the inode has been told of the dirfrag; all of it, if that is of another version. -/
def toldFrag (d : CDir ν κ) (i : Diri) : FragCount := d.fnode.fragstat.count + d.fragDiff i

def toldNest (d : CDir ν κ) (i : Diri) : NestCount := d.fnode.rstat.count + d.nestDiff i

theorem toldFrag_of_told {d : CDir ν κ} {i : Diri} (h : Told i d) : d.toldFrag i = d.fnode.accountedFragstat.count := by
  rw [toldFrag, fragDiff, if_pos h.1, add_sub_cancel]

theorem toldNest_of_told {d : CDir ν κ} {i : Diri} (h : Told i d) : d.toldNest i = d.fnode.accountedRstat.count := by
  rw [toldNest, nestDiff, if_pos h.2, add_sub_cancel]

variable [LinearOrder ν] {d : CDir ν κ} {i : Diri} {replay : Bool} {bits : ℕ} {h : d.frag.bits + bits ≤ 24}
  {subs : List (CDir ν κ)}

/-- The new dirfrags of a split have the dentries of the old one. -/
theorem Parted.has (hp : Parted i d bits h replay subs)
    (hv : ∀ {k : Key} {dn : Dentry}, d.items[k]? = some dn → d.frag.contains (i.hashDentryName dn.name) = true)
    (k : Key) (dn : Dentry) : (∃ f ∈ subs, f.items[k]? = some dn) ↔ d.items[k]? = some dn := by
  constructor
  · rintro ⟨f, hf, hk⟩
    rw [hp.items k hf, Option.filter_eq_some_iff] at hk
    exact hk.1
  · intro hk
    have hlt := d.frag.childOf_lt bits (i.hashDentryName dn.name)
    have hlt' : d.frag.childOf bits (i.hashDentryName dn.name) < subs.length := by rw [hp.length]; exact hlt
    refine ⟨_, List.getElem_mem hlt', ?_⟩
    rw [hp.items k (List.getElem_mem hlt'), Option.filter_eq_some_iff]
    refine ⟨hk, ?_⟩
    rw [hp.frag (List.getElem?_eq_getElem hlt')]
    exact (Leading.contains_child_iff h hlt).mpr ⟨hv hk, rfl⟩

/-- They have the difference once. -/
theorem Parted.sum_diffs (hp : Parted i d bits h replay subs) :
    (subs.map fun f => f.fragDiff i).sum = d.fragDiff i ∧ (subs.map fun f => f.nestDiff i).sum = d.nestDiff i := by
  have hfrag : (subs.map fun f => f.fnode.accountedFragstat.count) =
      subs.map fun f => f.fnode.fragstat.count + f.fragDiff i :=
    List.map_congr_left fun f hf => (toldFrag_of_told (hp.told hf)).symm
  have hnest : (subs.map fun f => f.fnode.accountedRstat.count) = subs.map fun f => f.fnode.rstat.count + f.nestDiff i :=
    List.map_congr_left fun f hf => (toldNest_of_told (hp.told hf)).symm
  have h₁ := hp.accountedFragstat
  have h₂ := hp.accountedRstat
  rw [hfrag, List.sum_map_add, hp.fragstat] at h₁
  rw [hnest, List.sum_map_add, hp.rstat] at h₂
  exact ⟨add_left_cancel h₁, add_left_cancel h₂⟩

end CDir

/-- A call of `adjust_dir_fragments`. -/
inductive Adjustment (ν κ : Type)
  | split (dir : CDir ν κ) (bits : ℕ) (h : dir.frag.bits + bits ≤ 24) (tree : Cover 24)
  | merge (basefrag : Frag) (tree : Cover 24)

namespace Directory

variable {ν κ : Type}

section Defs

variable (s : Directory ν κ)

def adjust (replay : Bool) : Adjustment ν κ → Checked (Directory ν κ)
  | .split dir bits h tree => s.splitFrag tree dir bits h replay
  | .merge basefrag tree => s.mergeFrags tree basefrag replay

/-- A dirfrag is split, or those under a frag are merged that are all auth or all replicas. The
fragtree has been changed there and nowhere else. -/
def Allowed : Adjustment ν κ → Prop
  | .split dir bits h tree => dir ∈ s.dirfrags ∧ tree.SplitAt dir.frag bits h ∧
      ∀ g, s.inode.dirfragtree.member g → g ≠ dir.frag → tree.member g
  | .merge basefrag tree => s.getDirfragsUnder basefrag ≠ [] ∧
      (∀ f ∈ s.getDirfragsUnder basefrag, ∀ g ∈ s.getDirfragsUnder basefrag, f.isAuth = g.isAuth) ∧
      tree.member basefrag ∧ ∀ g, s.inode.dirfragtree.member g → basefrag.covers g = false → tree.member g

/-- One call. -/
def Step (replay : Bool) (s t : Directory ν κ) : Prop := ∃ c, s.Allowed c ∧ s.adjust replay c = .ok t

def Has (k : Key) (dn : Dentry) : Prop := ∃ f ∈ s.dirfrags, f.items[k]? = some dn

/-- The sum of something over the dirfrags. -/
def sumOf {M : Type} [AddCommMonoid M] (w : CDir ν κ → M) : M := (s.dirfrags.map w).sum

/-- Two directories with the same dentries and the same sums. -/
structure Same (s t : Directory ν κ) : Prop where
  isAuth {b : Bool} : (∀ f ∈ s.dirfrags, f.isAuth = b) → ∀ f ∈ t.dirfrags, f.isAuth = b
  has (k : Key) (dn : Dentry) : t.Has k dn ↔ s.Has k dn
  fragstat : (t.sumOf fun f => f.fnode.fragstat.count) = s.sumOf fun f => f.fnode.fragstat.count
  rstat : (t.sumOf fun f => f.fnode.rstat.count) = s.sumOf fun f => f.fnode.rstat.count
  toldFrag : (t.sumOf fun f => f.toldFrag t.inode) = s.sumOf fun f => f.toldFrag s.inode
  toldNest : (t.sumOf fun f => f.toldNest t.inode) = s.sumOf fun f => f.toldNest s.inode

end Defs

variable [LinearOrder ν] {s t : Directory ν κ} {replay : Bool} {d : CDir ν κ} {tree : Cover 24}

structure Whole (replay : Bool) (s : Directory ν κ) : Prop where
  sound {f : CDir ν κ} : f ∈ s.dirfrags → Sound 0 replay f
  held {f : CDir ν κ} : f ∈ s.dirfrags → Held f
  counted {f : CDir ν κ} : f ∈ s.dirfrags → Counted f
  summed {f : CDir ν κ} : f ∈ s.dirfrags → Summed f
  leaf {f : CDir ν κ} : f ∈ s.dirfrags → s.inode.dirfragtree.member f.frag
  nodup : (s.dirfrags.map fun f => f.frag).Nodup
  hashed {f : CDir ν κ} {k : Key} {dn : Dentry} : f ∈ s.dirfrags → f.items[k]? = some dn →
    f.frag.contains (s.inode.hashDentryName dn.name) = true

omit [LinearOrder ν] in
/-- A dirfrag and the others. -/
theorem perm_others {l : List (CDir ν κ)} (hn : (l.map fun f => f.frag).Nodup) (hd : d ∈ l) :
    l.Perm (d :: l.filter fun f => f.frag ≠ d.frag) := by
  induction l with
  | nil => exact absurd hd List.not_mem_nil
  | cons f l ih =>
    rw [List.map_cons, List.nodup_cons] at hn
    by_cases heq : f.frag = d.frag
    · have hnot : d ∉ l := fun hmem => hn.1 (heq ▸ List.mem_map_of_mem hmem)
      have hfd : d = f := (List.mem_cons.mp hd).resolve_right hnot
      have hrest : l.filter (fun g => g.frag ≠ d.frag) = l := by
        rw [List.filter_eq_self]
        intro g hg
        rw [decide_eq_true_eq, ← heq]
        exact fun hgf => hn.1 (hgf ▸ List.mem_map_of_mem hg)
      rw [List.filter_cons_of_neg (by simpa using heq), hrest, hfd]
    · have hne : d ≠ f := fun h => heq (h ▸ rfl)
      rw [List.filter_cons_of_pos (by simpa using heq)]
      exact ((ih hn.2 ((List.mem_cons.mp hd).resolve_left hne)).cons f).trans (.swap d f _)

/-- No two of the dirfrags have a key in common. -/
theorem Whole.disjoint (h : Whole replay s) : s.dirfrags.Pairwise fun f g =>
    ∀ k : Key, f.items[k]? = none ∨ g.items[k]? = none := by
  refine (List.pairwise_map.mp h.nodup).imp_of_mem ?_
  intro f g hf hg hne k
  cases hk : f.items[k]? with
  | none => exact .inl rfl
  | some dn =>
    cases hk' : g.items[k]? with
    | none => exact .inr rfl
    | some dn' =>
      have hkey : dn'.name = dn.name :=
        congrArg Key.name (((h.held hg).keyed hk').trans ((h.held hf).keyed hk).symm)
      have hno := s.inode.dirfragtree.disjoint (h.leaf hf) (h.leaf hg) hne (h.hashed hf hk)
      rw [← hkey, h.hashed hg hk'] at hno
      cases hno

/-! ## A step -/

/-- The dirfrags `src` are replaced by `fresh`. -/
structure Renewed (replay : Bool) (s : Directory ν κ) (tree : Cover 24) (src others fresh : List (CDir ν κ)) : Prop where
  perm : s.dirfrags.Perm (src ++ others)
  sound {f : CDir ν κ} : f ∈ fresh → Sound 0 replay f
  held {f : CDir ν κ} : f ∈ fresh → Held f
  counted {f : CDir ν κ} : f ∈ fresh → Counted f
  summed {f : CDir ν κ} : f ∈ fresh → Summed f
  told {f : CDir ν κ} : f ∈ fresh → Told s.inode f
  isAuth {f : CDir ν κ} : f ∈ fresh → ∃ g ∈ src, f.isAuth = g.isAuth
  leaf {f : CDir ν κ} : f ∈ fresh → tree.member f.frag
  kept {f : CDir ν κ} : f ∈ others → tree.member f.frag
  nodup : (fresh.map fun f => f.frag).Nodup
  apart {f g : CDir ν κ} : f ∈ others → g ∈ fresh → f.frag ≠ g.frag
  hashed {f : CDir ν κ} {k : Key} {dn : Dentry} : f ∈ fresh → f.items[k]? = some dn →
    f.frag.contains (s.inode.hashDentryName dn.name) = true
  has (k : Key) (dn : Dentry) : (∃ f ∈ fresh, f.items[k]? = some dn) ↔ ∃ f ∈ src, f.items[k]? = some dn
  fragstat : (fresh.map fun f => f.fnode.fragstat.count).sum = (src.map fun f => f.fnode.fragstat.count).sum
  rstat : (fresh.map fun f => f.fnode.rstat.count).sum = (src.map fun f => f.fnode.rstat.count).sum
  accountedFragstat : (fresh.map fun f => f.fnode.accountedFragstat.count).sum =
    (src.map fun f => f.toldFrag s.inode).sum
  accountedRstat : (fresh.map fun f => f.fnode.accountedRstat.count).sum = (src.map fun f => f.toldNest s.inode).sum

variable {src others fresh : List (CDir ν κ)}

theorem Renewed.mem_others (r : Renewed replay s tree src others fresh) {f : CDir ν κ} (hf : f ∈ others) :
    f ∈ s.dirfrags := r.perm.mem_iff.mpr (List.mem_append_right src hf)

theorem Renewed.whole (r : Renewed replay s tree src others fresh) (h : Whole replay s) :
    Whole replay ⟨s.setTree tree, others ++ fresh⟩ := by
  have hcases {P : CDir ν κ → Prop} (ho : ∀ f ∈ s.dirfrags, P f) (hf : ∀ f ∈ fresh, P f) : ∀ f ∈ others ++ fresh, P f := by
    intro f hmem
    exact (List.mem_append.mp hmem).elim (fun hm => ho f (r.mem_others hm)) (hf f)
  constructor
  · exact fun hf => hcases (fun f hf => h.sound hf) (fun f hf => r.sound hf) _ hf
  · exact fun hf => hcases (fun f hf => h.held hf) (fun f hf => r.held hf) _ hf
  · exact fun hf => hcases (fun f hf => h.counted hf) (fun f hf => r.counted hf) _ hf
  · exact fun hf => hcases (fun f hf => h.summed hf) (fun f hf => r.summed hf) _ hf
  · exact fun hf => (List.mem_append.mp hf).elim r.kept r.leaf
  · rw [List.map_append, List.nodup_append]
    have hn := (r.perm.map fun f => f.frag).nodup_iff.mp h.nodup
    rw [List.map_append] at hn
    refine ⟨(List.nodup_append.mp hn).2.1, r.nodup, ?_⟩
    intro a ha b hb
    obtain ⟨f, hf, rfl⟩ := List.mem_map.mp ha
    obtain ⟨g, hg, rfl⟩ := List.mem_map.mp hb
    exact r.apart hf hg
  · intro f k dn hf
    exact hcases (P := fun f => f.items[k]? = some dn → f.frag.contains (s.inode.hashDentryName dn.name) = true)
      (fun f hf => h.hashed hf) (fun f hf => r.hashed hf) f hf

/-- The sums, where the others stay. -/
theorem Renewed.sumOf_eq {M : Type} [AddCommMonoid M] (r : Renewed replay s tree src others fresh) {w w' : CDir ν κ → M}
    (ho : ∀ f, w' f = w f) (hsum : (fresh.map w').sum = (src.map w).sum) :
    (⟨s.setTree tree, others ++ fresh⟩ : Directory ν κ).sumOf w' = s.sumOf w := by
  have hw : w' = w := funext ho
  subst hw
  show ((others ++ fresh).map w').sum = (s.dirfrags.map w').sum
  rw [(r.perm.map w').sum_eq, List.map_append, List.map_append, List.sum_append, List.sum_append, hsum, add_comm]

theorem Renewed.same (r : Renewed replay s tree src others fresh) : Same s ⟨s.setTree tree, others ++ fresh⟩ := by
  constructor
  · intro b hb f hf
    rcases List.mem_append.mp hf with ho | hf
    · exact hb f (r.mem_others ho)
    · obtain ⟨g, hg, heq⟩ := r.isAuth hf
      exact heq.trans (hb g (r.perm.mem_iff.mpr (List.mem_append_left others hg)))
  · intro k dn
    show (∃ f ∈ others ++ fresh, f.items[k]? = some dn) ↔ ∃ f ∈ s.dirfrags, f.items[k]? = some dn
    simp only [r.perm.mem_iff, List.mem_append, or_and_right, exists_or, r.has, or_comm]
  · exact r.sumOf_eq (fun f => rfl) r.fragstat
  · exact r.sumOf_eq (fun f => rfl) r.rstat
  · refine r.sumOf_eq (fun f => rfl) (Eq.trans ?_ r.accountedFragstat)
    exact congrArg List.sum (List.map_congr_left fun f hf => toldFrag_of_told (r.told hf))
  · refine r.sumOf_eq (fun f => rfl) (Eq.trans ?_ r.accountedRstat)
    exact congrArg List.sum (List.map_congr_left fun f hf => toldNest_of_told (r.told hf))

/-- A split. -/
theorem splitFrag_ok (h : Whole replay s) {bits : ℕ} (hbits : d.frag.bits + bits ≤ 24) (hd : d ∈ s.dirfrags)
    (hc : tree.SplitAt d.frag bits hbits) (hkept : ∀ g, s.inode.dirfragtree.member g → g ≠ d.frag → tree.member g) :
    ∃ subs, s.splitFrag tree d bits hbits replay =
        .ok ⟨s.setTree tree, s.dirfrags.filter (fun f => f.frag ≠ d.frag) ++ subs⟩ ∧
      Renewed replay s tree [d] (s.dirfrags.filter fun f => f.frag ≠ d.frag) subs := by
  obtain ⟨old, subs, hsplit, -, -, hp⟩ := split_ok (i := s.setTree tree) (h.sound hd) (h.held hd) hbits hc (h.hashed hd)
  have hchild {f : CDir ν κ} (hf : f ∈ subs) : ∃ n < 2 ^ bits, f.frag = d.frag.child bits hbits n := by
    obtain ⟨n, hn⟩ := List.mem_iff_getElem?.mp hf
    exact ⟨n, hp.length ▸ (List.getElem?_eq_some_iff.mp hn).1, hp.frag hn⟩
  have hfrags : subs.map (fun f => f.frag) = (List.range (2 ^ bits)).map (d.frag.child bits hbits) := by
    refine List.ext_getElem (by rw [List.length_map, List.length_map, List.length_range, hp.length]) fun n hn hn' => ?_
    rw [List.length_map] at hn
    rw [List.getElem_map, List.getElem_map, List.getElem_range]
    exact hp.frag (List.getElem?_eq_getElem hn)
  refine ⟨subs, bind_ok.mpr ⟨_, hsplit, rfl⟩, perm_others h.nodup hd, hp.sound, hp.held, hp.counted, hp.summed, hp.told,
    fun hf => ⟨d, List.mem_singleton_self d, hp.isAuth hf⟩, fun hf => ?_, fun hf => ?_, ?_,
    fun {f g} hf hg heq => ?_, fun {f k dn} hf hk => ?_, fun k dn => ?_, ?_, ?_, ?_, ?_⟩
  · obtain ⟨n, hlt, hn⟩ := hchild hf
    rw [hn]
    exact hc n hlt
  · obtain ⟨hmem, hne⟩ := List.mem_filter.mp hf
    exact hkept _ (h.leaf hmem) (by simpa using hne)
  · rw [hfrags]
    refine List.nodup_range.map_on fun a ha b hb hab => ?_
    rw [← Leading.index_child hbits (List.mem_range.mp ha), hab, Leading.index_child hbits (List.mem_range.mp hb)]
  · -- The first word of a child would be of both.
    obtain ⟨hmem, hne⟩ := List.mem_filter.mp hf
    obtain ⟨n, hlt, hn⟩ := hchild hg
    have hword := ((Leading.contains_child_iff hbits hlt).mp (Leading.contains_value _)).1
    have hno := s.inode.dirfragtree.disjoint (h.leaf hmem) (h.leaf hd) (by simpa using hne)
      (heq ▸ Leading.contains_value g.frag)
    rw [heq, hn, hword] at hno
    cases hno
  · rw [hp.items k hf, Option.filter_eq_some_iff] at hk
    exact hk.2
  · simp only [List.mem_singleton, exists_eq_left]
    exact hp.has (h.hashed hd) k dn
  · rw [hp.fragstat, ← (h.summed hd).fragstat, List.map_singleton, List.sum_singleton]
  · rw [hp.rstat, ← (h.summed hd).rstat, List.map_singleton, List.sum_singleton]
  · rw [hp.accountedFragstat, ← (h.summed hd).fragstat, List.map_singleton, List.sum_singleton]
    rfl
  · rw [hp.accountedRstat, ← (h.summed hd).rstat, List.map_singleton, List.sum_singleton]
    rfl

/-- A merge. -/
theorem mergeFrags_ok (h : Whole replay s) {basefrag : Frag} (hne : s.getDirfragsUnder basefrag ≠ [])
    (hauth : ∀ f ∈ s.getDirfragsUnder basefrag, ∀ g ∈ s.getDirfragsUnder basefrag, f.isAuth = g.isAuth)
    (hbase : tree.member basefrag)
    (hkept : ∀ g, s.inode.dirfragtree.member g → basefrag.covers g = false → tree.member g) :
    ∃ f, s.mergeFrags tree basefrag replay =
        .ok ⟨s.setTree tree, s.dirfrags.filter (fun f => !basefrag.covers f.frag) ++ [f]⟩ ∧
      Renewed replay s tree (s.getDirfragsUnder basefrag) (s.dirfrags.filter fun f => !basefrag.covers f.frag) [f] := by
  obtain ⟨front, rest, hfront⟩ := List.exists_cons_of_ne_nil hne
  have hmem {f : CDir ν κ} (hf : f ∈ s.getDirfragsUnder basefrag) : f ∈ s.dirfrags ∧ basefrag.covers f.frag = true :=
    List.mem_filter.mp hf
  have hin : front ∈ s.getDirfragsUnder basefrag := hfront ▸ List.mem_cons_self
  have hsrc : ∀ f ∈ s.getDirfragsUnder basefrag, Sound 0 replay f ∧ Held f ∧ f.isAuth = front.isAuth :=
    fun f hf => ⟨h.sound (hmem hf).1, h.held (hmem hf).1, hauth f hf front hin⟩
  obtain ⟨f, hmerge, hfrag, hfauth, hj⟩ := merge_ok (i := s.setTree tree) basefrag front.isAuth hne hsrc
    (h.disjoint.filter _)
  have hsum {M : Type} [AddCommGroup M] {w v v' : CDir ν κ → M} (hw : ∀ f ∈ s.dirfrags, w f = v f + v' f) :
      ((s.getDirfragsUnder basefrag).map w).sum = ((s.getDirfragsUnder basefrag).map v).sum +
        ((s.getDirfragsUnder basefrag).map v').sum := by
    rw [List.map_congr_left fun f hf => hw f (hmem hf).1, List.sum_map_add]
  have hfragstat : ((s.getDirfragsUnder basefrag).map fun f => total Dentry.fragCount f.items) =
      (s.getDirfragsUnder basefrag).map fun f => f.fnode.fragstat.count :=
    List.map_congr_left fun f hf => (h.summed (hmem hf).1).fragstat.symm
  have hrstat : ((s.getDirfragsUnder basefrag).map fun f => total Dentry.nestCount f.items) =
      (s.getDirfragsUnder basefrag).map fun f => f.fnode.rstat.count :=
    List.map_congr_left fun f hf => (h.summed (hmem hf).1).rstat.symm
  refine ⟨f, ?_, ?_⟩
  · have hhead : deref (s.getDirfragsUnder basefrag).head? = .ok front := by rw [hfront]; rfl
    exact bind_ok.mpr ⟨front, hhead, bind_ok.mpr ⟨f, hmerge, rfl⟩⟩
  · constructor
    · exact (List.filter_append_perm _ _).symm
    · exact fun hg => List.mem_singleton.mp hg ▸ hj.sound
    · exact fun hg => List.mem_singleton.mp hg ▸ hj.held
    · exact fun hg => List.mem_singleton.mp hg ▸ hj.counted
    · exact fun hg => List.mem_singleton.mp hg ▸ hj.summed
    · exact fun hg => List.mem_singleton.mp hg ▸ hj.told
    · exact fun hg => ⟨front, hin, List.mem_singleton.mp hg ▸ hfauth⟩
    · exact fun hg => List.mem_singleton.mp hg ▸ hfrag ▸ hbase
    · intro g hg
      obtain ⟨hmem, hno⟩ := List.mem_filter.mp hg
      exact hkept _ (h.leaf hmem) (by simpa using hno)
    · exact List.nodup_singleton _
    · intro g f' hg hf' heq
      rw [List.mem_singleton.mp hf', hfrag] at heq
      have hno := (List.mem_filter.mp hg).2
      rw [heq, Leading.covers_self] at hno
      cases hno
    · intro f' k dn hf' hk
      rw [List.mem_singleton.mp hf'] at hk ⊢
      obtain ⟨g, hg, hgk⟩ := hj.items.mp hk
      rw [hfrag]
      exact Leading.contains_of_covers (hmem hg).2 (h.hashed (hmem hg).1 hgk)
    · intro k dn
      simp only [List.mem_singleton, exists_eq_left]
      exact hj.items
    · rw [List.map_singleton, List.sum_singleton, hj.summed.fragstat, hj.sums, hfragstat]
    · rw [List.map_singleton, List.sum_singleton, hj.summed.rstat, hj.sums, hrstat]
    · rw [List.map_singleton, List.sum_singleton, hj.accountedFragstat, hj.sums, hfragstat]
      exact (hsum fun f hf => rfl).symm
    · rw [List.map_singleton, List.sum_singleton, hj.accountedRstat, hj.sums, hrstat]
      exact (hsum fun f hf => rfl).symm

theorem adjust_ok (h : Whole replay s) {c : Adjustment ν κ} (hc : s.Allowed c) :
    ∃ t, s.adjust replay c = .ok t ∧ Whole replay t ∧ Same s t := by
  cases c with
  | split dir bits hbits tree =>
    obtain ⟨subs, hsplit, hr⟩ := splitFrag_ok h hbits hc.1 hc.2.1 hc.2.2
    exact ⟨_, hsplit, hr.whole h, hr.same⟩
  | merge basefrag tree =>
    obtain ⟨f, hmerge, hr⟩ := mergeFrags_ok h hc.1 hc.2.1 hc.2.2.1 hc.2.2.2
    exact ⟨_, hmerge, hr.whole h, hr.same⟩

/-! ## Runs -/

omit [LinearOrder ν] in
theorem Same.trans {u : Directory ν κ} (h : Same s t) (h' : Same t u) : Same s u :=
  ⟨fun hb => h'.isAuth (h.isAuth hb), fun k dn => (h'.has k dn).trans (h.has k dn),
    h'.fragstat.trans h.fragstat, h'.rstat.trans h.rstat, h'.toldFrag.trans h.toldFrag, h'.toldNest.trans h.toldNest⟩

/-- Splits and merges in any order: the directory stays whole and the same, and no assertion fails
in the next one. -/
theorem run_whole (h : Whole replay s) (hrun : Relation.ReflTransGen (Step replay) s t) :
    Whole replay t ∧ Same s t ∧ ∀ c, t.Allowed c → ∃ u, t.adjust replay c = .ok u := by
  have hboth : Whole replay t ∧ Same s t := by
    induction hrun with
    | refl => exact ⟨h, id, fun k dn => Iff.rfl, rfl, rfl, rfl, rfl⟩
    | tail hrun hstep ih =>
      obtain ⟨c, hc, hok⟩ := hstep
      obtain ⟨u, hu, hw, hs⟩ := adjust_ok ih.1 hc
      rw [hok, Except.ok.injEq] at hu
      exact hu ▸ ⟨hw, ih.2.trans hs⟩
  refine ⟨hboth.1, hboth.2, fun c hc => ?_⟩
  obtain ⟨u, hu, -⟩ := adjust_ok hboth.1 hc
  exact ⟨u, hu⟩

end Directory

/-! ## Round trips -/

namespace CDir

variable {ν κ : Type} [LinearOrder ν] {d : CDir ν κ} {i : Diri} {replay : Bool} {bits : ℕ}

omit [LinearOrder ν] in
/-- Two dirfrags with the same dentries have the same counters, pins for them and statistics. -/
theorem counts_of_items {e : CDir ν κ} (h : e.items = d.items) (hd : Held d) (hc : Counted d) (he : Held e)
    (hce : Counted e) : (e.numHeadItems, e.numHeadNull, e.numSnapItems, e.numSnapNull, e.numDirty) =
      (d.numHeadItems, d.numHeadNull, d.numSnapItems, d.numSnapNull, d.numDirty) ∧
    e.pins .child = d.pins .child ∧ e.freeze.nestedAuthPins = d.freeze.nestedAuthPins ∧
    e.freeze.dirAuthPins = d.freeze.dirAuthPins := by
  refine ⟨?_, ?_, ?_, ?_⟩
  · rw [hce.headItems, hce.headNull, hce.snapItems, hce.snapNull, hce.dirty, hc.headItems, hc.headNull, hc.snapItems,
      hc.snapNull, hc.dirty, h]
  · rw [he.child, hd.child, h]
  · rw [he.nestedAuthPins, hd.nestedAuthPins, h]
  · rw [he.dirAuthPins, hd.dirAuthPins, h]

theorem Parted.disjoint {h : d.frag.bits + bits ≤ 24} {subs : List (CDir ν κ)} (hp : Parted i d bits h replay subs) :
    subs.Pairwise fun f g => ∀ k : Key, f.items[k]? = none ∨ g.items[k]? = none := by
  rw [List.pairwise_iff_getElem]
  intro m n hm hn hlt k
  cases hk : subs[m].items[k]? with
  | none => exact .inl rfl
  | some dn =>
    cases hk' : subs[n].items[k]? with
    | none => exact .inr rfl
    | some dn' =>
      rw [hp.items k (List.getElem_mem hm), Option.filter_eq_some_iff, hp.frag (List.getElem?_eq_getElem hm)] at hk
      rw [hp.items k (List.getElem_mem hn), Option.filter_eq_some_iff, hp.frag (List.getElem?_eq_getElem hn)] at hk'
      have hdn : dn = dn' := Option.some_inj.mp (hk.1.symm.trans hk'.1)
      subst hdn
      have hm' := (Leading.contains_child_iff h (hp.length ▸ hm)).mp hk.2
      have hn' := (Leading.contains_child_iff h (hp.length ▸ hn)).mp hk'.2
      exact absurd (hm'.2.symm.trans hn'.2) (Nat.ne_of_lt hlt)

/-- What was split is merged again: it is the dirfrag of before, with the inode told the same of it, but for
the versions and time stamps of its statistics, which are made anew. -/
theorem merge_split (hd : Sound 0 replay d) (hh : Held d) (hc : Counted d) (hs : Summed d)
    (h : d.frag.bits + bits ≤ 24) (ht : i.dirfragtree.SplitAt d.frag bits h)
    (hv : ∀ {k : Key} {dn : Dentry}, d.items[k]? = some dn → d.frag.contains (i.hashDentryName dn.name) = true)
    (tree : Cover 24) : ∃ old subs e, d.split i bits h replay = .ok (old, subs) ∧
      (CDir.new d.frag d.isAuth).merge { i with dirfragtree := tree } subs replay = .ok e ∧ e.items = d.items ∧
      (e.numHeadItems, e.numHeadNull, e.numSnapItems, e.numSnapNull, e.numDirty) =
        (d.numHeadItems, d.numHeadNull, d.numSnapItems, d.numSnapNull, d.numDirty) ∧
      (e.pins .child = d.pins .child ∧ e.freeze.nestedAuthPins = d.freeze.nestedAuthPins ∧
        e.freeze.dirAuthPins = d.freeze.dirAuthPins) ∧
      e.fnode.fragstat.count = d.fnode.fragstat.count ∧ e.fnode.rstat.count = d.fnode.rstat.count ∧
      (e.fnode.accountedFragstat.count = d.toldFrag i ∧ e.fnode.accountedRstat.count = d.toldNest i) ∧
      (e.fnode.fragstat.version = i.dirstatVersion ∧ e.fnode.rstat.version = i.rstatVersion) ∧
      e.fnode.fragstat.mtime = 0 ∧
      ∀ t : ℕ, e.fnode.rstat.rctime ≤ t ↔ ∀ (k : Key) (dn : Dentry), d.items[k]? = some dn → dn.rctime ≤ t := by
  obtain ⟨old, subs, hsplit, -, -, hp⟩ := split_ok hd hh h ht hv
  have hne : subs ≠ [] := by
    rw [← List.length_pos_iff_ne_nil, hp.length]
    exact Nat.two_pow_pos bits
  have hsubs : ∀ f ∈ subs, Sound 0 replay f ∧ Held f ∧ f.isAuth = d.isAuth :=
    fun f hf => ⟨hp.sound hf, hp.held hf, hp.isAuth hf⟩
  obtain ⟨e, hmerge, -, -, hj⟩ := merge_ok (i := { i with dirfragtree := tree }) d.frag d.isAuth hne hsubs hp.disjoint
  have hitems : e.items = d.items := by
    refine Std.ExtTreeMap.ext_getElem? fun k => Option.ext fun dn => ?_
    rw [hj.items, hp.has hv]
  obtain ⟨hcounts, hpins⟩ := counts_of_items hitems hh hc hj.held hj.counted
  refine ⟨old, subs, e, hsplit, hmerge, hitems, hcounts, hpins, ?_, ?_, ⟨?_, ?_⟩, hj.versions, hj.stamped.mtime,
    hitems ▸ hj.stamped.rctime⟩
  · rw [hj.summed.fragstat, hitems, ← hs.fragstat]
  · rw [hj.summed.rstat, hitems, ← hs.rstat]
  · rw [hj.accountedFragstat, hitems, ← hs.fragstat]
    exact congrArg (d.fnode.fragstat.count + ·) hp.sum_diffs.1
  · rw [hj.accountedRstat, hitems, ← hs.rstat]
    exact congrArg (d.fnode.rstat.count + ·) hp.sum_diffs.2

end CDir

/-! ## A sample -/

namespace Sample

open Directory

/-- A file or a directory that is dirty and has an auth pin. -/
def dentry (name : Byte) (isDir : Bool) : Dentry where
  name := [name]
  last := cephNosnap
  linkage := .primary ⟨name.toNat, isDir, ⟨0, 7, (5, 1, 0, 0)⟩, [], true⟩
  dirty := true
  authPins := 1
  nestedAuthPins := 0
  dirAuthPins := 0

/-- Frozen, with two dentries. -/
def dir : CDir ℕ ℕ :=
  (((CDir.new (.root 24) true).prepareNewFragment false).gain (dentry 1 false) []).gain (dentry 200 true) []

def inode (tree : Cover 24) : Diri where
  rstatVersion := 3
  dirstatVersion := 2
  hashDentryName name := (name.headD 0).toNat * 65536
  dirfragtree := tree
  surroundings := ⟨true, false, false, false, false⟩

def directory : Directory ℕ ℕ := ⟨inode (.uniform 24 0 (by decide)), [dir]⟩

theorem dir_ok : Sound 0 false dir ∧ Held dir ∧ Counted dir ∧ Summed dir := by
  set e : CDir ℕ ℕ := CDir.new (.root 24) true
  set d : CDir ℕ ℕ := e.prepareNewFragment false with hd
  have hraw : Raw true e := ⟨calm_new true, fun _ => rfl, rfl⟩
  have hown {p : Pin} : p ≠ .child → e.pins p = e.ownPins p := by
    intro _
    cases p <;> rfl
  have hsound : Sound 0 false d := hraw.prepare rfl (fun h => by cases h) hown
  have hitems : d.items = ∅ := by rw [hd, prepareNewFragment_eq]; rfl
  obtain ⟨-, -, hnest, hdir⟩ := doFreezeDir_keeps e.freeze true
  have hheld : Held d := held_empty hitems rfl hnest hdir
  have hcounted : Counted d := by
    rw [hd, prepareNewFragment_eq]
    exact ⟨rfl, rfl, rfl, rfl, rfl⟩
  have hsummed : Summed d := by
    rw [hd, prepareNewFragment_eq]
    exact ⟨(total_empty _).symm, (total_empty _).symm⟩
  have h₁ : d.items[(dentry 1 false).key]? = none := by simp [hitems]
  have h₂ : (d.gain (dentry 1 false) []).items[(dentry 200 true).key]? = none := by
    rw [gain_items, getElem?_insert, if_neg (by decide), hitems]
    simp
  exact ⟨hsound.congr ((gain_frame _ _).trans (gain_frame _ _)), (hheld.gain h₁ (by decide)).gain h₂ (by decide),
    (hcounted.gain h₁).gain h₂, (hsummed.gain h₁).gain h₂⟩

theorem dir_frame : dir.frame = ((CDir.new (.root 24) true).prepareNewFragment false : CDir ℕ ℕ).frame :=
  (gain_frame _ _).trans (gain_frame _ _)

theorem directory_whole : Whole false directory := by
  obtain ⟨hs, hh, hc, hsum⟩ := dir_ok
  have hone {P : CDir ℕ ℕ → Prop} (hP : P dir) : ∀ {f}, f ∈ directory.dirfrags → P f :=
    fun hf => List.mem_singleton.mp hf ▸ hP
  refine ⟨hone hs, hone hh, hone hc, hone hsum, hone (P := fun f => f.frag.bits = 0) rfl, List.nodup_singleton _, ?_⟩
  intro f k dn hf hk
  rw [List.mem_singleton.mp hf]
  exact Leading.contains_root 24 _

/-- Split in two, and merged. -/
theorem run_whole_sample : ∃ t u, Step false directory t ∧ Step false t u ∧ Whole false u ∧ Same directory u := by
  have hsplit : directory.Allowed (.split dir 1 (by decide) (.uniform 24 1 (by decide))) := by
    refine ⟨List.mem_singleton_self dir, fun n _ => rfl, fun g hg hne => absurd ?_ hne⟩
    have hbits : g.bits = 0 := hg
    have hvalue : g.value = 0 := by
      rw [← g.masked, hbits]
      exact Nat.and_zero _
    exact Leading.ext hvalue hbits
  obtain ⟨t, ht, hwt, hst⟩ := adjust_ok directory_whole hsplit
  have hcovers (g : Frag) : Leading.covers (.root 24) g = true := by
    have hbits : (Leading.root 24).bits ≤ g.bits := Nat.zero_le _
    rw [Leading.covers, Leading.contains_root, decide_eq_true hbits]
    rfl
  have hunder : t.getDirfragsUnder (.root 24) = t.dirfrags := List.filter_eq_self.mpr fun f _ => hcovers f.frag
  have hdentry : directory.Has (dentry 200 true).key (dentry 200 true) := by
    refine ⟨dir, List.mem_singleton_self dir, ?_⟩
    rw [dir, gain_items, getElem?_insert, if_pos rfl]
  have hauth : ∀ f ∈ t.dirfrags, f.isAuth = true :=
    hst.isAuth fun f hf => by rw [List.mem_singleton.mp hf]; exact congrArg (fun y : CDir ℕ ℕ => y.isAuth) dir_frame
  have hmerge : t.Allowed (.merge (.root 24) (.uniform 24 0 (by decide))) := by
    refine ⟨?_, ?_, rfl, fun g _ hno => ?_⟩
    · obtain ⟨f, hf, -⟩ := (hst.has _ _).mpr hdentry
      rw [hunder]
      exact List.ne_nil_of_mem hf
    · rw [hunder]
      exact fun f hf g hg => (hauth f hf).trans (hauth g hg).symm
    · rw [hcovers] at hno
      cases hno
  obtain ⟨u, hu, -⟩ := adjust_ok hwt hmerge
  have hrun : Relation.ReflTransGen (Step false) directory u :=
    (Relation.ReflTransGen.single ⟨_, hsplit, ht⟩).tail ⟨_, hmerge, hu⟩
  obtain ⟨hw, hs, -⟩ := run_whole directory_whole hrun
  exact ⟨t, u, ⟨_, hsplit, ht⟩, ⟨_, hmerge, hu⟩, hw, hs⟩

theorem merge_split_sample : ∃ old subs e, dir.split (inode (.uniform 24 3 (by decide))) 3 (by decide) false =
      .ok (old, subs) ∧
    (CDir.new (.root 24) true).merge (inode (.uniform 24 0 (by decide))) subs false = .ok e ∧ e.items = dir.items := by
  obtain ⟨hs, hh, hc, hsum⟩ := dir_ok
  have hbits : dir.frag.bits + 3 ≤ 24 := by decide
  obtain ⟨old, subs, e, hsplit, hmerge, hitems, -⟩ := merge_split (i := inode (.uniform 24 3 (by decide))) hs hh
    hc hsum hbits (fun n _ => rfl) (fun {k dn} _ => Leading.contains_root 24 _) (.uniform 24 0 (by decide))
  have hauth : dir.isAuth = true := (congrArg (fun y : CDir ℕ ℕ => y.isAuth) dir_frame :)
  rw [hauth] at hmerge
  exact ⟨old, subs, e, hsplit, hmerge, hitems⟩

end Sample

end CephMds.Refragment
