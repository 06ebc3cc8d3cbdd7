import CephMds.Model.Merging

/-!
# Which frags are merged

The loop of `do_fragmenting` looks at the siblings of what it has reached, not at
the dirfrag it starts from, which may have grown since it was queued. So
`merge_dir` is called for the largest frag with quiet dirfrags only (`Proper`)
exactly when no queued dirfrag has grown while its siblings are quiet
(`doFragmenting_proper_iff`).
-/

namespace CephMds.Merging

open BinaryPath

variable {ι : Type} {mergeSize : ℤ} {d : Directory} {f fg g : Frag} {dir : CDir}

namespace Directory

/-- A dirfrag that is cached and auth, and should merge. -/
def Quiet (mergeSize : ℤ) (d : Directory) (g : Frag) : Prop :=
  ∃ dir, d.dirfrags g = some dir ∧ dir.isAuth = true ∧ dir.shouldMerge mergeSize = true

/-- All dirfrags under a frag are quiet. -/
def QuietUnder (mergeSize : ℤ) (d : Directory) (fg : Frag) : Prop := ∀ g ∈ d.leaves, fg <:+ g → d.Quiet mergeSize g

/-- What `merge_dir` may be called for: the largest frag above the queued one with quiet dirfrags only. -/
structure Proper (mergeSize : ℤ) (d : Directory) (queued fg : Frag) : Prop where
  above : fg <:+ queued
  strict : fg ≠ queued
  quiet : d.QuietUnder mergeSize fg
  largest {p : Frag} : p <:+ queued → d.QuietUnder mergeSize p → fg <:+ p

theorem mem_leavesUnder : g ∈ d.leavesUnder fg ↔ g ∈ d.leaves ∧ fg <:+ g := by
  rw [leavesUnder, List.mem_filter, List.isSuffixOf_iff_suffix]

theorem sibsShouldMerge_iff (mergeSize : ℤ) (d : Directory) (fg : Frag) :
    d.sibsShouldMerge mergeSize fg = true ↔ d.QuietUnder mergeSize fg := by
  simp only [sibsShouldMerge, getDirfragsUnder, Bool.and_eq_true, List.all_eq_true, List.mem_filterMap]
  constructor
  · rintro ⟨hcomplete, hall⟩ g hg hfg
    have hunder := mem_leavesUnder.mpr ⟨hg, hfg⟩
    obtain ⟨dir, hdir⟩ := Option.isSome_iff_exists.mp (hcomplete g hunder)
    exact ⟨dir, hdir, hall dir ⟨g, hunder, hdir⟩⟩
  · intro hquiet
    refine ⟨fun g hg => ?_, fun dir hdir => ?_⟩
    · obtain ⟨hleaf, hfg⟩ := mem_leavesUnder.mp hg
      obtain ⟨dir, hdir, -⟩ := hquiet g hleaf hfg
      rw [hdir]
      rfl
    · obtain ⟨g, hg, hdir⟩ := hdir
      obtain ⟨hleaf, hfg⟩ := mem_leavesUnder.mp hg
      obtain ⟨dir', hdir', hauth, hmerge⟩ := hquiet g hleaf hfg
      obtain rfl := Option.some.inj (hdir.symm.trans hdir')
      exact ⟨hauth, hmerge⟩

/-- A leaf under a leaf. -/
theorem eq_of_suffix (hf : f ∈ d.leaves) (hg : g ∈ d.leaves) (h : f <:+ g) : g = f := (d.prefixFree f g hf hg h).symm

/-- What the loop reaches: the dirfrags under it are quiet, but for the one it starts from. -/
theorem mergeFrag_quiet (hf : f ∈ d.leaves) (hg : g ∈ d.leaves) (h : d.mergeFrag mergeSize f <:+ g) :
    g = f ∨ d.Quiet mergeSize g :=
  (ascend_good (sibsShouldMerge_iff mergeSize d) d.prefixFree hf List.suffix_rfl hg h).imp_left (eq_of_suffix hf hg)

theorem mergeFrag_largest {p : Frag} (hp : p <:+ f) (h : ∀ g ∈ d.leaves, p <:+ g → g = f ∨ d.Quiet mergeSize g) :
    d.mergeFrag mergeSize f <:+ p := by
  refine ascend_largest (sibsShouldMerge_iff mergeSize d) hp fun g hg hpg => ?_
  rcases h g hg hpg with rfl | hquiet
  · exact .inl List.suffix_rfl
  · exact .inr hquiet

/-- The loop moves when the siblings are quiet. -/
theorem mergeFrag_moves (hf : f ≠ []) : d.mergeFrag mergeSize f ≠ f ↔ d.QuietUnder mergeSize (sibling f) := by
  cases f with
  | nil => exact absurd rfl hf
  | cons b p => rw [mergeFrag, ne_eq, ascend_eq_self, Bool.not_eq_false, sibsShouldMerge_iff]

/-- The queued dirfrag is still small, or a sibling is not quiet. -/
def StillSmall (mergeSize : ℤ) (d : Directory) (f : Frag) : Prop :=
  ∀ dir, d.dirfrags f = some dir → dir.isAuth = true → f ≠ [] → d.QuietUnder mergeSize (sibling f) →
    dir.shouldMerge mergeSize = true

theorem visit_eq_some : d.visit mergeSize f = some fg ↔ (∃ dir, d.dirfrags f = some dir ∧ dir.isAuth = true) ∧ f ≠ [] ∧
    d.QuietUnder mergeSize (sibling f) ∧ fg = d.mergeFrag mergeSize f := by
  rw [visit]
  cases hdir : d.dirfrags f with
  | none => exact ⟨fun h => (by cases h), fun ⟨⟨dir, h, _⟩, _⟩ => (by cases h)⟩
  | some dir =>
    dsimp only
    by_cases hskip : (!dir.isAuth || f == []) = true
    · rw [if_pos hskip]
      refine ⟨fun h => (by cases h), ?_⟩
      rintro ⟨⟨dir', hdir', hauth⟩, hf, -⟩
      obtain rfl := Option.some.inj hdir'
      simp [hauth, hf] at hskip
    · rw [if_neg hskip]
      have hauth : dir.isAuth = true ∧ f ≠ [] := by simpa using hskip
      by_cases hmove : d.mergeFrag mergeSize f ≠ f
      · rw [if_pos hmove, Option.some.injEq]
        exact ⟨fun h => ⟨⟨dir, rfl, hauth.1⟩, hauth.2, (mergeFrag_moves hauth.2).mp hmove, h.symm⟩, fun h => h.2.2.2.symm⟩
      · rw [if_neg hmove]
        exact ⟨fun h => (by cases h), fun h => absurd ((mergeFrag_moves h.2.1).mpr h.2.2.1) hmove⟩

theorem visit_proper_iff : (∀ fg, d.visit mergeSize f = some fg → d.Proper mergeSize f fg) ↔ d.StillSmall mergeSize f := by
  constructor
  · intro h dir hdir hauth hf hsib
    obtain ⟨-, -, hquiet, -⟩ := h _ (visit_eq_some.mpr ⟨⟨dir, hdir, hauth⟩, hf, hsib, rfl⟩)
    obtain ⟨dir', hdir', -, hmerge⟩ := hquiet f (d.cached hdir) (ascend_suffix _ f)
    obtain rfl := Option.some.inj (hdir.symm.trans hdir')
    exact hmerge
  · intro h fg hfg
    obtain ⟨⟨dir, hdir, hauth⟩, hf, hsib, rfl⟩ := visit_eq_some.mp hfg
    have hself : d.Quiet mergeSize f := ⟨dir, hdir, hauth, h dir hdir hauth hf hsib⟩
    refine ⟨ascend_suffix _ f, (mergeFrag_moves hf).mpr hsib, fun g hg hfg => ?_, fun hp hquiet => ?_⟩
    · rcases mergeFrag_quiet (d.cached hdir) hg hfg with rfl | hgood
      · exact hself
      · exact hgood
    · exact mergeFrag_largest hp fun g hg hpg => .inr (hquiet g hg hpg)

end Directory

/-! ## The queue -/

variable {mergeDir : Cache ι → ι → Frag → Cache ι} {c : Cache ι} {q : List (ι × Frag)}

/-- The call is for a proper frag of the directory. -/
def MergeCall.Proper (mergeSize : ℤ) (m : MergeCall ι) : Prop :=
  ∃ d, m.cache m.diri = some d ∧ d.Proper mergeSize m.queued m.fg

/-- The queued dirfrag is still small when its turn comes. -/
def StillSmall (mergeSize : ℤ) (c : Cache ι) (df : ι × Frag) : Prop :=
  ∀ d, c df.1 = some d → d.StillSmall mergeSize df.2

theorem mergeCall_proper_iff (mergeSize : ℤ) (c : Cache ι) (df : ι × Frag) :
    (∀ m, mergeCall mergeSize c df = some m → m.Proper mergeSize) ↔ StillSmall mergeSize c df := by
  rw [mergeCall, StillSmall]
  cases hd : c df.1 with
  | none => exact ⟨fun _ d h => (by cases h), fun _ m h => (by cases h)⟩
  | some d =>
    rw [Option.bind_some]
    constructor
    · intro h d' hd'
      obtain rfl := Option.some.inj hd'
      refine Directory.visit_proper_iff.mp fun fg hfg => ?_
      obtain ⟨d', hd', hproper⟩ := h ⟨c, df.1, df.2, fg⟩ (by rw [hfg]; rfl)
      obtain rfl := Option.some.inj (hd.symm.trans hd')
      exact hproper
    · intro h m hm
      obtain ⟨fg, hfg, rfl⟩ := Option.map_eq_some_iff.mp hm
      exact ⟨d, hd, Directory.visit_proper_iff.mpr (h d rfl) fg hfg⟩

/-- The loop ends; and `merge_dir` is called for the largest frags with quiet dirfrags only, exactly when every queued
dirfrag is still small. -/
theorem doFragmenting_proper_iff (mergeDir : Cache ι → ι → Frag → Cache ι) (mergeSize : ℤ) (c : Cache ι)
    (q : List (ι × Frag)) :
    (∀ (d : Directory) (f : Frag),
      Relation.ReflTransGen (fun n n' => ascendStep (d.sibsShouldMerge mergeSize) n = some n') f (d.mergeFrag mergeSize f) ∧
        ascendStep (d.sibsShouldMerge mergeSize) (d.mergeFrag mergeSize f) = none) ∧
    ((∀ m ∈ doFragmenting mergeDir mergeSize c q, m.Proper mergeSize) ↔
      Meets (mergeStep mergeDir mergeSize) (StillSmall mergeSize) c q) := by
  refine ⟨fun d f => ascend_steps _ f, ?_⟩
  induction q generalizing c with
  | nil => exact ⟨fun _ => trivial, fun _ m hm => absurd hm List.not_mem_nil⟩
  | cons df q ih =>
    rw [meets_cons_of_some rfl, ← mergeCall_proper_iff, doFragmenting, ← ih]
    cases mergeCall mergeSize c df with
    | none => simp
    | some m => simp

/-! ## A dirfrag that has grown -/

/-- A directory in two dirfrags, of which the second has grown to `size`. -/
def grown (size : ℤ) : Directory where
  leaves := [[false], [true]]
  prefixFree := by
    intro f g hf hg h
    have hlen : f.length = g.length := by
      rcases List.mem_pair.mp hf with rfl | rfl <;> rcases List.mem_pair.mp hg with rfl | rfl <;> rfl
    exact h.eq_of_length hlen
  dirfrags f := if f = [false] then some ⟨true, 3⟩ else if f = [true] then some ⟨true, size⟩ else none
  cached {f dir} h := by
    split at h
    · rename_i hf
      exact hf ▸ List.mem_cons_self
    · split at h
      · rename_i hf
        exact hf ▸ List.mem_cons_of_mem _ List.mem_cons_self
      · cases h

/-- The second dirfrag is queued and has grown to 100, with 50 as the limit: both are merged. -/
theorem not_proper : (doFragmenting (fun c _ _ => c) 50 (fun _ : Unit => some (grown 100)) [((), [true])]).map
      (fun m => (m.queued, m.fg)) = [([true], [])] ∧
    ¬∀ m ∈ doFragmenting (fun c _ _ => c) 50 (fun _ : Unit => some (grown 100)) [((), [true])], m.Proper 50 := by
  refine ⟨by decide +kernel, fun h => ?_⟩
  obtain ⟨d, hd, hproper⟩ := h ⟨fun _ => some (grown 100), (), [true], []⟩ (.head _)
  obtain rfl := Option.some.inj hd
  obtain ⟨dir, hdir, -, hmerge⟩ := hproper.quiet [true] (by decide) List.nil_suffix
  obtain rfl : (⟨true, 100⟩ : CDir) = dir := Option.some.inj hdir
  exact absurd hmerge (by decide)

end CephMds.Merging
