import CephMds.Model.Fragment
import CephMds.Proof.Subtree.Reachable

/-!
# Refragmentation keeps the subtree map

A split or merge replaces some fragments of an inode by new ones that have
their children (`Steals.replaces`). If the old fragments were subtree roots
with one authority, the new ones are, and otherwise none is: the nearest root
above a fragment is then the same as before, or an old fragment before and a
new one now. `Inv.refrag` says what the map has to be after that, and
`adjustDirFragmentsSplit_spec` that it is after a split.
-/

namespace CephMds

section Tree

variable {ι α : Type} {t t' : DirTree ι α} {i : ι} {srcs news : List α} {pick : ι → α}

theorem Steals.parent_notMem (h : Steals t i srcs news pick) {q : α} (hq : t.parentDir i = some q) :
    q ∉ srcs := fun hs => absurd (t.depth_lt (h.src hs) hq) (lt_irrefl _)

theorem Steals.notMem (h : Steals t i srcs news pick) {f : α} (hf : f ∈ news) : f ∉ srcs := fun hs => by
  have := h.free hf
  rw [h.src hs] at this
  cases this

variable [DecidableEq ι] [LinearOrder α]

/-- The forest after the dentries have moved, whether the old fragments are
closed or not. -/
theorem Steals.replaces (h : Steals t i srcs news pick)
    (hi : ∀ x, x ∉ srcs → t'.inode x = if x ∈ news then some i else t.inode x)
    (hp : t'.parentDir = (t.steal i srcs news pick h).parentDir) :
    t.forest.Replaces t'.forest (· ∈ srcs) (· ∈ news) (t.parentDir i) := by
  have hpar : ∀ {x q}, t.forest.parent x = some q → ∃ j, t.inode x = some j ∧ t.parentDir j = some q :=
    Option.bind_eq_some_iff.mp
  have hpar' : ∀ {x j}, x ∉ srcs → x ∉ news → t.inode x = some j →
      t'.forest.parent x = (t.parentDir j).map fun q => if q ∈ srcs then pick j else q := by
    intro x j hx hx' hj
    simp [DirTree.forest, hi x hx, hx', hj, hp, DirTree.steal]
  refine ⟨fun {s} hs => ?_, fun {f} hf => ?_, fun {x s} hx hx' hq hs => ?_, fun {x q} hx hx' hq hs => ?_,
    fun {x} hx hx' hq => ?_, fun {x f} hf hq => ?_⟩
  · simp [DirTree.forest, h.src hs]
  · simp only [DirTree.forest, hi f (h.notMem hf), if_pos hf, hp, DirTree.steal, Option.bind_some]
    cases hq : t.parentDir i with
    | none => rfl
    | some q => rw [Option.map_some, if_neg (h.parent_notMem hq)]
  · obtain ⟨j, hj, hjs⟩ := hpar hq
    exact ⟨pick j, h.pick hjs hs, by rw [hpar' hx hx' hj, hjs, Option.map_some, if_pos hs]⟩
  · obtain ⟨j, hj, hjq⟩ := hpar hq
    rw [hpar' hx hx' hj, hjq, Option.map_some, if_neg hs]
  · cases hj : t.inode x with
    | none => simp [DirTree.forest, hi x hx, hx', hj]
    | some j =>
      rw [hpar' hx hx' hj]
      simp only [DirTree.forest, hj, Option.bind_some] at hq
      rw [hq]; rfl
  · obtain ⟨j, -, hjf⟩ := hpar hq
    exact h.unused hf hjf

end Tree

namespace Cache

variable {ι α L : Type} {I : InodeAuthority ι α} {c c' c₁ : Cache ι α L} {S N : α → Prop}
  {o : Option α} {k : Bool} {a : Auth}

open Checked

/-- A new fragment is no root yet. -/
theorem Inv.root_free {srcs news : List α} {pick : ι → α} {i : ι} {f : α} (hI : Inv c)
    (h : Steals c.tree i srcs news pick) (hf : f ∈ news) : c.isSubtreeRoot f = false := by
  by_contra hroot
  rw [Bool.not_eq_false] at hroot
  have := hI.cached hroot
  rw [h.free hf] at this
  cases this

/-! ## What the map has to be -/

section Refrag

variable (hI : Inv c) (hR : c.tree.forest.Replaces c'.tree.forest S N o)
  (hm : Forest.Remarks S N c.isSubtreeRoot c'.isSubtreeRoot k)
  (hfree : ∀ f, N f → c.isSubtreeRoot f = false) (hgone : ∀ s, S s → c'.isSubtreeRoot s = false)

include hI hR hm hfree in
/-- The bounds of the old fragments are now below new ones. -/
theorem rootAbove_below {s d : α} (hS : ¬ S s) (hs : s ∈ c.bounds d) (hd : S d) :
    ∃ f, N f ∧ c'.rootAbove s = some f := by
  obtain ⟨hroot, hab⟩ := (hI.mem_bounds d s).mp hs
  have hN : ¬ N s := fun hN => by
    rw [hfree s hN] at hroot
    cases hroot
  rcases hR.above hm hS hN with ⟨-, hno⟩ | ⟨d', f, -, hf, -, hv⟩
  · exact absurd hd (hno d hab)
  · exact ⟨f, hf, hv⟩

include hI hR hm hfree hgone in
theorem Inv.refrag (hne : ∃ d, S d) (hk : ∀ x, (c'.subtrees x).isSome = c'.isSubtreeRoot x)
    (hp : ∀ x, c'.pinSubtree x = if c'.isSubtreeRoot x then 1 else 0)
    (hi : ∀ x, c'.isSubtreeRoot x = true → (c'.tree.inode x).isSome)
    (hb : ∀ r s, s ∈ c'.bounds r ↔ ¬ S s ∧ ¬ S r ∧
      (¬ N s ∧ ¬ N r ∧ s ∈ c.bounds r ∨ N s ∧ ¬ N r ∧ (∃ d, S d ∧ d ∈ c.bounds r) ∨
        ¬ N s ∧ N r ∧ (∃ d, S d ∧ s ∈ c.bounds d) ∧ c'.rootAbove s = some r)) : Inv c' := by
  obtain ⟨d₀, hd₀⟩ := hne
  have hroot : ∀ {r}, c'.isSubtreeRoot r = true → ¬ S r := fun hr hS => by
    rw [hgone _ hS] at hr
    cases hr
  refine ⟨hk, hp, fun r s => ?_, fun {s q} hs hq => ?_, fun hs => hi _ hs⟩
  · rw [hb]
    by_cases hSs : S s
    · simp [hSs, hgone s hSs]
    by_cases hSr : S r
    · have : c'.rootAbove s ≠ some r := fun h => hroot (rootAbove_isRoot h) hSr
      simp [hSr, this]
    simp only [hSs, hSr, not_false_eq_true, true_and]
    by_cases hNs : N s
    · -- A new fragment is a bound where the old ones were.
      have hab : c'.rootAbove s = c.rootAbove d₀ := hR.above_new hm hd₀ hNs
      have hsame : ∀ d, S d → c.rootAbove d = c.rootAbove d₀ := fun d hd =>
        (hR.above_new hm hd hNs).symm.trans hab
      have hNr : c.rootAbove d₀ = some r → ¬ N r := fun h hN => by
        have := rootAbove_isRoot h
        rw [hfree r hN] at this
        cases this
      simp only [hNs, not_true_eq_false, false_and, true_and, or_false, false_or, hab, hm.new hNs]
      constructor
      · rintro ⟨-, d, hd, hdr⟩
        obtain ⟨h₁, h₂⟩ := (hI.mem_bounds r d).mp hdr
        exact ⟨(hm.old hd).symm.trans h₁, (hsame d hd).symm.trans h₂⟩
      · rintro ⟨hk, hr⟩
        exact ⟨hNr hr, d₀, hd₀, (hI.mem_bounds r d₀).mpr ⟨(hm.old hd₀).trans hk, hr⟩⟩
    · simp only [hNs, not_false_eq_true, true_and, false_and, false_or, hm.other hSs hNs,
        hI.mem_bounds]
      have hmatch := hR.above hm hSs hNs
      change Forest.Matches S N (c.rootAbove s) (c'.rootAbove s) at hmatch
      by_cases hNr : N r
      · simp only [hNr, not_true_eq_false, false_and, true_and, false_or]
        constructor
        · rintro ⟨⟨d, hd, hs, -⟩, hab⟩
          exact ⟨hs, hab⟩
        · rintro ⟨hs, hab⟩
          refine ⟨?_, hab⟩
          rcases hmatch with ⟨he, -⟩ | ⟨d, f, hd, -, hu, -⟩
          · have := rootAbove_isRoot (he.trans hab)
            rw [hfree r hNr] at this
            cases this
          · exact ⟨d, hd, hs, hu⟩
      · simp only [hNr, not_false_eq_true, true_and, false_and, or_false]
        refine and_congr_right fun _ => ?_
        rcases hmatch with ⟨he, -⟩ | ⟨d, f, hd, hf, hu, hv⟩
        · rw [he]
        · rw [hu, hv, Option.some.injEq, Option.some.injEq]
          exact ⟨fun e => absurd (e ▸ hd) hSr, fun e => absurd (e ▸ hf) hNr⟩
  · rw [← rootAbove_of_parent hq]
    by_cases hN : N s
    · have hab : c'.rootAbove s = c.rootAbove d₀ := hR.above_new hm hd₀ hN
      have hq₀ : c.getParentDir d₀ = some q := (hR.old hd₀).trans ((hR.new hN).symm.trans hq)
      have hk₀ : c.isSubtreeRoot d₀ = true := (hm.old hd₀).trans ((hm.new hN).symm.trans hs)
      obtain ⟨r, hr⟩ := hI.rootAbove_isSome hk₀ hq₀
      rw [hab, hr]; rfl
    · have hS := hroot hs
      have hs₀ : c.isSubtreeRoot s = true := (hm.other hS hN).symm.trans hs
      cases hq₀ : c.getParentDir s with
      | none =>
        have := hR.top hS hN hq₀
        rw [show c'.tree.forest.parent s = some q from hq] at this
        cases this
      | some q₀ =>
        obtain ⟨r, hr⟩ := hI.rootAbove_isSome hs₀ hq₀
        rcases hR.above hm hS hN with ⟨he, -⟩ | ⟨d, f, -, -, -, hv⟩
        · change c.rootAbove s = c'.rootAbove s at he
          rw [← he, hr]; rfl
        · change c'.rootAbove s = some f at hv
          rw [hv]; rfl

include hR hm in
/-- The authority of what is neither old nor new is what it was, and the new
fragments have that of the old ones. -/
theorem authority_refrag (hS : ∀ s, S s → c.dirAuth s = a) (hN : ∀ f, N f → c'.dirAuth f = a)
    (hA : ∀ x, ¬ S x → ¬ N x → c'.dirAuth x = c.dirAuth x)
    (hi : ∀ x, ¬ S x → ¬ N x → c'.tree.inode x = c.tree.inode x)
    (hp : ∀ j, c.tree.parentDir j = none → c'.tree.parentDir j = none)
    (hsrc : ∀ s f, S s → N f → c'.tree.inode f = c.tree.inode s) (x : α) :
    (¬ S x → ¬ N x → c'.authority I x = c.authority I x) ∧
      (S x → ∀ f, N f → c'.authority I f = c.authority I x) := by
  have htop : ∀ {y z}, c.isSubtreeRoot y = false → c'.isSubtreeRoot z = false →
      c'.tree.inode z = c.tree.inode y → c.getParentDir y = none →
      c'.authority I z = c.authority I y := by
    intro y z hy hz hyz hq
    rw [authority, authority, hy, hz, hyz]
    simp only [Bool.false_eq_true, if_false]
    cases hj : c.tree.inode y with
    | none => rfl
    | some j =>
      have hjn : c.tree.parentDir j = none := by
        simpa [getParentDir, DirTree.forest, hj] using hq
      exact I.of_top (hp j hjn) hjn
  induction x using c.tree.forest.downward with
  | _ x ih =>
    refine ⟨fun hSx hNx => ?_, fun hSx f hf => ?_⟩
    · cases hroot : c.isSubtreeRoot x with
      | true =>
        rw [authority_of_root hroot, authority_of_root ((hm.other hSx hNx).trans hroot), hA x hSx hNx]
      | false =>
        have hroot' := (hm.other hSx hNx).trans hroot
        cases hq : c.getParentDir x with
        | none => exact htop hroot hroot' (hi x hSx hNx) hq
        | some q =>
          rw [authority_of_parent hroot hq]
          by_cases hSq : S q
          · obtain ⟨f, hf, hf'⟩ := hR.child hSx hNx hq hSq
            rw [authority_of_parent hroot' hf']
            exact (ih q hq).2 hSq f hf
          · rw [authority_of_parent hroot' (hR.other hSx hNx hq hSq)]
            exact (ih q hq).1 hSq fun hNq => hR.fresh hNq hq
    · cases hroot : c.isSubtreeRoot x with
      | true =>
        have hroot' := (hm.new hf).trans ((hm.old hSx).symm.trans hroot)
        rw [authority_of_root hroot, authority_of_root hroot', hS x hSx, hN f hf]
      | false =>
        have hroot' := (hm.new hf).trans ((hm.old hSx).symm.trans hroot)
        cases hq : c.getParentDir x with
        | none => exact htop hroot hroot' (hsrc x f hSx hf) hq
        | some q =>
          have hq' : c'.getParentDir f = some q := (hR.new hf).trans ((hR.old hSx).symm.trans hq)
          rw [authority_of_parent hroot hq, authority_of_parent hroot' hq']
          exact (ih q hq).1 (hR.not_old hSx hq) fun hNq => hR.fresh hNq hq

end Refrag

/-! ## Split -/

section Split

variable [LinearOrder α]

theorem foldl_setBounds (l : List α) : ∀ (c : Cache ι α L),
    l.foldl (fun c f => c.setBounds f ∅) c =
      { c with subtrees := fun x => if x ∈ l then some ∅ else c.subtrees x } := by
  induction l with
  | nil => exact fun c => rfl
  | cons f l ih =>
    intro c
    rw [List.foldl_cons, ih]
    simp only [setBounds, Cache.mk.injEq, true_and, and_true]
    funext x
    by_cases hx : x ∈ l <;> by_cases hf : x = f <;> simp [hx, hf]

/-- The loop that gives each bound to the nearest root above it. -/
theorem distributeBounds_spec (bs : Finset α)
    (hb : ∀ p ∈ bs, ∃ f, c.rootAbove p = some f ∧ (c.subtrees f).isSome) :
    ∃ c', c.distributeBounds bs = .ok c' ∧ c' = { c with subtrees := c'.subtrees } ∧
      (∀ x, (c'.subtrees x).isSome = (c.subtrees x).isSome) ∧
      ∀ x s, s ∈ c'.bounds x ↔ s ∈ c.bounds x ∨ s ∈ bs ∧ c.rootAbove s = some x := by
  suffices H : ∀ (l : List α) (c : Cache ι α L),
      (∀ p ∈ l, ∃ f, c.rootAbove p = some f ∧ (c.subtrees f).isSome) →
      ∃ c', l.foldlM (fun c p => do
        let q ← deref (c.getParentDir p)
        let frag ← deref (c.getSubtreeRoot q)
        return c.insertBound frag p) c = .ok c' ∧ c' = { c with subtrees := c'.subtrees } ∧
      (∀ x, (c'.subtrees x).isSome = (c.subtrees x).isSome) ∧
      ∀ x s, s ∈ c'.bounds x ↔ s ∈ c.bounds x ∨ s ∈ l ∧ c.rootAbove s = some x by
    obtain ⟨c', h₁, h₂, h₃, h₄⟩ := H (ascending bs) c fun p hp => hb p (mem_ascending.mp hp)
    exact ⟨c', h₁, h₂, h₃, fun x s => by rw [h₄, mem_ascending]⟩
  intro l
  induction l with
  | nil => exact fun c _ => ⟨c, rfl, rfl, fun _ => rfl, by simp⟩
  | cons p l ih =>
    intro c hl
    obtain ⟨f, hf, hk⟩ := hl p List.mem_cons_self
    obtain ⟨q, hq, hqf⟩ := rootAbove_eq_some.mp hf
    have hkey : ∀ x, ((c.insertBound f p).subtrees x).isSome = (c.subtrees x).isSome :=
      fun x => setBounds_key hk
    obtain ⟨c', h₁, h₂, h₃, h₄⟩ := ih (c.insertBound f p) fun e he => by
      obtain ⟨g, hg, hkg⟩ := hl e (List.mem_cons_of_mem _ he)
      exact ⟨g, hg, (hkey g).trans hkg⟩
    refine ⟨c', ?_, h₂, fun x => (h₃ x).trans (hkey x), fun x s => ?_⟩
    · rw [List.foldlM_cons, bind_ok]
      exact ⟨_, bind_ok.mpr ⟨q, deref_ok.mpr hq, bind_ok.mpr ⟨f, deref_ok.mpr hqf, rfl⟩⟩, h₁⟩
    · rw [h₄, mem_insertBound, List.mem_cons]
      change _ ∨ s ∈ l ∧ c.rootAbove s = some x ↔ _
      constructor
      · rintro ((h | ⟨rfl, rfl⟩) | ⟨h, h'⟩)
        · exact .inl h
        · exact .inr ⟨.inl rfl, hf⟩
        · exact .inr ⟨.inr h, h'⟩
      · rintro (h | ⟨rfl | h, h'⟩)
        · exact .inl (.inl h)
        · rw [hf, Option.some.injEq] at h'
          exact .inl (.inr ⟨h'.symm, rfl⟩)
        · exact .inr ⟨h, h'⟩

variable {i : ι} {dir : α} {subs : List α} {pick : ι → α}

theorem replaceBound_spec (dir : α) (subs : List α) {p : Option α}
    (hp : ∀ r, p = some r → (c.subtrees r).isSome ∧ dir ∈ c.bounds r) :
    ∃ c', c.replaceBound p dir subs = .ok c' ∧ c' = { c with subtrees := c'.subtrees } ∧
      (∀ x, (c'.subtrees x).isSome = (c.subtrees x).isSome) ∧
      ∀ x s, s ∈ c'.bounds x ↔
        s ∈ c.bounds x ∧ ¬ (p = some x ∧ s = dir) ∨ p = some x ∧ s ∈ subs := by
  cases p with
  | none => exact ⟨c, rfl, rfl, fun _ => rfl, by simp⟩
  | some r =>
    obtain ⟨hk, hd⟩ := hp r rfl
    have hke : ∀ x, ((c.eraseBound r dir).subtrees x).isSome = (c.subtrees x).isSome :=
      fun x => setBounds_key hk
    obtain ⟨h₁, h₂, h₃⟩ := foldl_insertBound (c := c.eraseBound r dir) subs ((hke r).trans hk)
    refine ⟨_, bind_ok.mpr ⟨(), assert_ok.mpr (decide_eq_true hd), rfl⟩, ?_,
      fun x => (h₂ x).trans (hke x), fun x s => ?_⟩
    · rw [h₁]; rfl
    · rw [h₃, mem_eraseBound, Option.some.injEq, @eq_comm _ r x]

/-- The surgery on the map for a root `dir` with the roots `subs` beside it. -/
theorem splitSubtree_spec {p : Option α} (hroot : c.isSubtreeRoot dir = true)
    (hp : ∀ r, p = some r → (c.subtrees r).isSome ∧ r ≠ dir ∧ dir ∈ c.bounds r)
    (hds : dir ∉ subs) (hempty : ∀ f ∈ subs, c.bounds f = ∅)
    (hb : ∀ s ∈ c.bounds dir, ∃ f ∈ subs, c.rootAbove s = some f) :
    ∃ c', c.splitSubtree p dir subs = .ok c' ∧
      c' = { c with subtrees := c'.subtrees, dirAuth := Function.update c.dirAuth dir cdirAuthDefault } ∧
      (∀ x, (c'.subtrees x).isSome = (decide (x ∈ subs) || !decide (x = dir) && (c.subtrees x).isSome)) ∧
      ∀ x s, s ∈ c'.bounds x ↔ x ≠ dir ∧ (s ∈ c.bounds x ∧ ¬ (p = some x ∧ s = dir) ∨
        p = some x ∧ s ∈ subs) ∨ s ∈ c.bounds dir ∧ c.rootAbove s = some x := by
  -- New keys without bounds.
  obtain ⟨c₁, hc₁⟩ : ∃ c₁, c₁ = subs.foldl (fun c f => c.setBounds f ∅) c := ⟨_, rfl⟩
  have h₁ := foldl_setBounds subs c
  rw [← hc₁] at h₁
  have hb₁ : ∀ x, c₁.bounds x = c.bounds x := by
    intro x
    rw [h₁, bounds]
    by_cases hx : x ∈ subs
    · simp [hx, hempty x hx]
    · simp [hx, bounds]
  have hk₁ : ∀ x, (c₁.subtrees x).isSome = (decide (x ∈ subs) || (c.subtrees x).isSome) := by
    intro x
    rw [h₁]
    by_cases hx : x ∈ subs <;> simp [hx]
  -- They replace `dir` as bounds of the root above.
  obtain ⟨c₂, hc₂, h₂, hk₂, hb₂⟩ := replaceBound_spec (c := c₁) dir subs (p := p)
    fun r hr => by
      obtain ⟨h₁, -, h₂⟩ := hp r hr
      exact ⟨by rw [hk₁, h₁, Bool.or_true], by rw [hb₁]; exact h₂⟩
  have hbd : c₂.bounds dir = c.bounds dir := by
    ext s
    rw [hb₂, hb₁]
    have hne : p ≠ some dir := fun e => (hp dir e).2.1 rfl
    simp [hne]
  have hA : (c₂.eraseSubtree dir).rootAbove = c.rootAbove := by
    rw [h₂, h₁]; rfl
  -- The bounds of `dir` go to them.
  obtain ⟨c₃, hc₃, h₃, hk₃, hb₃⟩ := distributeBounds_spec (c := c₂.eraseSubtree dir) (c₂.bounds dir)
    fun s hs => by
      rw [hbd] at hs
      obtain ⟨f, hf, hsf⟩ := hb s hs
      have hfd : f ≠ dir := fun e => hds (e ▸ hf)
      refine ⟨f, by rw [hA, hsf], ?_⟩
      simp only [eraseSubtree, Function.update_of_ne hfd]
      rw [hk₂, hk₁, decide_eq_true hf, Bool.true_or]
  refine ⟨c₃.setDirAuth dir cdirAuthDefault, ?_, ?_, fun x => ?_, fun x s => ?_⟩
  · refine (if_pos hroot).trans ?_
    rw [← hc₁]
    exact bind_ok.mpr ⟨c₂, hc₂, bind_ok.mpr ⟨c₃, hc₃, rfl⟩⟩
  · rw [h₃, h₂, h₁]; rfl
  · rw [show (c₃.setDirAuth dir cdirAuthDefault).subtrees = c₃.subtrees from rfl, hk₃]
    by_cases hx : x = dir
    · simp [eraseSubtree, hx, hds]
    · simp [eraseSubtree, hx, hk₂, hk₁]
  · rw [show (c₃.setDirAuth dir cdirAuthDefault).bounds x = c₃.bounds x from rfl, hb₃, hbd, hA]
    by_cases hx : x = dir
    · simp [eraseSubtree, bounds, hx]
    · rw [show (c₂.eraseSubtree dir).bounds x = c₂.bounds x by simp [eraseSubtree, bounds, hx], hb₂, hb₁]
      simp [hx]

section Dentries

variable [DecidableEq ι]

/-- The state after `CDir::split`: the new fragments have the authority and
the pins of `dir`, which has given its pin back. -/
theorem splitDir_spec (fac : L → L) (hI : Inv c) (h : Steals c.tree i [dir] subs pick) :
    ∃ c₁, c.splitDir i dir subs pick fac h = .ok c₁ ∧ c₁.tree = c.tree.steal i [dir] subs pick h ∧
      c₁.subtrees = c.subtrees ∧
      (c₁.dirAuth = fun x => if x ∈ subs then c.dirAuth dir else c.dirAuth x) ∧
      c₁.pinSubtree = fun x => if x ∈ subs then (if c.isSubtreeRoot dir then 1 else 0)
        else if x = dir then 0 else c.pinSubtree x := by
  have hds : dir ∉ subs := fun hd => h.notMem hd (List.mem_singleton_self dir)
  have hpin := hI.pin dir
  unfold splitDir finishOldFragment
  cases hroot : c.isSubtreeRoot dir with
  | true =>
    rw [hroot, if_pos rfl] at hpin
    rw [if_pos (by simpa [isSubtreeRoot, hds] using hroot)]
    refine ⟨_, bind_ok.mpr ⟨(), assert_ok.mpr ?_, rfl⟩, rfl, rfl, rfl, funext fun x => ?_⟩
    · simp [hds, hpin]
    · by_cases hx : x = dir
      · simp [hx, hds, hpin]
      · simp [hx]
  | false =>
    rw [hroot, if_neg Bool.false_ne_true] at hpin
    rw [if_neg (by simpa [isSubtreeRoot, hds] using hroot)]
    refine ⟨_, rfl, rfl, rfl, rfl, funext fun x => ?_⟩
    by_cases hx : x = dir
    · simp [hx, hds, hpin]
    · simp [hx]

/-- `CDir::split` takes all children of `dir`. -/
theorem Steals.no_child (h : Steals c.tree i [dir] subs pick) (hds : dir ∉ subs) (x s : α)
    (hs : s ∈ [dir]) : (c.tree.steal i [dir] subs pick h).forest.parent x ≠ some s := by
  intro hx
  obtain ⟨j, -, hj⟩ := Option.bind_eq_some_iff.mp hx
  obtain ⟨q, hq, he⟩ := Option.map_eq_some_iff.mp hj
  obtain rfl := List.mem_singleton.mp hs
  by_cases hqd : q ∈ [s]
  · rw [if_pos hqd] at he
    exact hds (he ▸ h.pick hq hqd)
  · rw [if_neg hqd] at he
    exact hqd (List.mem_singleton.mpr he)

end Dentries

/-- The map after `CDir::split` and the surgery, for a root and for any other
fragment alike. -/
theorem splitSubtree_map (hI : Inv c) (hds : dir ∉ subs)
    (hfree : ∀ f, f ∈ subs → c.isSubtreeRoot f = false)
    (hR : c.tree.forest.Replaces c₁.tree.forest (· ∈ [dir]) (· ∈ subs) o)
    (hm : Forest.Remarks (· ∈ [dir]) (· ∈ subs) c.isSubtreeRoot c₁.isSubtreeRoot
      (c.isSubtreeRoot dir))
    (hroot : c₁.isSubtreeRoot dir = c.isSubtreeRoot dir) (hs : c₁.subtrees = c.subtrees) :
    ∃ c₂, c₁.splitSubtree (c.rootAbove dir) dir subs = .ok c₂ ∧
      c₂ = { c₁ with subtrees := c₂.subtrees, dirAuth := c₂.dirAuth } ∧
      (∀ x, x ≠ dir → c₂.dirAuth x = c₁.dirAuth x) ∧
      (∀ x, (c₂.subtrees x).isSome = (!decide (x = dir) && c₁.isSubtreeRoot x)) ∧
      ∀ r s, s ∈ c₂.bounds r ↔ ¬ s ∈ [dir] ∧ ¬ r ∈ [dir] ∧ (¬ s ∈ subs ∧ ¬ r ∈ subs ∧ s ∈ c.bounds r ∨
        s ∈ subs ∧ ¬ r ∈ subs ∧ (∃ d, d ∈ [dir] ∧ d ∈ c.bounds r) ∨
        ¬ s ∈ subs ∧ r ∈ subs ∧ (∃ d, d ∈ [dir] ∧ s ∈ c.bounds d) ∧ c₁.rootAbove s = some r) := by
  have hb : c₁.bounds = c.bounds := funext fun x => by rw [bounds, bounds, hs]
  have hmem : ∀ {r s}, s ∈ c.bounds r → s ∉ subs ∧ r ∉ subs := by
    intro r s hsr
    obtain ⟨hr, hs, -⟩ := hI.mem_bounds' hsr
    exact ⟨fun h => by simp [hfree s h] at hs, fun h => by simp [hfree r h] at hr⟩
  have hother : ∀ x, x ≠ dir → x ∉ subs → c₁.isSubtreeRoot x = c.isSubtreeRoot x := fun x hx hx' =>
    hm.other (by simpa using hx) hx'
  cases hk : c.isSubtreeRoot dir with
  | false =>
    rw [hk] at hroot
    refine ⟨c₁, if_neg (by rw [hroot]; exact Bool.false_ne_true), rfl, fun _ _ => rfl, fun x => ?_,
      fun r s => ?_⟩
    · rw [hs, hI.key]
      by_cases hx : x = dir
      · simp [hx, hk]
      · by_cases hxs : x ∈ subs
        · simp [hx, hfree x hxs, hm.new hxs, hk]
        · simp [hx, hother x hx hxs]
    · rw [hb]
      have hd : ∀ r, dir ∉ c.bounds r := fun r hr => by
        have := ((hI.mem_bounds r dir).mp hr).1
        rw [hk] at this
        cases this
      simp only [List.mem_singleton, exists_eq_left, hd, hI.bounds_of_not hk, Finset.notMem_empty,
        and_false, false_and, or_false]
      constructor
      · intro h
        refine ⟨?_, ?_, (hmem h).1, (hmem h).2, h⟩
        · rintro rfl
          exact hd r h
        · rintro rfl
          rw [hI.bounds_of_not hk] at h
          exact absurd h (Finset.notMem_empty s)
      · exact fun h => h.2.2.2.2
  | true =>
    rw [hk] at hroot
    have hbelow : ∀ s ∈ c.bounds dir, ∃ f ∈ subs, c₁.rootAbove s = some f := by
      intro s hs
      have hsd : ¬ s ∈ [dir] := fun e => by
        rw [List.mem_singleton] at e
        subst e
        exact c.tree.forest.above_ne ((hI.mem_bounds s s).mp hs).2 rfl
      exact rootAbove_below hI hR hm hfree hsd hs (List.mem_singleton_self dir)
    have hdir : ∀ r, c.rootAbove dir = some r ↔ dir ∈ c.bounds r := fun r => by
      simp [hI.mem_bounds, hk]
    obtain ⟨c₂, h₁, h₂, h₃, h₄⟩ := splitSubtree_spec (c := c₁) (p := c.rootAbove dir) hroot
      (fun r hr => ⟨by rw [hs, hI.key, rootAbove_isRoot hr], c.tree.forest.above_ne hr,
        by rw [hb]; exact (hdir r).mp hr⟩) hds
      (fun f hf => by rw [hb]; exact hI.bounds_of_not (hfree f hf)) (by rw [hb]; exact hbelow)
    refine ⟨c₂, h₁, by rw [h₂], fun x hx => by rw [h₂]; exact Function.update_of_ne hx _ _,
      fun x => ?_, fun r s => ?_⟩
    · rw [h₃, hs, hI.key]
      by_cases hx : x = dir
      · simp [hx, hds]
      · by_cases hxs : x ∈ subs
        · simp [hx, hxs, hm.new hxs, hk]
        · simp [hx, hxs, hother x hx hxs]
    · rw [h₄, hb, hdir]
      simp only [List.mem_singleton, exists_eq_left]
      constructor
      · rintro (⟨hr, ⟨h, hn⟩ | ⟨hd, h⟩⟩ | ⟨h, hab⟩)
        · have hsd : s ≠ dir := by
            rintro rfl
            exact hn ⟨h, rfl⟩
          exact ⟨hsd, hr, .inl ⟨(hmem h).1, (hmem h).2, h⟩⟩
        · exact ⟨fun e => hds (e ▸ h), hr, .inr (.inl ⟨h, (hmem hd).2, hd⟩)⟩
        · obtain ⟨f, hf, hab'⟩ := hbelow s h
          obtain rfl : f = r := Option.some.inj (hab'.symm.trans hab)
          refine ⟨?_, fun e => hds (e ▸ hf), .inr (.inr ⟨(hmem h).1, hf, h, hab⟩)⟩
          rintro rfl
          exact c.tree.forest.above_ne ((hI.mem_bounds s s).mp h).2 rfl
      · rintro ⟨hsd, hrd, ⟨-, -, h⟩ | ⟨h, -, hd⟩ | ⟨-, -, h, hab⟩⟩
        · exact .inl ⟨hrd, .inl ⟨h, fun e => hsd e.2⟩⟩
        · exact .inl ⟨hrd, .inr ⟨hd, h⟩⟩
        · exact .inr ⟨h, hab⟩

variable [DecidableEq ι]

/-- A split returns and keeps the invariant, `dir` is no longer in the map,
and every other fragment has the authority it had. -/
theorem adjustDirFragmentsSplit_spec (fac : L → L) (hI : Inv c) (h : Steals c.tree i [dir] subs pick) :
    ∃ c', c.adjustDirFragmentsSplit i dir subs pick fac h = .ok c' ∧ Inv c' ∧
      c'.isSubtreeRoot dir = false ∧ (∀ x, x ≠ dir → x ∉ subs → c'.authority I x = c.authority I x) ∧
      ∀ f ∈ subs, c'.authority I f = c.authority I dir := by
  have hi := h.src (List.mem_singleton_self dir)
  have hds : dir ∉ subs := fun hd => h.notMem hd (List.mem_singleton_self dir)
  have hfree : ∀ f, f ∈ subs → c.isSubtreeRoot f = false := fun f hf => hI.root_free h hf
  obtain ⟨c₁, hc₁, ht₁, hs₁, hA₁, hp₁⟩ := splitDir_spec fac hI h
  have hroot₁ : c₁.isSubtreeRoot dir = c.isSubtreeRoot dir := by simp [isSubtreeRoot, hA₁, hds]
  have hm₁ : Forest.Remarks (· ∈ [dir]) (· ∈ subs) c.isSubtreeRoot c₁.isSubtreeRoot
      (c.isSubtreeRoot dir) := by
    refine ⟨fun {s} hs => by rw [List.mem_singleton.mp hs], fun {f} hf => ?_, fun {x} _ hx => ?_⟩
    · simp [isSubtreeRoot, hA₁, hf]
    · simp [isSubtreeRoot, hA₁, hx]
  have hR₁ : c.tree.forest.Replaces c₁.tree.forest (· ∈ [dir]) (· ∈ subs) (c.tree.parentDir i) := by
    rw [ht₁]
    exact h.replaces (fun x _ => rfl) rfl
  have hparent : (c.tree.parentDir i).bind c.getSubtreeRoot = c.rootAbove dir := by
    simp only [rootAbove, Forest.above, DirTree.forest, hi, Option.bind_some]; rfl
  obtain ⟨c₂, hc₂, h₂, hA₂, hk₂, hb₂⟩ := splitSubtree_map hI hds hfree hR₁ hm₁ hroot₁ hs₁
  -- Closing `dir`, which has no children left, changes no root above.
  have ht₂ : c₂.tree = c.tree.steal i [dir] subs pick h := by rw [h₂]; exact ht₁
  have hroot : ∀ x, x ≠ dir → (c₂.closeDirfrag dir).isSubtreeRoot x = c₁.isSubtreeRoot x := by
    intro x hx
    simp [isSubtreeRoot, closeDirfrag, hx, hA₂ x hx]
  have hgone : (c₂.closeDirfrag dir).isSubtreeRoot dir = false := by simp [isSubtreeRoot, closeDirfrag]
  have hinode : ∀ x, x ∉ [dir] →
      (c₂.closeDirfrag dir).tree.inode x = if x ∈ subs then some i else c.tree.inode x := by
    intro x hx
    have hx : x ≠ dir := by simpa using hx
    rw [closeDirfrag, DirTree.close, ht₂]
    exact Function.update_of_ne hx _ _
  have hR : c.tree.forest.Replaces (c₂.closeDirfrag dir).tree.forest (· ∈ [dir]) (· ∈ subs)
      (c.tree.parentDir i) := h.replaces hinode (by rw [closeDirfrag, DirTree.close, ht₂])
  have hm : Forest.Remarks (· ∈ [dir]) (· ∈ subs) c.isSubtreeRoot (c₂.closeDirfrag dir).isSubtreeRoot
      (c.isSubtreeRoot dir) :=
    ⟨hm₁.old, fun {f} hf => (hroot f fun e => hds (e ▸ hf)).trans (hm₁.new hf),
      fun {x} hx hx' => (hroot x (by simpa using hx)).trans (hm₁.other hx hx')⟩
  have habove : ∀ s, s ∉ [dir] → (c₂.closeDirfrag dir).rootAbove s = c₁.rootAbove s := by
    intro s hs
    refine Forest.above_remove (S := (· ∈ [dir])) (fun x hx => ?_) (fun x hx => ?_)
      (fun x d _ hd => ?_) hs
    · have hx : x ≠ dir := by simpa using hx
      simp [closeDirfrag, DirTree.close, DirTree.forest, ht₂, ht₁, hx]
    · exact hroot x (by simpa using hx)
    · rw [ht₁]
      exact Steals.no_child h hds x d hd
  have hinv : Inv (c₂.closeDirfrag dir) := by
    refine hI.refrag hR hm hfree (by simpa using hgone) ⟨dir, List.mem_singleton_self dir⟩ (fun x => ?_)
      (fun x => ?_) (fun x hx => ?_) (fun r s => ?_)
    · rw [show (c₂.closeDirfrag dir).subtrees = c₂.subtrees from rfl, hk₂]
      by_cases hx : x = dir
      · rw [hx, hgone]; simp
      · simp [hx, hroot x hx]
    · have hpin : (c₂.closeDirfrag dir).pinSubtree = c₁.pinSubtree := by rw [closeDirfrag, h₂]
      rw [hpin, hp₁]
      by_cases hx : x = dir
      · rw [hx, hgone]
        simp [hds]
      · rw [hroot x hx]
        by_cases hxs : x ∈ subs
        · simp [hxs, hm₁.new hxs]
        · simp [hx, hxs, hm₁.other (by simpa using hx) hxs, hI.pin]
    · have hxd : x ≠ dir := fun e => by
        rw [e, hgone] at hx
        cases hx
      rw [hinode x (by simpa using hxd)]
      by_cases hxs : x ∈ subs
      · simp [hxs]
      · rw [hroot x hxd, hm₁.other (by simpa using hxd) hxs] at hx
        simp [hxs, hI.cached hx]
    · rw [show (c₂.closeDirfrag dir).bounds r = c₂.bounds r from rfl, hb₂]
      refine and_congr_right fun hs => ?_
      rw [habove s hs]
  obtain hauth := authority_refrag (I := I) (a := c.dirAuth dir) hR hm
    (fun s hs => by rw [List.mem_singleton.mp hs])
    (fun f hf => by
      have hfd : f ≠ dir := fun e => hds (e ▸ hf)
      simp [closeDirfrag, hfd, hA₂ f hfd, hA₁, hf])
    (fun x hx hx' => by
      have hx : x ≠ dir := by simpa using hx
      simp [closeDirfrag, hx, hA₂ x hx, hA₁, hx'])
    (fun x hx hx' => by rw [hinode x hx, if_neg hx'])
    (fun j hj => by
      change (c₂.tree.close dir).parentDir j = none
      rw [ht₂]
      simp [DirTree.close, DirTree.steal, hj])
    (fun s f hs hf => by
      rw [hinode f (fun e => hds (List.mem_singleton.mp e ▸ hf)), if_pos hf, List.mem_singleton.mp hs, hi])
  refine ⟨c₂.closeDirfrag dir, ?_, hinv, hgone, fun x hx hx' => (hauth x).1 (by simpa using hx) hx',
    fun f hf => (hauth dir).2 (List.mem_singleton_self dir) f hf⟩
  rw [adjustDirFragmentsSplit, hparent]
  exact bind_ok.mpr ⟨c₁, hc₁, bind_ok.mpr ⟨c₂, hc₂, rfl⟩⟩

end Split

end Cache

end CephMds
