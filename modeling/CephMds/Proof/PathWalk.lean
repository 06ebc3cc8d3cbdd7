import CephMds.Model.PathWalk
import Mathlib

/-!
# Walking a path resolves its symlinks

`Resolves` is the recursive resolution of a path, with the number of symlinks
that it expands, and `Expands` says that it expands at least so many. The loop
sees of its path only what follows its position (`walk_drop`), so a step at a
symlink puts the target before the rest (`walk_cons`), and the loop gets past a
target exactly as the resolution does (`walk_append`). Where they differ, the
loop has counted a last symlink that it does not follow.
-/

namespace CephMds.PathWalk

variable {ι ε : Type} {t : Tree ι ε} {k : ℕ} {followsym : Bool}

/-! ## The recursive resolution -/

/-- From `d`, the path leads to the result, and the resolution expands `n` symlinks. -/
inductive Resolves (t : Tree ι ε) : ι → List String → Bool → Except ε ι → ℕ → Prop
  | here {d : ι} {f : Bool} : Resolves t d [] f (.ok d) 0
  | fails {d : ι} {x : String} {rest : List String} {f : Bool} {e : ε} (h : t.lookup d x = .error e) :
    Resolves t d (x :: rest) f (.error e) 0
  | next {d y : ι} {x : String} {rest : List String} {f : Bool} {r : Except ε ι} {n : ℕ}
    (h : t.lookup d x = .ok y) (hy : t.symlink y = none ∨ rest = [] ∧ f = false) (hr : Resolves t y rest f r n) :
    Resolves t d (x :: rest) f r n
  /-- The target is resolved before the rest. -/
  | link {d y d' : ι} {x : String} {rest : List String} {f : Bool} {r : Except ε ι} {target : Filepath} {m n : ℕ}
    (h : t.lookup d x = .ok y) (hy : t.symlink y = some target) (hf : rest ≠ [] ∨ f = true)
    (ht : Resolves t (t.start d target) target.bits true (.ok d') m) (hr : Resolves t d' rest f r n) :
    Resolves t d (x :: rest) f r (m + n + 1)
  | linkFails {d y : ι} {x : String} {rest : List String} {f : Bool} {e : ε} {target : Filepath} {m : ℕ}
    (h : t.lookup d x = .ok y) (hy : t.symlink y = some target) (hf : rest ≠ [] ∨ f = true)
    (ht : Resolves t (t.start d target) target.bits true (.error e) m) :
    Resolves t d (x :: rest) f (.error e) (m + 1)

/-- The resolution expands at least `n` symlinks. -/
inductive Expands (t : Tree ι ε) : ι → List String → Bool → ℕ → Prop
  | zero {d : ι} {path : List String} {f : Bool} : Expands t d path f 0
  | next {d y : ι} {x : String} {rest : List String} {f : Bool} {n : ℕ}
    (h : t.lookup d x = .ok y) (hy : t.symlink y = none ∨ rest = [] ∧ f = false) (hr : Expands t y rest f n) :
    Expands t d (x :: rest) f n
  /-- Within the target. -/
  | target {d y : ι} {x : String} {rest : List String} {f : Bool} {target : Filepath} {n : ℕ}
    (h : t.lookup d x = .ok y) (hy : t.symlink y = some target) (hf : rest ≠ [] ∨ f = true)
    (ht : Expands t (t.start d target) target.bits true n) : Expands t d (x :: rest) f (n + 1)
  | rest {d y d' : ι} {x : String} {rest : List String} {f : Bool} {target : Filepath} {m n : ℕ}
    (h : t.lookup d x = .ok y) (hy : t.symlink y = some target) (hf : rest ≠ [] ∨ f = true)
    (ht : Resolves t (t.start d target) target.bits true (.ok d') m) (hr : Expands t d' rest f n) :
    Expands t d (x :: rest) f (m + n + 1)

/-- The resolution ends with at most `b` expansions, or makes one more. -/
theorem resolves_or_expands (b : ℕ) (d : ι) (path : List String) (f : Bool) :
    (∃ r, ∃ n ≤ b, Resolves t d path f r n) ∨ Expands t d path f (b + 1) := by
  induction b using Nat.strong_induction_on generalizing d path f with
  | _ b ihb =>
    induction path generalizing d with
    | nil => exact .inl ⟨_, 0, Nat.zero_le b, .here⟩
    | cons x rest ih =>
      cases hx : t.lookup d x with
      | error e => exact .inl ⟨_, 0, Nat.zero_le b, .fails hx⟩
      | ok y =>
        by_cases hy : t.symlink y = none ∨ rest = [] ∧ f = false
        · rcases ih y with ⟨r, n, hn, hr⟩ | he
          · exact .inl ⟨r, n, hn, .next hx hy hr⟩
          · exact .inr (.next hx hy he)
        · obtain ⟨target, hty⟩ : ∃ target, t.symlink y = some target :=
            Option.ne_none_iff_exists'.mp fun h => hy (.inl h)
          have hf : rest ≠ [] ∨ f = true := by
            by_contra h
            simp only [not_or, not_not, Bool.not_eq_true] at h
            exact hy (.inr h)
          -- One expansion, and then those of the target and of the rest.
          cases b with
          | zero => exact .inr (.target hx hty hf .zero)
          | succ b =>
            rcases ihb b (Nat.lt_succ_self b) (t.start d target) target.bits true with ⟨r, m, hm, hr⟩ | he
            · cases r with
              | error e => exact .inl ⟨_, m + 1, Nat.succ_le_succ hm, .linkFails hx hty hf hr⟩
              | ok d' =>
                rcases ihb (b - m) (by omega) d' rest f with ⟨r', n, hn, hr'⟩ | he
                · exact .inl ⟨r', m + n + 1, by omega, .link hx hty hf hr hr'⟩
                · have hsum : m + (b - m + 1) + 1 = b + 1 + 1 := by omega
                  rw [← hsum]
                  exact .inr (.rest hx hty hf hr he)
            · exact .inr (.target hx hty hf he)

/-! ## The loop -/

/-- The loop sees what follows its position. -/
theorem walk_drop (cur : ι) (path : List String) (i s : ℕ) :
    t.walk k followsym cur path i s = t.walk k followsym cur (path.drop i) 0 s := by
  by_cases hi : i < path.length
  swap
  · rw [Tree.walk, Tree.walk, dif_neg hi, dif_neg (by simp; omega)]
  have hi' : 0 < (path.drop i).length := by
    rw [List.length_drop]
    omega
  have hget : (path.drop i)[0] = path[i] := by simp
  have hlast : i < path.length - 1 ↔ 0 < (path.drop i).length - 1 := by
    rw [List.length_drop]
    omega
  rw [Tree.walk, Tree.walk, dif_pos hi, dif_pos hi', hget]
  cases t.lookup cur path[i] with
  | error e => rfl
  | ok next =>
    dsimp only
    cases t.symlink next with
    | none =>
      dsimp only
      rw [walk_drop next path (i + 1) s, walk_drop next (path.drop i) (0 + 1) s, List.drop_drop]
    | some target =>
      dsimp only
      by_cases hk : k < s + 1
      · rw [if_pos hk, if_pos hk]
      rw [if_neg hk, if_neg hk]
      by_cases hl : i < path.length - 1
      · rw [if_pos hl, if_pos (hlast.mp hl), List.drop_drop]
      rw [if_neg hl, if_neg (mt hlast.mpr hl)]
      by_cases hfs : followsym = true
      · rw [if_pos hfs, if_pos hfs]
        cases target.absolute with
        | true => rfl
        | false =>
          -- The position is that of the last component, which is taken off.
          have hlen : (path.drop i).length = 1 := by
            rw [List.length_drop]
            omega
          have hdrop : (path.dropLast ++ target.bits).drop i = target.bits := by
            rw [List.drop_append_of_le_length (by rw [List.length_dropLast]; omega),
              List.drop_eq_nil_of_le (by rw [List.length_dropLast]; omega), List.nil_append]
          have hnil : (path.drop i).dropLast = [] := by
            rw [← List.length_eq_zero_iff, List.length_dropLast, hlen]
          rw [if_neg (by decide), if_neg (by decide), walk_drop cur (path.dropLast ++ target.bits) i (s + 1), hdrop,
            hnil, List.nil_append]
      · rw [if_neg hfs, if_neg hfs, walk_drop next path (i + 1) (s + 1),
          walk_drop next (path.drop i) (0 + 1) (s + 1), List.drop_drop]
termination_by (k + 1 - s, path.length - i)

/-- The loop from the start of a path. -/
theorem walk_nil (cur : ι) (s : ℕ) : t.walk k followsym cur [] 0 s = .ok cur := by
  rw [Tree.walk]
  rfl

theorem walk_cons (cur : ι) (x : String) (rest : List String) (s : ℕ) :
    t.walk k followsym cur (x :: rest) 0 s =
      match t.lookup cur x with
      | .error e => .error (.lookup e)
      | .ok next =>
        match t.symlink next with
        | none => t.walk k followsym next rest 0 s
        | some target =>
          if k < s + 1 then .error .eloop
          else if rest ≠ [] ∨ followsym = true then
            t.walk k followsym (t.start cur target) (target.bits ++ rest) 0 (s + 1)
          else .ok next := by
  have hpos : 0 < (x :: rest).length := Nat.succ_pos _
  rw [Tree.walk, dif_pos hpos, List.getElem_cons_zero]
  cases t.lookup cur x with
  | error e => rfl
  | ok next =>
    have hnext : ∀ s, t.walk k followsym next (x :: rest) (0 + 1) s = t.walk k followsym next rest 0 s :=
      fun s => walk_drop next (x :: rest) (0 + 1) s
    dsimp only
    cases t.symlink next with
    | none => exact hnext s
    | some target =>
      dsimp only
      by_cases hk : k < s + 1
      · rw [if_pos hk, if_pos hk]
      rw [if_neg hk, if_neg hk]
      cases rest with
      | cons y rest =>
        have hlt : 0 < (x :: y :: rest).length - 1 := by simp
        rw [if_pos hlt, if_pos (.inl (List.cons_ne_nil y rest))]
        rfl
      | nil =>
        have hlt : ¬0 < [x].length - 1 := by simp
        rw [if_neg hlt]
        by_cases hfs : followsym = true
        · have hpos : ([] : List String) ≠ [] ∨ followsym = true := .inr hfs
          rw [if_pos hfs, if_pos hpos, Tree.start, List.append_nil]
          cases target.absolute <;> rfl
        · have hneg : ¬(([] : List String) ≠ [] ∨ followsym = true) := by simp [hfs]
          rw [if_neg hfs, if_neg hneg, hnext, walk_nil]

theorem walk_fails {cur : ι} {x : String} {rest : List String} {s : ℕ} {e : ε} (h : t.lookup cur x = .error e) :
    t.walk k followsym cur (x :: rest) 0 s = .error (.lookup e) := by
  rw [walk_cons, h]

theorem walk_next {cur next : ι} {x : String} {rest : List String} {s : ℕ} (h : t.lookup cur x = .ok next)
    (hn : t.symlink next = none) :
    t.walk k followsym cur (x :: rest) 0 s = t.walk k followsym next rest 0 s := by
  rw [walk_cons, h]
  dsimp only
  rw [hn]

theorem walk_link {cur next : ι} {x : String} {rest : List String} {s : ℕ} {target : Filepath}
    (h : t.lookup cur x = .ok next) (hn : t.symlink next = some target) :
    t.walk k followsym cur (x :: rest) 0 s =
      if k < s + 1 then .error .eloop
      else if rest ≠ [] ∨ followsym = true then
        t.walk k followsym (t.start cur target) (target.bits ++ rest) 0 (s + 1)
      else .ok next := by
  rw [walk_cons, h]
  dsimp only
  rw [hn]

/-! ## The loop resolves -/

variable {d y : ι} {path rest : List String} {f : Bool} {r : Except ε ι} {n s : ℕ}

/-- A result of the resolution, as one of `path_walk`. -/
def result : Except ε ι → Except (Error ε) ι
  | .ok d => .ok d
  | .error e => .error (.lookup e)

/-- The loop resolves a target before it goes on with the rest. -/
theorem walk_append (h : Resolves t d path f r n) (hf : f = true) (hrest : rest ≠ [] ∨ followsym = true)
    (hs : s + n ≤ k) : t.walk k followsym d (path ++ rest) 0 s =
      (result r).bind fun d' => t.walk k followsym d' rest 0 (s + n) := by
  induction h generalizing rest s with
  | here => rfl
  | fails h =>
    rw [List.cons_append, walk_fails h]
    rfl
  | next h hy hr ih =>
    obtain hy | ⟨-, hff⟩ := hy
    · rw [List.cons_append, walk_next h hy]
      exact ih hf hrest hs
    · exact absurd (hff.symm.trans hf) (by decide)
  | @link d y d' x rest' f r target m n h hy _ ht hr iht ihr =>
    have hk : ¬k < s + 1 := by omega
    have hcond : rest' ++ rest ≠ [] ∨ followsym = true :=
      hrest.imp_left fun hne hnil => hne (List.append_eq_nil_iff.mp hnil).2
    rw [List.cons_append, walk_link h hy]
    rw [if_neg hk, if_pos hcond, iht rfl hcond (by omega), result, Except.bind, ihr hf hrest (by omega)]
    have hsum : s + 1 + m + n = s + (m + n + 1) := by omega
    rw [hsum]
  | @linkFails d y x rest' f e target m h hy _ ht iht =>
    have hk : ¬k < s + 1 := by omega
    have hcond : rest' ++ rest ≠ [] ∨ followsym = true :=
      hrest.imp_left fun hne hnil => hne (List.append_eq_nil_iff.mp hnil).2
    rw [List.cons_append, walk_link h hy]
    rw [if_neg hk, if_pos hcond, iht rfl hcond (by omega)]
    rfl

/-- The path is that of a target, or the whole that is left. -/
def Fits (f followsym : Bool) (rest : List String) : Prop :=
  f = true ∧ (rest ≠ [] ∨ followsym = true) ∨ rest = [] ∧ f = followsym

theorem Fits.follows {rest' : List String} (h : Fits f followsym rest) (hf : rest' ≠ [] ∨ f = true) :
    rest' ++ rest ≠ [] ∨ followsym = true := by
  rcases h with ⟨-, hrest⟩ | ⟨rfl, rfl⟩
  · exact hrest.imp_left fun hne hnil => hne (List.append_eq_nil_iff.mp hnil).2
  · rwa [List.append_nil]

/-- The loop stops at the symlink that is one too many. -/
theorem walk_exceeds (h : Resolves t d path f r n) (hfit : Fits f followsym rest) (hs : s ≤ k) (hn : k < s + n) :
    t.walk k followsym d (path ++ rest) 0 s = .error .eloop := by
  induction h generalizing rest s with
  | here => omega
  | fails _ => omega
  | @next d y x rest' f r n h hy hr ih =>
    obtain hy | ⟨rfl, rfl⟩ := hy
    · rw [List.cons_append, walk_next h hy]
      exact ih hfit hs hn
    · cases hr
      omega
  | @link d y d' x rest' f r target m n h hy hf ht hr iht ihr =>
    have hcond := hfit.follows hf
    rw [List.cons_append, walk_link h hy, if_pos hcond]
    split
    · rfl
    · by_cases hm : k < s + 1 + m
      · exact iht (.inl ⟨rfl, hcond⟩) (by omega) hm
      · rw [walk_append ht rfl hcond (by omega)]
        exact ihr hfit (by omega) (by omega)
  | @linkFails d y x rest' f e target m h hy hf ht iht =>
    have hcond := hfit.follows hf
    rw [List.cons_append, walk_link h hy, if_pos hcond]
    split
    · rfl
    · exact iht (.inl ⟨rfl, hcond⟩) (by omega) (by omega)

theorem walk_expands (h : Expands t d path f n) (hfit : Fits f followsym rest) (hs : s ≤ k) (hn : k < s + n) :
    t.walk k followsym d (path ++ rest) 0 s = .error .eloop := by
  induction h generalizing rest s with
  | zero => omega
  | @next d y x rest' f n h hy hr ih =>
    obtain hy | ⟨rfl, rfl⟩ := hy
    · rw [List.cons_append, walk_next h hy]
      exact ih hfit hs hn
    · cases hr
      omega
  | @target d y x rest' f target n h hy hf ht iht =>
    have hcond := hfit.follows hf
    rw [List.cons_append, walk_link h hy, if_pos hcond]
    split
    · rfl
    · exact iht (.inl ⟨rfl, hcond⟩) (by omega) (by omega)
  | @rest d y d' x rest' f target m n h hy hf ht hr ihr =>
    have hcond := hfit.follows hf
    rw [List.cons_append, walk_link h hy, if_pos hcond]
    split
    · rfl
    · by_cases hm : k < s + 1 + m
      · exact walk_exceeds ht (.inl ⟨rfl, hcond⟩) (by omega) hm
      · rw [walk_append ht rfl hcond (by omega)]
        exact ihr hfit (by omega) (by omega)

/-- The last symlink, that is not followed, is counted. -/
def Counted (t : Tree ι ε) (followsym : Bool) (path : List String) (r : Except ε ι) : Prop :=
  followsym = false ∧ path ≠ [] ∧ ∃ y, r = .ok y ∧ (t.symlink y).isSome

theorem walk_resolves (h : Resolves t d path followsym r n) (hs : s + n ≤ k)
    (hc : Counted t followsym path r → s + n < k) : t.walk k followsym d path 0 s = result r := by
  induction h generalizing s with
  | here => rw [walk_nil, result]
  | fails h => rw [walk_fails h, result]
  | @next d y x rest f r n h hy hr ih =>
    cases hty : t.symlink y with
    | none =>
      rw [walk_next h hty]
      refine ih hs fun hcr => hc ⟨hcr.1, List.cons_ne_nil x rest, hcr.2.2⟩
    | some target =>
      obtain ⟨rfl, rfl⟩ : rest = [] ∧ f = false := by
        rcases hy with hy | hy
        · rw [hty] at hy
          cases hy
        · exact hy
      cases hr
      have hlt := hc ⟨rfl, List.cons_ne_nil x [], y, rfl, by rw [hty]; rfl⟩
      rw [walk_link h hty, if_neg (by omega), if_neg (by simp), result]
  | @link d y d' x rest f r target m n h hy hf ht hr _ ihr =>
    rw [walk_link h hy]
    rw [if_neg (by omega), if_pos hf, walk_append ht rfl hf (by omega)]
    refine ihr (by omega) fun hcr => ?_
    have := hc ⟨hcr.1, List.cons_ne_nil x rest, hcr.2.2⟩
    omega
  | @linkFails d y x rest f e target m h hy hf ht _ =>
    rw [walk_link h hy]
    rw [if_neg (by omega), if_pos hf, walk_append ht rfl hf (by omega), result]
    rfl

theorem walk_counted (h : Resolves t d path followsym r n) (hs : s + n = k) (hc : Counted t followsym path r) :
    t.walk k followsym d path 0 s = .error .eloop := by
  induction h generalizing s with
  | here => exact absurd rfl hc.2.1
  | fails h =>
    obtain ⟨_, _, y, hy, -⟩ := hc
    cases hy
  | @next d y x rest f r n h hy hr ih =>
    obtain ⟨rfl, -, z, rfl, hz⟩ := hc
    cases rest with
    | nil =>
      cases hr
      obtain ⟨target, hty⟩ := Option.isSome_iff_exists.mp hz
      rw [walk_link h hty, if_pos (by omega)]
    | cons x' rest =>
      obtain hy | ⟨hnil, -⟩ := hy
      · rw [walk_next h hy]
        exact ih hs ⟨rfl, List.cons_ne_nil x' rest, z, rfl, hz⟩
      · cases hnil
  | @link d y d' x rest f r target m n h hy hf ht hr _ ihr =>
    obtain ⟨rfl, -, z, rfl, hz⟩ := hc
    have hne : rest ≠ [] := hf.resolve_right (by decide)
    rw [walk_link h hy]
    rw [if_neg (by omega), if_pos hf, walk_append ht rfl hf (by omega)]
    exact ihr (by omega) ⟨rfl, hne, z, rfl, hz⟩
  | linkFails h hy hf ht =>
    obtain ⟨_, _, y, hy, -⟩ := hc
    cases hy

/-! ## The whole path -/

theorem result_injective : Function.Injective (result : Except ε ι → Except (Error ε) ι) := by
  intro r r' h
  cases r <;> cases r' <;> cases h <;> rfl

theorem result_ne_eloop : result r ≠ .error .eloop := by
  cases r <;> intro h <;> cases h

/-- `path_walk` fails with `ELOOP` iff the resolution expands more symlinks than
it may, and otherwise it has the result of the resolution. -/
def Tree.Refines (t : Tree ι ε) (maxSymlinks : ℕ) (path : Filepath) (followsym : Bool) : Prop :=
  (t.pathWalk maxSymlinks path followsym = .error .eloop ↔
    Expands t (t.start t.cwd path) path.bits followsym (maxSymlinks + 1)) ∧
  ∀ r, t.pathWalk maxSymlinks path followsym = result r ↔
    ∃ n ≤ maxSymlinks, Resolves t (t.start t.cwd path) path.bits followsym r n

/-- The resolution expands as many symlinks as it may, and ends at one that is not followed. -/
def Tree.EndsAtSymlink (t : Tree ι ε) (maxSymlinks : ℕ) (path : Filepath) (followsym : Bool) : Prop :=
  followsym = false ∧ path.bits ≠ [] ∧ ∃ y, (t.symlink y).isSome ∧
    Resolves t (t.start t.cwd path) path.bits false (.ok y) maxSymlinks

/-- `path_walk` is the recursive resolution, except where it counts a last symlink
that it does not follow. -/
theorem refines_iff (t : Tree ι ε) (maxSymlinks : ℕ) (path : Filepath) (followsym : Bool) :
    t.Refines maxSymlinks path followsym ↔ ¬t.EndsAtSymlink maxSymlinks path followsym := by
  constructor
  · rintro href ⟨rfl, hne, y, hy, hr⟩
    have hok := (href.2 (.ok y)).mpr ⟨maxSymlinks, le_rfl, hr⟩
    have hloop := walk_counted hr (Nat.zero_add maxSymlinks) ⟨rfl, hne, y, rfl, hy⟩
    rw [Tree.pathWalk, hloop] at hok
    cases hok
  · intro hend
    have hresolves : ∀ r, ∀ n ≤ maxSymlinks, Resolves t (t.start t.cwd path) path.bits followsym r n →
        t.pathWalk maxSymlinks path followsym = result r := by
      intro r n hn hr
      refine walk_resolves hr (by omega) fun hc => ?_
      obtain ⟨rfl, hne, y, rfl, hy⟩ := hc
      rcases Nat.lt_or_eq_of_le hn with hlt | rfl
      · omega
      · exact absurd ⟨rfl, hne, y, hy, hr⟩ hend
    have hexpands : Expands t (t.start t.cwd path) path.bits followsym (maxSymlinks + 1) →
        t.pathWalk maxSymlinks path followsym = .error .eloop := by
      intro he
      have := walk_expands (s := 0) he (.inr ⟨rfl, rfl⟩) (Nat.zero_le maxSymlinks) (by omega)
      rwa [List.append_nil] at this
    rcases resolves_or_expands maxSymlinks (t.start t.cwd path) path.bits followsym with ⟨r, n, hn, hr⟩ | he
    · have hwalk := hresolves r n hn hr
      refine ⟨⟨fun h => absurd (hwalk.symm.trans h) result_ne_eloop, fun he => hexpands he⟩, fun r' => ⟨fun h => ?_, ?_⟩⟩
      · rw [← result_injective (hwalk.symm.trans h)]
        exact ⟨n, hn, hr⟩
      · rintro ⟨m, hm, hr'⟩
        exact hresolves r' m hm hr'
    · have hwalk := hexpands he
      refine ⟨⟨fun _ => he, fun _ => hwalk⟩, fun r' => ⟨fun h => absurd (h.symm.trans hwalk) result_ne_eloop, ?_⟩⟩
      rintro ⟨m, hm, hr'⟩
      exact hresolves r' m hm hr'

/-- One directory, in which every name but `.` is a symlink to it. -/
def loops : Tree Bool Unit where
  lookup _ x := .ok (x != ".")
  symlink y := if y then some ⟨false, ["."]⟩ else none
  root := false
  cwd := false

theorem loops_resolves (n : ℕ) : Resolves loops false (List.replicate (n + 1) "a") false (.ok true) n := by
  induction n with
  | zero => exact .next rfl (.inr ⟨rfl, rfl⟩) .here
  | succ n ih =>
    have hdot : Resolves loops false ["."] true (.ok false) 0 := .next rfl (.inl rfl) .here
    have h := Resolves.link (x := "a") (d := false) rfl rfl (.inl (by simp)) hdot ih
    rwa [Nat.zero_add] at h

/-- Twenty symlinks to directories, and then one that is not followed. -/
theorem not_refines : ¬loops.Refines 20 ⟨false, List.replicate 21 "a"⟩ false := by
  rw [refines_iff, not_not]
  exact ⟨rfl, by simp, true, rfl, loops_resolves 20⟩

end CephMds.PathWalk
