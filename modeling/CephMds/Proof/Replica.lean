import CephMds.Model.Replica

/-!
# The authority knows its replicas

The nonces in use for a rank (`State.nonces`) lie in one queue: the authority
appends at one end, and handles expires at the other. As long as no nonce is
sent that is still in use (`Fresh`), the queue has no duplicates and its last
element is the nonce in `replica_map`, so an expire with the current nonce is
the only one in use (`Inv`). A nonce has 32 bits: the condition holds of every
run in which fewer than 2³² replicas are sent (`meets_fresh`), and after 2³²
more replicas an old expire has the current nonce again
(`not_isReplica_inFlight`).
-/

namespace CephMds.Replica

open Checked

variable {ρ : Type} [DecidableEq ρ]

/-- `is_replica(mds)`. -/
def Object.isReplica (o : Object ρ) (mds : ρ) : Prop := mds ∈ o.replicaMap

structure Inv (s : State ρ) : Prop where
  nodup : ∀ mds, (s.nonces mds).Nodup
  last : ∀ mds, s.auth.replicaMap.lookup mds = (s.nonces mds).getLast?
  pin : s.auth.pinReplicated = if s.auth.replicaMap.entries.isEmpty then 0 else 1

theorem init_inv : Inv (init ρ) where
  nodup _ := List.nodup_nil
  last _ := rfl
  pin := rfl

/-! ## The object -/

section Object

variable {o o' : Object ρ} {mds r : ρ} {n : UInt32}

theorem entries_isEmpty_insert (m : AList fun _ : ρ => UInt32) :
    (m.insert mds n).entries.isEmpty = false := by
  rw [AList.entries_insert]
  rfl

theorem isEmpty_false_of_lookup {m : AList fun _ : ρ => UInt32} (h : m.lookup mds = some n) :
    m.entries.isEmpty = false := by
  obtain ⟨_ | _, _⟩ := m
  · cases h
  · rfl

theorem addReplica_lookup_self : (o.addReplica mds).1.replicaMap.lookup mds = some (o.addReplica mds).2 := by
  unfold Object.addReplica
  split <;> simp

theorem addReplica_lookup_ne (h : r ≠ mds) :
    (o.addReplica mds).1.replicaMap.lookup r = o.replicaMap.lookup r := by
  unfold Object.addReplica Object.getPin
  split
  · simp [h]
  · split <;> simp [h]

theorem addReplica_pin (h : o.pinReplicated = if o.replicaMap.entries.isEmpty then 0 else 1) :
    (o.addReplica mds).1.pinReplicated =
      if (o.addReplica mds).1.replicaMap.entries.isEmpty then 0 else 1 := by
  unfold Object.addReplica Object.getPin
  split
  · rename_i n hn
    simp only [entries_isEmpty_insert, Bool.false_eq_true, if_false]
    rw [h, isEmpty_false_of_lookup hn]
    rfl
  · split <;> simp_all

theorem removeReplica_eq (h : o.pinReplicated = if o.replicaMap.entries.isEmpty then 0 else 1)
    (hn : o.replicaMap.lookup mds = some n) :
    o.removeReplica mds = .ok ⟨o.replicaMap.erase mds,
      if (o.replicaMap.erase mds).entries.isEmpty then 0 else 1⟩ := by
  rw [isEmpty_false_of_lookup hn] at h
  simp only [Object.removeReplica, hn, Option.isSome_some, bind_ok, assert_ok, true_and, exists_const]
  split
  · simp [Object.putPin, h, assert]
  · simp [h]

/-- An expire is handled without a failed assertion where the rank is known. -/
theorem handleCacheExpire_eq (h : o.pinReplicated = if o.replicaMap.entries.isEmpty then 0 else 1)
    {c : UInt32} (hc : o.replicaMap.lookup mds = some c) :
    o.handleCacheExpire mds n = .ok (if n = c then ⟨o.replicaMap.erase mds,
      if (o.replicaMap.erase mds).entries.isEmpty then 0 else 1⟩ else o) := by
  have hg : o.getReplicaNonce mds = .ok c := by
    simp [Object.getReplicaNonce, hc]
  rw [Object.handleCacheExpire, bind_ok]
  refine ⟨c, hg, ?_⟩
  split
  · exact removeReplica_eq h hc
  · rfl

end Object

/-! ## One step -/

section Step

variable {s s' : State ρ} {mds : ρ} {n : UInt32} {ns : List UInt32}

theorem nonces_encodeReplica_self :
    (s.encodeReplica mds).nonces mds = s.nonces mds ++ [(s.auth.addReplica mds).2] := by
  simp [State.encodeReplica, State.nonces]

theorem nonces_encodeReplica_ne {r : ρ} (h : r ≠ mds) :
    (s.encodeReplica mds).nonces r = s.nonces r := by
  simp [State.encodeReplica, State.nonces, h]

theorem encodeReplica_inv (hs : Inv s) (hf : Fresh s (.encodeReplica mds)) :
    Inv (s.encodeReplica mds) where
  nodup r := by
    by_cases h : r = mds
    · subst h
      rw [nonces_encodeReplica_self]
      exact List.nodup_append.mpr ⟨hs.nodup r, List.nodup_singleton _, by
        intro a ha b hb hab
        rw [List.mem_singleton.mp hb] at hab
        exact hf (hab ▸ ha)⟩
    · rw [nonces_encodeReplica_ne h]
      exact hs.nodup r
  last r := by
    by_cases h : r = mds
    · subst h
      rw [nonces_encodeReplica_self, List.getLast?_concat]
      exact addReplica_lookup_self
    · rw [nonces_encodeReplica_ne h, ← hs.last r]
      exact addReplica_lookup_ne h
  pin := addReplica_pin hs.pin

/-- A step that leaves the authority alone and drops nonces of one rank, but
not the last. -/
theorem inv_of_sublist (mds : ρ) (hs : Inv s) (ha : s'.auth = s.auth)
    (hne : ∀ r, r ≠ mds → s'.nonces r = s.nonces r) (hsub : (s'.nonces mds).Sublist (s.nonces mds))
    (hlast : (s'.nonces mds).getLast? = (s.nonces mds).getLast?) : Inv s' where
  nodup r := by
    by_cases h : r = mds
    · exact h ▸ (hs.nodup mds).sublist hsub
    · exact hne r h ▸ hs.nodup r
  last r := by
    by_cases h : r = mds
    · rw [h, ha, hs.last, hlast]
    · rw [ha, hs.last, hne r h]
  pin := ha ▸ hs.pin

theorem decodeReplica_inv (hs : Inv s) (hr : s.replicas mds = n :: ns) :
    Inv { s with
      held := Function.update s.held mds (some n)
      replicas := Function.update s.replicas mds ns } := by
  refine inv_of_sublist mds hs rfl ?_ ?_ ?_
  · intro r h
    simp [State.nonces, h]
  · simp only [State.nonces, Function.update_self, hr, Option.toList_some, List.append_assoc]
    exact (List.Sublist.refl _).append (List.sublist_append_right _ _)
  · simp [State.nonces, hr, List.getLast?_append, List.getLast?_cons]

theorem trim_inv (hs : Inv s) (hh : s.held mds = some n) :
    Inv { s with
      held := Function.update s.held mds none
      expires := Function.update s.expires mds (s.expires mds ++ [n]) } := by
  have hself : (State.nonces { s with
      held := Function.update s.held mds none
      expires := Function.update s.expires mds (s.expires mds ++ [n]) } mds) = s.nonces mds := by
    simp [State.nonces, hh]
  refine inv_of_sublist mds hs rfl ?_ ?_ ?_
  · intro r h
    simp [State.nonces, h]
  · rw [hself]
  · rw [hself]

omit [DecidableEq ρ] in
theorem nonces_of_expires (he : s.expires mds = n :: ns) :
    s.nonces mds = n :: (ns ++ (s.held mds).toList ++ s.replicas mds) := by
  simp [State.nonces, he]

/-- While an expire is on its way, its sender is known. -/
theorem Inv.lookup_of_expires (hs : Inv s) (he : s.expires mds = n :: ns) :
    ∃ c, s.auth.replicaMap.lookup mds = some c := by
  rw [hs.last, nonces_of_expires he]
  exact ⟨_, List.getLast?_eq_some_getLast (List.cons_ne_nil _ _)⟩

theorem handleCacheExpire_inv (hs : Inv s) (he : s.expires mds = n :: ns) {o : Object ρ}
    (ho : s.auth.handleCacheExpire mds n = .ok o) :
    Inv { s with auth := o, expires := Function.update s.expires mds ns } := by
  obtain ⟨c, hc⟩ := hs.lookup_of_expires he
  have hnon := nonces_of_expires he
  rw [handleCacheExpire_eq hs.pin hc] at ho
  have hdup : (s.nonces mds).Nodup := hs.nodup mds
  have hlast := hs.last mds
  rw [hnon] at hlast hdup
  rw [hc] at hlast
  by_cases hn : n = c
  · -- The expire has the current nonce, so it is the only one in use.
    rw [if_pos hn, Except.ok.injEq] at ho
    have hnil : ns ++ (s.held mds).toList ++ s.replicas mds = [] := by
      by_contra hne
      rw [List.getLast?_cons_of_ne_nil hne] at hlast
      exact (List.nodup_cons.mp hdup).1 (hn ▸ List.mem_of_getLast? hlast.symm)
    subst ho
    constructor
    · intro r
      by_cases h : r = mds
      · subst h
        simp [State.nonces, hnil]
      · simpa [State.nonces, h] using hs.nodup r
    · intro r
      by_cases h : r = mds
      · subst h
        simp [State.nonces, hnil]
      · simpa [State.nonces, h] using hs.last r
    · rfl
  · rw [if_neg hn, Except.ok.injEq] at ho
    subst ho
    refine inv_of_sublist mds hs rfl ?_ ?_ ?_
    · intro r h
      simp [State.nonces, h]
    · rw [hnon]
      simp [State.nonces]
    · rw [hnon]
      cases hrest : ns ++ (s.held mds).toList ++ s.replicas mds with
      | nil =>
        rw [hrest] at hlast
        exact absurd (Option.some.inj hlast).symm hn
      | cons x xs =>
        simpa [State.nonces] using congrArg List.getLast? hrest

theorem step_inv {a : Action ρ} (hs : Inv s) (hf : Fresh s a) (h : step s a = some s') : Inv s' := by
  cases a with
  | encodeReplica mds =>
    cases h
    exact encodeReplica_inv hs hf
  | decodeReplica mds =>
    simp only [step] at h
    split at h
    · cases h
    · rename_i n ns hr
      cases h
      exact decodeReplica_inv hs hr
  | trim mds =>
    simp only [step] at h
    split at h
    · cases h
    · rename_i n hh
      cases h
      exact trim_inv hs hh
  | handleCacheExpire mds =>
    simp only [step] at h
    split at h
    · cases h
    · rename_i n ns he
      split at h
      · cases h
      · rename_i o ho
        cases h
        exact handleCacheExpire_inv hs he ho

/-- Only sending a replica adds a nonce. -/
theorem step_nonces {a : Action ρ} (h : step s a = some s') :
    (∃ mds, a = .encodeReplica mds ∧ s' = s.encodeReplica mds) ∨
      (∀ mds, a ≠ .encodeReplica mds) ∧ ∀ r, (s'.nonces r).Sublist (s.nonces r) := by
  cases a with
  | encodeReplica mds =>
    cases h
    exact .inl ⟨mds, rfl, rfl⟩
  | decodeReplica mds =>
    refine .inr ⟨nofun, fun r => ?_⟩
    simp only [step] at h
    split at h
    · cases h
    · rename_i n ns hr
      cases h
      by_cases hrm : r = mds
      · subst hrm
        simp [State.nonces, hr]
      · simp [State.nonces, hrm]
  | trim mds =>
    refine .inr ⟨nofun, fun r => ?_⟩
    simp only [step] at h
    split at h
    · cases h
    · rename_i n hh
      cases h
      by_cases hrm : r = mds
      · subst hrm
        simp [State.nonces, hh]
      · simp [State.nonces, hrm]
  | handleCacheExpire mds =>
    refine .inr ⟨nofun, fun r => ?_⟩
    simp only [step] at h
    split at h
    · cases h
    · rename_i n ns he
      split at h
      · cases h
      · cases h
        by_cases hrm : r = mds
        · subst hrm
          simp [State.nonces, he]
        · simp [State.nonces, hrm]

end Step

/-! ## Runs -/

/-- In every run that sends no nonce still in use: an expire that arrives
finds its sender in `replica_map`, a rank is in `replica_map` while it holds
the object or a replica is on its way to it, and is not while nothing of it is
left. -/
theorem replicas_tracked {as : List (Action ρ)} {s : State ρ}
    (hok : Meets step Fresh (init ρ) as) (h : run step (init ρ) as = some s) (mds : ρ) :
    (∀ n ∈ (s.expires mds).head?, (∃ c, s.auth.getReplicaNonce mds = .ok c) ∧
      ∃ o, s.auth.handleCacheExpire mds n = .ok o) ∧
    ((s.held mds).isSome ∨ s.replicas mds ≠ [] → s.auth.isReplica mds) ∧
    (s.held mds = none → s.replicas mds = [] → s.expires mds = [] → ¬ s.auth.isReplica mds) := by
  have hs : Inv s := run_invariant_of (fun _ _ _ hi hf hst => step_inv hi hf hst) init_inv hok h
  refine ⟨?_, ?_, ?_⟩
  · intro n hn
    obtain ⟨ns, he⟩ := List.head?_eq_some_iff.mp hn
    obtain ⟨c, hc⟩ := hs.lookup_of_expires he
    exact ⟨⟨c, by simp [Object.getReplicaNonce, hc]⟩, _, handleCacheExpire_eq hs.pin hc⟩
  · intro hlive
    have hne : s.nonces mds ≠ [] := by
      rcases hlive with hh | hr
      · obtain ⟨n, hn⟩ := Option.isSome_iff_exists.mp hh
        simp [State.nonces, hn]
      · simp [State.nonces, hr]
    apply AList.lookup_isSome.mp
    rw [hs.last, List.getLast?_eq_some_getLast hne]
    rfl
  · intro hh hr he
    apply AList.lookup_eq_none.mp
    rw [hs.last]
    simp [State.nonces, hh, hr, he]

/-- Two replicas cross an expire, which is dropped; the next one is not. -/
theorem replicas_tracked_crossing :
    ∃ s : State ℕ, run step (init ℕ) [.encodeReplica 1, .decodeReplica 1, .trim 1, .encodeReplica 1,
        .encodeReplica 1, .handleCacheExpire 1, .decodeReplica 1] = some s ∧
      s.replicas 1 ≠ [] ∧ s.auth.isReplica 1 := by
  let as : List (Action ℕ) := [.encodeReplica 1, .decodeReplica 1, .trim 1, .encodeReplica 1,
    .encodeReplica 1, .handleCacheExpire 1, .decodeReplica 1]
  have hrun : (run step (init ℕ) as).isSome := by decide
  obtain ⟨s, hs⟩ := Option.isSome_iff_exists.mp hrun
  have hr : (run step (init ℕ) as).any (fun s => s.replicas 1 != []) := by decide
  rw [hs] at hr
  have hne : s.replicas 1 ≠ [] := by simpa using hr
  exact ⟨s, hs, hne, (replicas_tracked (by decide) hs 1).2.1 (.inr hne)⟩

/-! ## The width of a nonce -/

/-- The nonces in use for each rank are numbers up to `k`, in ascending order. -/
def Counted (s : State ρ) (k : ρ → ℕ) : Prop :=
  ∀ mds, ∃ ks : List ℕ, s.nonces mds = ks.map UInt32.ofNat ∧ ks.Pairwise (· < ·) ∧ ∀ x ∈ ks, x ≤ k mds

theorem Counted.fresh {s : State ρ} {k : ρ → ℕ} (hs : Inv s) (hc : Counted s k) {mds : ρ}
    (hk : k mds + 1 < 2 ^ 32) :
    Fresh s (.encodeReplica mds) ∧ Counted (s.encodeReplica mds) (Function.update k mds (k mds + 1)) := by
  obtain ⟨ks, hks, hlt, hle⟩ := hc mds
  -- The number of the next nonce: one more than the last one in use.
  obtain ⟨x, hx, hxlt, hxle⟩ : ∃ x, (s.auth.addReplica mds).2 = UInt32.ofNat x ∧
      (∀ y ∈ ks, y < x) ∧ x ≤ k mds + 1 := by
    have hlast := hs.last mds
    rw [hks] at hlast
    cases hl : ks.getLast? with
    | none =>
      have hnil : ks = [] := List.getLast?_eq_none_iff.mp hl
      have hnone : s.auth.replicaMap.lookup mds = none := by simpa [hnil] using hlast
      exact ⟨1, by simp [Object.addReplica, hnone], by simp [hnil], by omega⟩
    | some y =>
      have hsome : s.auth.replicaMap.lookup mds = some (UInt32.ofNat y) := by simpa [hl] using hlast
      refine ⟨y + 1, by simp [Object.addReplica, hsome, UInt32.ofNat_add], ?_, ?_⟩
      · intro z hz
        obtain ⟨ys, rfl⟩ := List.getLast?_eq_some_iff.mp hl
        rcases List.mem_append.mp hz with hz | hz
        · have := (List.pairwise_append.mp hlt).2.2 z hz y (List.mem_singleton.mpr rfl)
          omega
        · have := List.mem_singleton.mp hz
          omega
      · have := hle y (List.mem_of_getLast? hl)
        omega
  constructor
  · show (s.auth.addReplica mds).2 ∉ s.nonces mds
    rw [hx, hks, List.mem_map]
    rintro ⟨y, hy, hyx⟩
    have hyx' : y % 2 ^ 32 = x % 2 ^ 32 := by
      simpa using congrArg UInt32.toNat hyx
    have := hxlt y hy
    omega
  · intro r
    by_cases hr : r = mds
    · subst hr
      refine ⟨ks ++ [x], ?_, ?_, ?_⟩
      · rw [nonces_encodeReplica_self, hks, hx, List.map_append]
        rfl
      · exact List.pairwise_append.mpr ⟨hlt, List.pairwise_singleton _ _, by simpa using hxlt⟩
      · intro y hy
        rw [Function.update_self]
        rcases List.mem_append.mp hy with hy | hy
        · have := hle y hy
          omega
        · exact List.mem_singleton.mp hy ▸ hxle
    · rw [nonces_encodeReplica_ne hr, Function.update_of_ne hr]
      exact hc r

omit [DecidableEq ρ] in
theorem Counted.of_sublist {s s' : State ρ} {k : ρ → ℕ} (hc : Counted s k)
    (h : ∀ r, (s'.nonces r).Sublist (s.nonces r)) : Counted s' k := by
  intro r
  obtain ⟨ks, hks, hlt, hle⟩ := hc r
  have hsub := h r
  rw [hks] at hsub
  obtain ⟨ks', hsub', heq⟩ := List.sublist_map_iff.mp hsub
  exact ⟨ks', heq, hlt.sublist hsub', fun x hx => hle x (hsub'.subset hx)⟩

/-- A run that sends fewer than 2³² replicas to each rank sends no nonce that is in use. -/
theorem meets_fresh {as : List (Action ρ)} (h : ∀ mds, as.count (.encodeReplica mds) < 2 ^ 32) :
    Meets step Fresh (init ρ) as := by
  suffices ∀ (s : State ρ) (k : ρ → ℕ), Inv s → Counted s k →
      (∀ mds, k mds + as.count (.encodeReplica mds) < 2 ^ 32) → Meets step Fresh s as from
    this (init ρ) (fun _ => 0) init_inv (fun _ => ⟨[], rfl, List.Pairwise.nil, by simp⟩) (by simpa using h)
  clear h
  induction as with
  | nil => exact fun _ _ _ _ _ => trivial
  | cons a as ih =>
    intro s k hs hc hk
    have hnext : Fresh s a ∧ ∀ s', step s a = some s' → ∃ k', Counted s' k' ∧
        ∀ mds, k' mds + as.count (.encodeReplica mds) < 2 ^ 32 := by
      by_cases ha : ∃ mds, a = .encodeReplica mds
      · obtain ⟨mds, rfl⟩ := ha
        have hkm := hk mds
        rw [List.count_cons_self] at hkm
        obtain ⟨hf, hc'⟩ := hc.fresh hs (by omega : k mds + 1 < 2 ^ 32)
        refine ⟨hf, fun s' h' => ⟨Function.update k mds (k mds + 1), ?_, ?_⟩⟩
        · cases h'
          exact hc'
        · intro r
          by_cases hr : r = mds
          · rw [hr, Function.update_self]
            omega
          · have := hk r
            rw [Function.update_of_ne hr]
            rw [List.count_cons_of_ne (by simpa using Ne.symm hr)] at this
            exact this
      · refine ⟨?_, fun s' h' => ⟨k, ?_, ?_⟩⟩
        · cases a with
          | encodeReplica mds => exact absurd ⟨mds, rfl⟩ ha
          | decodeReplica | trim | handleCacheExpire => trivial
        · rcases step_nonces h' with ⟨mds, hm, -⟩ | ⟨-, hsub⟩
          · exact absurd ⟨mds, hm⟩ ha
          · exact hc.of_sublist hsub
        · intro r
          have := hk r
          have hcount := List.count_le_count_cons (l := as) (a := Action.encodeReplica r) (b := a)
          omega
    refine ⟨hnext.1, fun s' h' => ?_⟩
    obtain ⟨k', hc', hk'⟩ := hnext.2 s' h'
    exact ih s' k' (step_inv hs hnext.1 h') hc' hk'

/-- After `k` more replicas the nonce is `k` further, modulo 2³². -/
theorem run_encodeReplicas {s : State ρ} {mds : ρ} {n : UInt32} (k : ℕ)
    (hp : s.auth.pinReplicated = if s.auth.replicaMap.entries.isEmpty then 0 else 1)
    (hn : s.auth.replicaMap.lookup mds = some n) :
    ∃ s', run step s (List.replicate k (.encodeReplica mds)) = some s' ∧
      s'.auth.replicaMap.lookup mds = some (n + UInt32.ofNat k) ∧
      s'.auth.pinReplicated = (if s'.auth.replicaMap.entries.isEmpty then 0 else 1) ∧
      s'.expires = s.expires ∧ (s'.replicas mds).length = (s.replicas mds).length + k := by
  induction k generalizing s n with
  | zero => exact ⟨s, rfl, by simpa using hn, hp, rfl, rfl⟩
  | succ k ih =>
    have hn' : (s.encodeReplica mds).auth.replicaMap.lookup mds = some (n + 1) := by
      simp [State.encodeReplica, Object.addReplica, hn]
    obtain ⟨s', hr, hl, hp', he, hlen⟩ := ih (addReplica_pin hp) hn'
    refine ⟨s', ?_, ?_, hp', he, ?_⟩
    · rw [List.replicate_succ, run_cons]
      exact ⟨s.encodeReplica mds, rfl, hr⟩
    · rw [hl, UInt32.ofNat_add]
      congr 1
      show n + 1 + UInt32.ofNat k = n + (UInt32.ofNat k + 1)
      rw [add_assoc, add_comm 1]
    · have h₁ : ((s.encodeReplica mds).replicas mds).length = (s.replicas mds).length + 1 := by
        simp [State.encodeReplica]
      omega

/-- An expire that 2³² replicas cross removes the rank they are on their way to. -/
theorem not_isReplica_inFlight :
    ∃ (as : List (Action ℕ)) (s : State ℕ), run step (init ℕ) as = some s ∧
      s.replicas 1 ≠ [] ∧ ¬ s.auth.isReplica 1 := by
  have hstart : ∃ s : State ℕ,
      run step (init ℕ) [.encodeReplica 1, .decodeReplica 1, .trim 1] = some s ∧
      s.auth.pinReplicated = (if s.auth.replicaMap.entries.isEmpty then 0 else 1) ∧
      s.auth.replicaMap.lookup 1 = some 1 ∧ s.expires 1 = [1] := ⟨_, rfl, rfl, rfl, rfl⟩
  obtain ⟨s₁, hr₁, hp₁, hl₁, he₁⟩ := hstart
  obtain ⟨s₂, hr₂, hl₂, hp₂, he₂, hlen⟩ := run_encodeReplicas (2 ^ 32) hp₁ hl₁
  -- The counter is back at the nonce of the expire on its way.
  have hl : s₂.auth.replicaMap.lookup 1 = some 1 := hl₂
  have he : s₂.expires 1 = [1] := by rw [he₂, he₁]
  let s₃ : State ℕ := { s₂ with
    auth := ⟨s₂.auth.replicaMap.erase 1,
      if (s₂.auth.replicaMap.erase 1).entries.isEmpty then 0 else 1⟩
    expires := Function.update s₂.expires 1 [] }
  have hr₃ : run step s₂ [.handleCacheExpire 1] = some s₃ := by
    simp only [run, step, he, handleCacheExpire_eq hp₂ hl, if_true, Option.bind_some]
    rfl
  refine ⟨_, s₃, run_append.mpr ⟨s₁, hr₁, run_append.mpr ⟨s₂, hr₂, hr₃⟩⟩, ?_, ?_⟩
  · apply List.ne_nil_of_length_pos
    show 0 < (s₂.replicas 1).length
    omega
  · exact AList.lookup_eq_none.mp (AList.lookup_erase 1 _)

end CephMds.Replica
