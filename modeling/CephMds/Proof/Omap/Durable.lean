import CephMds.Proof.Omap.Batch

/-!
# A clean dentry is on disk

`Sound R E s`: the content of each clean dentry is on disk, and the writes that
are under way leave it there; while a commit is under way, the dentries that
are dirty since before it will be on disk with its last write. `R` relates what
is on disk to what is cached (`Purged`, or equality), and the dentries of `E`
are exempt. At most one commit is under way whose completion is accepted, and
when it completes nothing is pending.
-/

namespace CephMds.Omap

open Checked Dentries Writes

variable {ι φ : Type} {o : InodeOps ι} {e : Surroundings} {s s' : State ι φ} {k : Key} {dn : Dentry ι}
  {R : Option (Entry ι) → Option (Entry ι) → Prop} {E : Key → Prop}

/-- `y` is `x` without some of the snapshots of its inode. -/
inductive Purged (o : InodeOps ι) : Option (Entry ι) → Option (Entry ι) → Prop
  | refl (x : Option (Entry ι)) : Purged o x x
  | purge {x : Option (Entry ι)} {first : Snapid} {i : ι} (snaps : Finset Snapid) :
    Purged o x (some ⟨first, .primary i⟩) →
      Purged o x (some ⟨first, .primary (o.purgeStaleSnapData snaps i)⟩)

theorem Purged.eq_none {x : Option (Entry ι)} (h : Purged o x none) : x = none := by
  cases h
  rfl

/-- What `_encode_dentry` does to a dentry keeps `R`. -/
def Encodes (o : InodeOps ι) (R : Option (Entry ι) → Option (Entry ι) → Prop)
    (snaps : Option (Finset Snapid)) : Prop :=
  ∀ (x : Option (Entry ι)) (dn : Dentry ι), R x dn.entry → R x (o.encodeDentry snaps dn).entry

theorem encodes_purged (o : InodeOps ι) (snaps : Option (Finset Snapid)) : Encodes o (Purged o) snaps := by
  intro x dn h
  unfold InodeOps.encodeDentry
  split
  · rename_i i snaps hl
    rw [Dentry.entry, hl] at h
    exact h.purge snaps
  · exact h

namespace State

/-- The header when all the writes have been applied. -/
def lastHeader (s : State ι φ) : Option (Fnode φ) := s.pending.foldl (fun h m => m.header.or h) s.disk.header

structure Sound (R : Option (Entry ι) → Option (Entry ι) → Prop) (E : Key → Prop) (s : State ι φ) : Prop where
  committing : s.dir.committingVersion ≤ s.dir.fnode.version
  headers : ∀ m ∈ s.pending.dropLast, ∀ f, m.header = some f → f.version ≤ s.dir.committedVersion
  lastWrite : ∀ m ∈ s.pending.getLast?, ∀ f, m.header = some f →
    f.version ≤ s.dir.committedVersion ∨ f.version = s.dir.committingVersion
  acks : ∀ v ∈ s.acked, s.dir.committedVersion < v → s.pending = [] ∧ v = s.dir.committingVersion
  clean : ∀ k dn, ¬ E k → s.dir.items[k]? = some dn → dn.dirty = false →
    R (s.disk.omap[k.encode]?) dn.entry ∧ ∀ q ∈ s.ops, q.1 = k.encode → R q.2 dn.entry
  flying : s.dir.committedVersion < s.dir.committingVersion → ∀ k dn, ¬ E k → s.dir.items[k]? = some dn →
    dn.dirty = true → dn.version ≤ s.dir.committingVersion → (putAll s.disk.omap s.ops)[k.encode]? = dn.entry
  flyingHeader : s.dir.committedVersion < s.dir.committingVersion →
    s.dir.fnode.version = s.dir.committingVersion → s.lastHeader = some s.dir.fnode

/-! ## Updates -/

theorem Sound.mono {E' : Key → Prop} (h : Sound R E s) (hE : ∀ k, E k → E' k) : Sound R E' s :=
  { h with
    clean := fun k dn hk => h.clean k dn (mt (hE k) hk)
    flying := fun hc k dn hk => h.flying hc k dn (mt (hE k) hk) }

theorem Sound.prepare (h : Sound R E s) (min : ℕ) (u : Update ι φ) : Sound R E (s.prepare min u) :=
  ⟨h.committing, h.headers, h.lastWrite, h.acks, h.clean, h.flying, h.flyingHeader⟩

/-- What `apply` does with the first of the prepared updates. -/
theorem apply_ok (h : s.apply = .ok s') (hp : s.prepared ≠ []) : ∃ pv u us, s.prepared = (pv, u) :: us ∧
    s.dir.fnode.version < pv ∧ s' = { s with
      dir := { s.dir with
        fnode := { s.dir.fnode with version := pv, rest := u.rest }
        stateDirty := true
        items := s.dir.items.insert u.key (u.dentry pv s.dir.items[u.key]?) }
      prepared := us
      history := s.history ++ [.update pv u.key (u.dentry pv s.dir.items[u.key]?).entry] } := by
  rw [State.apply] at h
  split at h
  · rename_i hnil
    exact absurd hnil hp
  · rename_i pv u us hus
    simp only [CDir.markDirty, bind_ok, assert_ok, pure_ok, decide_eq_true_eq] at h
    obtain ⟨d, ⟨-, hlt, -, -, rfl⟩, rfl⟩ := h
    exact ⟨pv, u, us, hus, hlt, rfl⟩

theorem Update.dentry_dirty (u : Update ι φ) (pv : ℕ) (x : Option (Dentry ι)) :
    (u.dentry pv x).dirty = true ∧ (u.dentry pv x).version = pv := by
  cases x <;> exact ⟨rfl, rfl⟩

/-- After an update the dentry is dirty, and its version is later than that of
any commit that is under way. -/
theorem Sound.update {pv : ℕ} {u : Update ι φ} {us : List (ℕ × Update ι φ)} {hist : List (Change ι)}
    (h : Sound R E s) (hlt : s.dir.fnode.version < pv) :
    Sound R (fun k => E k ∧ k ≠ u.key) { s with
      dir := { s.dir with
        fnode := { s.dir.fnode with version := pv, rest := u.rest }
        stateDirty := true
        items := s.dir.items.insert u.key (u.dentry pv s.dir.items[u.key]?) }
      prepared := us
      history := hist } := by
  have hc := h.committing
  have hd := Update.dentry_dirty u pv s.dir.items[u.key]?
  refine ⟨hc.trans hlt.le, h.headers, h.lastWrite, h.acks, ?_, ?_, ?_⟩
  · intro k dn hk hdn hclean
    rw [getElem?_insert] at hdn
    split at hdn
    · cases hdn
      rw [hd.1] at hclean
      cases hclean
    · rename_i hne
      exact h.clean k dn (fun he => hk ⟨he, hne⟩) hdn hclean
  · intro hfly k dn hk hdn hdirty hle
    rw [getElem?_insert] at hdn
    split at hdn
    · cases hdn
      rw [hd.2] at hle
      exact absurd hle (by show ¬ pv ≤ s.dir.committingVersion; omega)
    · rename_i hne
      exact h.flying hfly k dn (fun he => hk ⟨he, hne⟩) hdn hdirty hle
  · intro _ hv
    have hv' : pv = s.dir.committingVersion := hv
    omega

/-! ## Commits -/

/-- The state in which the writes of a commit are issued. -/
def committing (s : State ι φ) : State ι φ :=
  { s with dir := { s.dir with committingVersion := s.dir.fnode.version, stateCommitting := true } }

/-- What a commit writes under the key of a dentry is what it writes for that dentry. -/
theorem written_of_mem {l : List (List Byte × Option (Entry ι))} {q : List Byte × Option (Entry ι)}
    (hl : ∀ q, q ∈ l ↔ ∃ k dn v, s.dir.items[k]? = some dn ∧
      written o e (snapPurge e.realm s.dir.fnode) k dn = some v ∧ q = (k.encode, v))
    (hdn : s.dir.items[k]? = some dn) (hq : q ∈ l) (hk : q.1 = k.encode) :
    written o e (snapPurge e.realm s.dir.fnode) k dn = some q.2 := by
  obtain ⟨k', dn', v, hk', hv, rfl⟩ := (hl q).mp hq
  obtain rfl := encode_injective hk
  rw [hdn, Option.some.injEq] at hk'
  rw [hk']
  exact hv

/-- A dentry after a commit: skipped, or written. -/
theorem kept_cases {snaps : Option (Finset Snapid)} {dn' : Dentry ι} (h : kept o e snaps k dn = some dn') :
    (dn' = dn ∧ dn.skipped = true ∧ written o e snaps k dn = none) ∨
      (dn' = o.encodeDentry snaps dn ∧ written o e snaps k dn = some dn'.entry) := by
  rw [kept] at h
  split at h
  · cases h
  · rename_i ht
    split at h
    · rename_i hs
      cases h
      refine .inl ⟨rfl, hs, ?_⟩
      rw [written, if_neg ht, if_pos hs]
    · rename_i hs
      cases h
      refine .inr ⟨rfl, ?_⟩
      rw [written, if_neg ht, if_neg hs]

theorem not_skipped_of_dirty (h : dn.dirty = true) : dn.skipped = false := by
  simp [Dentry.skipped, h]

/-- No accepted commit is under way, and so none of the pending writes has its header. -/
theorem Sound.idle_headers (h : Sound R E s) (hidle : s.dir.committingVersion ≤ s.dir.committedVersion) :
    ∀ m ∈ s.pending, ∀ f, m.header = some f → f.version ≤ s.dir.committedVersion := by
  intro m hm f hf
  by_cases hlast : m ∈ s.pending.dropLast
  · exact h.headers m hlast f hf
  · have hne : s.pending ≠ [] := List.ne_nil_of_mem hm
    rw [← List.dropLast_append_getLast hne, List.mem_append, List.mem_singleton] at hm
    have hm' := hm.resolve_left hlast
    rcases h.lastWrite m (by rw [hm', List.getLast?_eq_some_getLast hne]; rfl) f hf with hv | hv
    · exact hv
    · omega

theorem Sound.start (h : Sound R E s) (hR : ∀ x, R x x)
    (henc : Encodes o R (snapPurge e.realm s.dir.fnode))
    (hidle : s.dir.committingVersion ≤ s.dir.committedVersion) : Sound R E (s.committing.omapCommit o e) := by
  have hheaders := h.idle_headers hidle
  obtain ⟨⟨ms, m, hpend, hms, hm⟩, ⟨l, hops, hl⟩, hitems, -⟩ := commits o e s.committing
  have hkept : ∀ {k dn'}, (s.committing.omapCommit o e).dir.items[k]? = some dn' →
      ∃ dn, s.dir.items[k]? = some dn ∧ kept o e (snapPurge e.realm s.dir.fnode) k dn = some dn' := by
    intro k dn' hk
    rw [hitems] at hk
    exact Option.bind_eq_some_iff.mp hk
  refine ⟨le_rfl, ?_, ?_, ?_, ?_, ?_, ?_⟩
  · intro x hx f hf
    rw [hpend, List.dropLast_concat, List.mem_append] at hx
    rcases hx with hx | hx
    · exact hheaders x hx f hf
    · rw [hms x hx] at hf
      cases hf
  · intro x hx f hf
    rw [hpend, List.getLast?_concat, Option.mem_def, Option.some.injEq] at hx
    rw [← hx, hm, Option.some.injEq] at hf
    exact .inr (by rw [← hf]; rfl)
  · intro v hv hlt
    have := (h.acks v hv hlt).2
    have hlt' : s.dir.committedVersion < v := hlt
    omega
  · intro k dn' hk hdn' hclean
    obtain ⟨dn, hdn, hkeep⟩ := hkept hdn'
    rw [hops]
    rcases kept_cases hkeep with ⟨rfl, -, hw⟩ | ⟨rfl, hw⟩
    · obtain ⟨hdisk, hold⟩ := h.clean k dn' hk hdn hclean
      refine ⟨hdisk, fun q hq hqk => ?_⟩
      rcases List.mem_append.mp hq with hq | hq
      · exact hold q hq hqk
      · have hq' := written_of_mem (s := s) hl hdn hq hqk
        rw [hw] at hq'
        cases hq'
    · rw [encodeDentry_dirty] at hclean
      obtain ⟨hdisk, hold⟩ := h.clean k dn hk hdn hclean
      refine ⟨henc _ dn hdisk, fun q hq hqk => ?_⟩
      rcases List.mem_append.mp hq with hq | hq
      · exact henc _ dn (hold q hq hqk)
      · have hq' := written_of_mem (s := s) hl hdn hq hqk
        rw [hw, Option.some.injEq] at hq'
        rw [← hq']
        exact hR _
  · intro _ k dn' _ hdn' hdirty _
    obtain ⟨dn, hdn, hkeep⟩ := hkept hdn'
    rcases kept_cases hkeep with ⟨rfl, hs, -⟩ | ⟨rfl, hw⟩
    · rw [not_skipped_of_dirty hdirty] at hs
      cases hs
    · rw [hops, putAll_append]
      refine putAll_of_agree (fun q hq hqk => ?_) (.inl ?_)
      · have hq' := written_of_mem (s := s) hl hdn hq hqk
        rw [hw, Option.some.injEq] at hq'
        exact hq'.symm
      · exact List.mem_map.mpr ⟨_, (hl _).mpr ⟨k, dn, _, hdn, hw, rfl⟩, rfl⟩
  · intro _ _
    rw [lastHeader, hpend, List.foldl_append, List.foldl_cons, List.foldl_nil, hm]
    rfl

theorem _commit_ok {want : ℕ} (h : s._commit o e want = .ok s') : s' = s ∨
    s.dir.committingVersion ≤ s.dir.committedVersion ∧ s' = s.committing.omapCommit o e := by
  simp only [_commit, bind_ok, ite_ok, pure_ok] at h
  obtain ⟨-, -, ⟨-, h⟩ | ⟨-, ⟨-, -, -, h⟩ | ⟨-, ⟨-, h⟩ | ⟨hc, h⟩⟩⟩⟩ := h
  · exact .inl h.symm
  · exact .inl h.symm
  · exact .inl h.symm
  · exact .inr ⟨not_lt.mp hc, h.symm⟩

theorem Sound._commit {want : ℕ} (h : Sound R E s) (hR : ∀ x, R x x)
    (henc : Encodes o R (snapPurge e.realm s.dir.fnode)) (hs : s._commit o e want = .ok s') : Sound R E s' := by
  rcases _commit_ok hs with rfl | ⟨hidle, rfl⟩
  · exact h
  · exact h.start hR henc hidle

/-- A commit of a directory that is linked. -/
theorem commit_ok {want : ℕ} (h : s.commit o e want = .ok s') (hl : e.unlinked = false) :
    ∃ ws, { s with dir := { s.dir with waitingForCommit := ws } }._commit o e (s.wanted want) = .ok s' := by
  simp only [commit, bind_ok, hl, Bool.false_eq_true, if_false] at h
  obtain ⟨-, -, -, -, h⟩ := h
  exact ⟨_, h⟩

theorem Sound.withWaiters (h : Sound R E s) (ws : List ℕ) :
    Sound R E { s with dir := { s.dir with waitingForCommit := ws } } :=
  ⟨h.committing, h.headers, h.lastWrite, h.acks, h.clean, h.flying, h.flyingHeader⟩

/-! ## Writes -/

theorem Sound.write (h : Sound R E s) : Sound R E s.write := by
  rw [State.write]
  split
  · exact h
  · rename_i m ms hp
    have hops : s.ops = m.ops ++ ms.flatMap Mutation.ops := by rw [ops, hp, List.flatMap_cons]
    refine ⟨h.committing, ?_, ?_, ?_, ?_, ?_, ?_⟩
    · intro x hx
      refine h.headers x ?_
      rw [hp]
      cases ms with
      | nil => cases hx
      | cons y ys => exact List.mem_cons_of_mem m hx
    · intro x hx
      refine h.lastWrite x ?_
      rw [hp]
      cases ms with
      | nil => cases hx
      | cons y ys => rwa [List.getLast?_cons_cons]
    · intro v hv hlt
      rcases List.mem_append.mp hv with hv | hv
      · rw [(h.acks v hv hlt).1] at hp
        cases hp
      · simp only [Option.mem_toList, Option.map_eq_some_iff] at hv
        obtain ⟨f, hf, rfl⟩ := hv
        cases ms with
        | nil =>
          refine ⟨rfl, ?_⟩
          rcases h.lastWrite m (by rw [hp]; rfl) f hf with hv | hv
          · exact absurd hv (not_le.mpr hlt)
          · exact hv
        | cons y ys =>
          have hle := h.headers m (by rw [hp]; exact List.mem_cons_self) f hf
          exact absurd hle (not_le.mpr hlt)
    · intro k dn hk hdn hclean
      obtain ⟨hdisk, hold⟩ := h.clean k dn hk hdn hclean
      rw [hops] at hold
      refine ⟨?_, fun q hq => hold q (List.mem_append_right _ hq)⟩
      show R (putAll s.disk.omap m.ops)[k.encode]? dn.entry
      rcases putAll_cases s.disk.omap m.ops k.encode with heq | ⟨q, hq, hqk, heq⟩
      · rw [heq]
        exact hdisk
      · rw [heq]
        exact hold q (List.mem_append_left _ hq) hqk
    · intro hfly k dn hk hdn hdirty hle
      have := h.flying hfly k dn hk hdn hdirty hle
      rwa [hops, putAll_append] at this
    · intro hfly hv
      have := h.flyingHeader hfly hv
      rwa [lastHeader, hp] at this

/-! ## Completion -/

/-- The commit that completes is the one under way, and all of it has been applied. -/
theorem Sound.note {v : ℕ} (h : Sound R E s) (hR : ∀ x, R x x) (hv : v ∈ s.acked) (hlt : s.dir.committedVersion < v) :
    Sound R E (State.note e { s with acked := s.acked.erase v } v) := by
  obtain ⟨hpend, hvc⟩ := h.acks v hv hlt
  have hops : s.ops = [] := by rw [ops, hpend, List.flatMap_nil]
  have hpend' : (State.note e { s with acked := s.acked.erase v } v).pending = [] := hpend
  have hops' : (State.note e { s with acked := s.acked.erase v } v).ops = [] := hops
  refine ⟨h.committing, ?_, ?_, ?_, ?_, ?_, ?_⟩
  · intro m hm
    rw [hpend'] at hm
    cases hm
  · intro m hm
    rw [hpend'] at hm
    cases hm
  · intro w hw hlt'
    have hw' : w ∈ s.acked := List.mem_of_mem_erase hw
    have hvw : v < w := hlt'
    have := (h.acks w hw' (hlt.trans hvw)).2
    omega
  · intro k dn' hk hdn' hclean
    rw [hops']
    refine ⟨?_, fun q hq => by cases hq⟩
    change (s.dir.items.filterMap _)[k]? = some dn' at hdn'
    rw [Std.ExtTreeMap.getElem?_filterMap', Option.bind_eq_some_iff] at hdn'
    obtain ⟨dn, hdn, hkeep⟩ := hdn'
    split at hkeep
    · rename_i hc
      simp only [Bool.and_eq_true, decide_eq_true_eq] at hc
      split at hkeep
      · cases hkeep
      · cases hkeep
        have hfly := h.flying (by omega) k dn hk hdn hc.2 (by omega)
        rw [hops] at hfly
        show R (s.disk.omap[k.encode]?) dn.entry
        rw [show s.disk.omap[k.encode]? = dn.entry from hfly]
        exact hR _
    · cases hkeep
      exact (h.clean k dn' hk hdn hclean).1
  · intro hfly
    have hfly' : v < s.dir.committingVersion := hfly
    omega
  · intro hfly
    have hfly' : v < s.dir.committingVersion := hfly
    omega

theorem kickWaiters_ok (h : s.kickWaiters o e = .ok s') : ∃ ws,
    s' = { s with dir := { s.dir with waitingForCommit := ws } } ∨
      ∃ want, { s with dir := { s.dir with waitingForCommit := ws } }._commit o e want = .ok s' := by
  rw [kickWaiters] at h
  dsimp only at h
  split at h
  · rename_i hws
    rw [pure_ok, hws] at h
    exact ⟨[], .inl h.symm⟩
  · exact ⟨_, .inr ⟨_, h⟩⟩

theorem Sound.kickWaiters (h : Sound R E s) (hR : ∀ x, R x x)
    (henc : Encodes o R (snapPurge e.realm s.dir.fnode)) (hs : s.kickWaiters o e = .ok s') : Sound R E s' := by
  obtain ⟨ws, rfl | ⟨want, hs⟩⟩ := kickWaiters_ok hs
  · exact h.withWaiters ws
  · exact (h.withWaiters ws)._commit hR henc hs

/-! ## Steps -/

/-- What a step does: an update is prepared or applied, a write arrives, or a commit
is asked for or completes. -/
theorem step_cases {a : Action ι φ} (hl : a.linked = true) (h : s.step o a = some s') :
    (∃ min u, s' = s.prepare min u) ∨ s.apply = .ok s' ∨ s' = s.write ∨
    (∃ e ws want, a.surroundings = some e ∧
      State._commit o e { s with dir := { s.dir with waitingForCommit := ws } } want = .ok s') ∨
    (∃ e v, a.surroundings = some e ∧ v ∈ s.acked ∧ s.dir.committedVersion < v ∧
      State.kickWaiters o e (State.note e { s with acked := s.acked.erase v } v) = .ok s') := by
  cases a with
  | prepare min u =>
    cases h
    exact .inl ⟨min, u, rfl⟩
  | apply => exact .inr (.inl (toOption_eq_some.mp h))
  | write =>
    cases h
    exact .inr (.inr (.inl rfl))
  | commit want e =>
    obtain ⟨ws, hws⟩ := commit_ok (toOption_eq_some.mp h) (by simpa [Action.linked, Action.surroundings] using hl)
    exact .inr (.inr (.inr (.inl ⟨e, ws, _, rfl, hws⟩)))
  | committed v e =>
    rw [State.step] at h
    split at h
    · rename_i hv
      rw [toOption_eq_some] at h
      simp only [State.perform, _committed, bind_ok, assert_ok, decide_eq_true_eq] at h
      obtain ⟨-, hlt, -, -, h⟩ := h
      exact .inr (.inr (.inr (.inr ⟨e, v, rfl, hv, hlt, h⟩)))
    · cases h

theorem apply_nil (h : s.apply = .ok s') (hp : s.prepared = []) : s' = s := by
  rw [State.apply, hp] at h
  cases h
  rfl

theorem Sound.apply (h : Sound R E s) (hs : s.apply = .ok s') : Sound R E s' := by
  by_cases hp : s.prepared = []
  · rw [apply_nil hs hp]
    exact h
  · obtain ⟨pv, u, us, -, hlt, rfl⟩ := apply_ok hs hp
    exact (h.update hlt).mono fun k hk => hk.1

theorem Sound.step {a : Action ι φ} (h : Sound R E s) (hR : ∀ x, R x x) (hl : a.linked = true)
    (henc : ∀ e, a.surroundings = some e → Encodes o R (snapPurge e.realm s.dir.fnode))
    (hs : s.step o a = some s') : Sound R E s' := by
  rcases step_cases hl hs with ⟨min, u, rfl⟩ | hs | rfl | ⟨e, ws, want, he, hs⟩ | ⟨e, v, he, hv, hlt, hs⟩
  · exact h.prepare min u
  · exact h.apply hs
  · exact h.write
  · exact (h.withWaiters ws)._commit hR (henc e he) hs
  · exact (h.note hR hv hlt).kickWaiters hR (henc e he) hs

/-- Once the writes that are under way have arrived, the content of each clean dentry is on disk. -/
def Arrives (s : State ι φ) : Prop := ∀ (k : Key) (dn : Dentry ι), s.dir.items[k]? = some dn → dn.dirty = false →
  (putAll s.disk.omap s.ops)[k.encode]? = dn.entry

theorem Arrives._commit {want : ℕ} (h : Arrives s) (hs : s._commit o e want = .ok s') : Arrives s' := by
  rcases _commit_ok hs with rfl | ⟨-, rfl⟩
  · exact h
  · obtain ⟨-, ⟨l, hops, hl⟩, hitems, -⟩ := commits o e s.committing
    intro k dn' hdn' hclean
    rw [hitems] at hdn'
    obtain ⟨dn, hdn, hkeep⟩ := Option.bind_eq_some_iff.mp hdn'
    rw [hops, putAll_append]
    rcases kept_cases hkeep with ⟨rfl, -, hw⟩ | ⟨rfl, hw⟩
    · -- Nothing is written for it.
      rw [putAll_of_not_mem]
      · exact h k dn' hdn hclean
      · intro hin
        obtain ⟨q, hq, hqk⟩ := List.mem_map.mp hin
        have hq' := written_of_mem hl hdn hq hqk
        rw [hw] at hq'
        cases hq'
    · refine putAll_of_agree (fun q hq hqk => ?_) (.inl ?_)
      · have hq' := written_of_mem hl hdn hq hqk
        rw [hw, Option.some.injEq] at hq'
        exact hq'.symm
      · exact List.mem_map.mpr ⟨_, (hl _).mpr ⟨k, dn, _, hdn, hw, rfl⟩, rfl⟩

theorem Arrives.write (h : Arrives s) : Arrives s.write := by
  rw [State.write]
  split
  · exact h
  · rename_i m ms hp
    intro k dn hdn hclean
    have harrives := h k dn hdn hclean
    rwa [ops, hp, List.flatMap_cons, putAll_append] at harrives

theorem Arrives.note {v : ℕ} (h : Arrives s) (hs : Sound R (fun _ => False) s) (hv : v ∈ s.acked)
    (hlt : s.dir.committedVersion < v) : Arrives (State.note e { s with acked := s.acked.erase v } v) := by
  obtain ⟨-, hvc⟩ := hs.acks v hv hlt
  intro k dn' hdn' hclean
  change (s.dir.items.filterMap _)[k]? = some dn' at hdn'
  rw [Std.ExtTreeMap.getElem?_filterMap', Option.bind_eq_some_iff] at hdn'
  obtain ⟨dn, hdn, hkeep⟩ := hdn'
  split at hkeep
  · rename_i hc
    simp only [Bool.and_eq_true, decide_eq_true_eq] at hc
    split at hkeep
    · cases hkeep
    · cases hkeep
      exact hs.flying (by omega) k dn not_false hdn hc.2 (by omega)
  · cases hkeep
    exact h k dn' hdn hclean

theorem Arrives.step {a : Action ι φ} (h : Arrives s) (hsound : Sound R (fun _ => False) s) (hl : a.linked = true)
    (hs : s.step o a = some s') : Arrives s' := by
  rcases step_cases hl hs with ⟨min, u, rfl⟩ | hs | rfl | ⟨e, ws, want, he, hs⟩ | ⟨e, v, he, hv, hlt, hs⟩
  · exact h
  · by_cases hp : s.prepared = []
    · rw [apply_nil hs hp]
      exact h
    · obtain ⟨pv, u, us, -, -, rfl⟩ := apply_ok hs hp
      intro k dn hdn hclean
      rw [getElem?_insert] at hdn
      split at hdn
      · cases hdn
        rw [(Update.dentry_dirty u pv _).1] at hclean
        cases hclean
      · exact h k dn hdn hclean
  · exact h.write
  · exact Arrives._commit (s := { s with dir := { s.dir with waitingForCommit := ws } }) h hs
  · have hnote : Arrives (State.note e { s with acked := s.acked.erase v } v) := h.note hsound hv hlt
    obtain ⟨ws, rfl | ⟨want, hs⟩⟩ := kickWaiters_ok hs
    · exact hnote
    · exact Arrives._commit (s := { (State.note e { s with acked := s.acked.erase v } v) with
        dir := { (State.note e { s with acked := s.acked.erase v } v).dir with waitingForCommit := ws } }) hnote hs

/-- The header of a clean fragment is on disk, and stays there; a fragment that has no object yet has the fnode `new`. -/
def HeaderKept (new : Fnode φ) (s : State ι φ) : Prop := s.dir.stateDirty = false →
  (s.disk.header = some s.dir.fnode ∨ s.disk.header = none ∧ s.dir.fnode = new) ∧
  ∀ m ∈ s.pending, ∀ f, m.header = some f → f = s.dir.fnode

variable {new : Fnode φ}

theorem HeaderKept._commit {want : ℕ} (h : HeaderKept new s) (hs : s._commit o e want = .ok s') : HeaderKept new s' := by
  rcases _commit_ok hs with rfl | ⟨-, rfl⟩
  · exact h
  · obtain ⟨⟨ms, m, hpend, hms, hm⟩, -⟩ := commits o e s.committing
    intro hc
    refine ⟨(h hc).1, ?_⟩
    intro x hx f hf
    rw [hpend, List.mem_append, List.mem_append, List.mem_singleton] at hx
    rcases hx with (hx | hx) | rfl
    · exact (h hc).2 x hx f hf
    · rw [hms x hx] at hf
      cases hf
    · rw [hm, Option.some.injEq] at hf
      exact hf.symm

theorem HeaderKept.write (h : HeaderKept new s) : HeaderKept new s.write := by
  rw [State.write]
  split
  · exact h
  · rename_i m ms hp
    intro hc
    have hkept := (h hc).2
    rw [hp] at hkept
    refine ⟨?_, fun x hx => hkept x (List.mem_cons_of_mem m hx)⟩
    show m.header.or s.disk.header = some s.dir.fnode ∨ m.header.or s.disk.header = none ∧ s.dir.fnode = new
    cases hm : m.header with
    | none => exact (h hc).1
    | some f =>
      rw [hkept m List.mem_cons_self f hm, Option.some_or]
      exact .inl rfl

/-- The fragment becomes clean when the header on disk is its own. -/
theorem HeaderKept.note {v : ℕ} (h : HeaderKept new s) (hs : Sound R E s) (hv : v ∈ s.acked)
    (hlt : s.dir.committedVersion < v) : HeaderKept new (State.note e { s with acked := s.acked.erase v } v) := by
  obtain ⟨hpend, hvc⟩ := hs.acks v hv hlt
  intro hc
  refine ⟨?_, fun m hm => ?_⟩
  · change (if v = s.dir.fnode.version then false else s.dir.stateDirty) = false at hc
    split at hc
    · rename_i hvv
      have hlast := hs.flyingHeader (by omega) (by omega)
      rw [lastHeader, hpend] at hlast
      exact .inl hlast
    · exact (h hc).1
  · have hm' : m ∈ s.pending := hm
    rw [hpend] at hm'
    cases hm'

theorem HeaderKept.step {a : Action ι φ} (h : HeaderKept new s) (hsound : Sound R E s) (hl : a.linked = true)
    (hs : s.step o a = some s') : HeaderKept new s' := by
  rcases step_cases hl hs with ⟨min, u, rfl⟩ | hs | rfl | ⟨e, ws, want, he, hs⟩ | ⟨e, v, he, hv, hlt, hs⟩
  · exact h
  · by_cases hp : s.prepared = []
    · rw [apply_nil hs hp]
      exact h
    · obtain ⟨pv, u, us, -, -, rfl⟩ := apply_ok hs hp
      intro hc
      cases hc
  · exact h.write
  · exact HeaderKept._commit (s := { s with dir := { s.dir with waitingForCommit := ws } }) h hs
  · have hnote : HeaderKept new (State.note e { s with acked := s.acked.erase v } v) := h.note hsound hv hlt
    obtain ⟨ws, rfl | ⟨want, hs⟩⟩ := kickWaiters_ok hs
    · exact hnote
    · exact HeaderKept._commit (s := { (State.note e { s with acked := s.acked.erase v } v) with
        dir := { (State.note e { s with acked := s.acked.erase v } v).dir with waitingForCommit := ws } }) hnote hs

/-! ## Runs -/

/-- What is cached is what is on disk. -/
structure Loads (disk : Disk ι φ) (items : Std.ExtTreeMap Key (Dentry ι)) : Prop where
  clean : ∀ (k : Key) (dn : Dentry ι), items[k]? = some dn → dn.dirty = false
  content : ∀ (k : Key) (dn : Dentry ι), items[k]? = some dn → disk.omap[k.encode]? = dn.entry

theorem sound_load {disk : Disk ι φ} {fnode : Fnode φ} {items : Std.ExtTreeMap Key (Dentry ι)}
    (hR : ∀ x, R x x) (h : Loads disk items) : Sound R E (load disk fnode items) := by
  refine ⟨le_rfl, (fun m hm => by cases hm), (fun m hm => by cases hm), (fun v hv => by cases hv), ?_, ?_, ?_⟩
  · intro k dn _ hdn _
    refine ⟨?_, fun q hq => by cases hq⟩
    rw [show (load disk fnode items).disk.omap[k.encode]? = dn.entry from h.content k dn hdn]
    exact hR _
  · intro hlt
    exact absurd hlt (lt_irrefl _)
  · intro hlt
    exact absurd hlt (lt_irrefl _)

theorem arrives_load {disk : Disk ι φ} {fnode : Fnode φ} {items : Std.ExtTreeMap Key (Dentry ι)}
    (h : Loads disk items) : Arrives (load disk fnode items) := fun k dn hdn _ => h.content k dn hdn

section Runs

/-- A directory that is linked and has no snapshots. -/
def around : Surroundings where
  realm := ⟨∅, 0, true⟩
  maxDirCommitSize := 1
  unlinked := false
  stray := false
  idle := fun _ => false
  projected := fun _ => false

/-- A dentry `a` on disk, linked to the inode 5. -/
def oneKey : Key := ⟨[97], cephNosnap⟩

def oneDentry (fragmenting : Bool) : Dentry ℕ := ⟨2, 1, false, fragmenting, .primary 5⟩

def oneFnode : Fnode Unit := ⟨1, 0, ()⟩

def oneDisk : Disk ℕ Unit :=
  ⟨some oneFnode, (∅ : Std.ExtTreeMap (List Byte) (Entry ℕ)).insert oneKey.encode ⟨2, .primary 5⟩⟩

def oneItems (fragmenting : Bool) : Std.ExtTreeMap Key (Dentry ℕ) :=
  (∅ : Std.ExtTreeMap Key (Dentry ℕ)).insert oneKey (oneDentry fragmenting)

def oneLoaded (fragmenting : Bool) : State ℕ Unit :=
  load oneDisk oneFnode (oneItems fragmenting)

/-- Eight bytes each; the purge of the snapshots of an inode leaves the inode 0. -/
def oneOps : InodeOps ℕ := ⟨fun _ => 8, fun _ _ => 0⟩

/-- `a` is unlinked. -/
def unlinkOne : Update ℕ Unit := ⟨oneKey, 2, .null, ()⟩

theorem loads_one (fragmenting : Bool) :
    Loads oneDisk (oneItems fragmenting) := by
  have hone : ∀ (k : Key) (dn : Dentry ℕ),
      (oneItems fragmenting)[k]? = some dn → k = oneKey ∧ dn = oneDentry fragmenting := by
    intro k dn h
    rw [oneItems, getElem?_insert] at h
    split at h
    · rename_i hk
      cases h
      exact ⟨hk, rfl⟩
    · simp at h
  refine ⟨fun k dn h => ?_, fun k dn h => ?_⟩
  · obtain ⟨-, rfl⟩ := hone k dn h
    rfl
  · obtain ⟨rfl, rfl⟩ := hone k dn h
    cases fragmenting <;> decide

/-- A snapshot has been destroyed, and is to be purged. -/
def purging : Surroundings := { around with realm := ⟨∅, 1, true⟩ }

end Runs

end State

end CephMds.Omap
