import CephMds.Model.Commit
import Mathlib.Data.List.Perm.Basic
import Mathlib.Data.List.TakeWhile

/-!
# The commit state machine

`Inv` relates the four versions of a fragment, the flag, the write in flight,
the waiters and their pin, and the history. Every step keeps it and returns,
as long as `commit` is not called on a fragment without a version (`Versioned`):
the assertion at the top of `commit` lets such a call pass, and the write it
starts then completes with a version that is not new (`not_committed_runs`).
-/

namespace CephMds.Commit

open Checked

variable {ν C : Type}

/-- The inode is on disk, or known to be dirty, or a snapshot's. -/
def Linkage.Settled (committed : ℕ) : Linkage → Prop
  | .primary i => i.isAuth = true ∧ (i.version ≤ committed ∨ i.dirty = true ∨ i.last < cephNosnap)
  | _ => True

namespace CDir

/-- What holds also while the waiters are looked at. -/
structure Core (d : CDir ν C) : Prop where
  committed_le : d.committedVersion ≤ d.committingVersion
  committing_le : d.committingVersion ≤ d.version
  version_le : d.version ≤ d.projectedVersion
  flag : d.stateCommitting = decide (d.committedVersion < d.committingVersion)
  inFlight : d.inFlight = if d.committedVersion < d.committingVersion then [d.committingVersion] else []
  auth : d.isAuth = true
  waiting {w : Waiter C} : w ∈ d.waitingForCommit → d.committedVersion < w.want ∧ w.want ≤ d.version
  sorted : d.waitingForCommit.Pairwise (·.want ≤ ·.want)
  pins : d.authPins = if d.waitingForCommit.isEmpty then 0 else 1
  settled {p : ν × Dentry} : p ∈ d.items → p.2.linkage.Settled d.committedVersion
  completed {v : ℕ} : v ∈ d.completed → v ≤ d.committedVersion
  registered : d.registered.Perm (d.waitingForCommit ++ d.queued.map Prod.fst)
  queued {q : Waiter C × ℕ} : q ∈ d.queued → d.completed.find? (q.1.want ≤ ·) = some q.2

/-- Between the steps a write is in flight for the waiters. -/
structure Inv (d : CDir ν C) : Prop extends Core d where
  busy : d.waitingForCommit ≠ [] → d.committedVersion < d.committingVersion

variable {d d' : CDir ν C} {want v pv : ℕ} {w : Waiter C} {ws : List (Waiter C)}

/-! ## Dirty -/

theorem Inv.preDirty (h : Inv d) (min : ℕ) : Inv (d.preDirty min) :=
  { h with version_le := h.version_le.trans ((le_max_right _ _).trans (Nat.le_succ _)) }

theorem Settled.markDirty {l : Linkage} (h : l.Settled v) : (l.markDirty pv).Settled v := by
  cases l with
  | null => trivial
  | remote => trivial
  | primary i => exact ⟨h.1, .inr (.inl rfl)⟩

theorem Inv.touch (h : Inv d) (dns ins : ν → Bool) : Inv (d.touch pv dns ins) := by
  refine { h with settled := fun {p} hp => ?_ }
  obtain ⟨⟨name, dn⟩, hdn, rfl⟩ := List.mem_map.mp hp
  have hs : dn.linkage.Settled d.committedVersion := h.settled hdn
  have hl : (if dns name then dn.markDirty pv else dn).linkage = dn.linkage := by
    split <;> rfl
  dsimp only
  split
  · rw [hl]
    exact Settled.markDirty hs
  · rw [hl]
    exact hs

/-- `mark_dirty` returns where its assertions hold. -/
theorem Inv.markDirty (h : Inv d) (hv : d.version < pv) (hp : pv ≤ d.projectedVersion) :
    ∃ d', d.markDirty pv = .ok d' ∧ Inv d' := by
  refine ⟨_, bind_ok.mpr ⟨(), assert_ok.mpr (decide_eq_true hv),
    bind_ok.mpr ⟨(), assert_ok.mpr (decide_eq_true hp), rfl⟩⟩, ?_⟩
  refine { h with
    committing_le := h.committing_le.trans hv.le
    version_le := hp
    waiting := fun hw => ⟨(h.waiting hw).1, (h.waiting hw).2.trans hv.le⟩ }

/-! ## Commit -/

theorem perm_pushWaiter (w : Waiter C) (ws : List (Waiter C)) : (pushWaiter w ws).Perm (w :: ws) := by
  induction ws with
  | nil => exact List.Perm.refl _
  | cons x xs ih =>
    rw [pushWaiter]
    split
    · exact List.Perm.refl _
    · exact (ih.cons x).trans (List.Perm.swap w x xs)

theorem sorted_pushWaiter (h : ws.Pairwise (·.want ≤ ·.want)) :
    (pushWaiter w ws).Pairwise (·.want ≤ ·.want) := by
  induction ws with
  | nil => exact List.pairwise_singleton _ _
  | cons x xs ih =>
    obtain ⟨hx, hxs⟩ := List.pairwise_cons.mp h
    rw [pushWaiter]
    split
    · rename_i hlt
      refine List.pairwise_cons.mpr ⟨fun y hy => ?_, h⟩
      rcases List.mem_cons.mp hy with rfl | hy
      · exact hlt.le
      · exact hlt.le.trans (hx y hy)
    · rename_i hge
      refine List.pairwise_cons.mpr ⟨fun y hy => ?_, ih hxs⟩
      rcases List.mem_cons.mp ((perm_pushWaiter w xs).mem_iff.mp hy) with rfl | hy
      · exact Nat.le_of_not_lt hge
      · exact hx y hy

/-- While a write is in flight `_commit` only waits. -/
theorem _commit_busy (hw : want ≤ d.version) (ha : d.isAuth = true) (hc : d.committedVersion < want)
    (hb : d.committedVersion < d.committingVersion) (hs : d.stateCommitting = true) :
    d._commit want = .ok d := by
  rw [_commit]
  refine bind_ok.mpr ⟨(), assert_ok.mpr (by simp [hw]), bind_ok.mpr ⟨(), assert_ok.mpr ha, ?_⟩⟩
  rw [if_neg (Nat.not_le.mpr hc)]
  by_cases hcw : d.committingVersion ≥ want
  · rw [if_pos hcw]
    exact bind_ok.mpr ⟨(), assert_ok.mpr hs, rfl⟩
  · rw [if_neg hcw, if_pos hb]
    rfl

/-- Otherwise it starts one. -/
theorem _commit_idle (hw : want ≤ d.version) (ha : d.isAuth = true) (hc : d.committedVersion < want)
    (hb : d.committingVersion = d.committedVersion) :
    d._commit want = .ok (omapCommit { d with committingVersion := d.version, stateCommitting := true }) := by
  rw [_commit]
  refine bind_ok.mpr ⟨(), assert_ok.mpr (by simp [hw]), bind_ok.mpr ⟨(), assert_ok.mpr ha, ?_⟩⟩
  rw [if_neg (Nat.not_le.mpr hc), hb, if_neg (Nat.not_le.mpr hc), if_neg (lt_irrefl _)]
  rfl

/-- The state with one more waiter, before `_commit`. -/
def register (d : CDir ν C) (w : Waiter C) : CDir ν C :=
  { d.authPinWaiter with
    waitingForCommit := pushWaiter w d.authPinWaiter.waitingForCommit
    registered := d.authPinWaiter.registered ++ [w] }

theorem register_eq (d : CDir ν C) (w : Waiter C) : d.register w =
    { d with
      authPins := if d.waitingForCommit.isEmpty then d.authPins + 1 else d.authPins
      waitingForCommit := pushWaiter w d.waitingForCommit
      registered := d.registered ++ [w] } := by
  rw [register, authPinWaiter]
  split <;> rfl

theorem Core.register (h : Core d) (hlt : d.committedVersion < w.want) (hle : w.want ≤ d.version) :
    Core (d.register w) := by
  have hmem : ∀ {x}, x ∈ pushWaiter w d.waitingForCommit →
      d.committedVersion < x.want ∧ x.want ≤ d.version := by
    intro x hx
    rcases List.mem_cons.mp ((perm_pushWaiter w _).mem_iff.mp hx) with rfl | hx
    · exact ⟨hlt, hle⟩
    · exact h.waiting hx
  have hreg : (d.registered ++ [w]).Perm (pushWaiter w d.waitingForCommit ++ d.queued.map Prod.fst) := by
    refine (List.perm_append_singleton w _).trans ?_
    exact (h.registered.cons w).trans ((perm_pushWaiter w _).symm.append_right _)
  have hpins : (if d.waitingForCommit.isEmpty then d.authPins + 1 else d.authPins) =
      if (pushWaiter w d.waitingForCommit).isEmpty then 0 else 1 := by
    have hempty : (pushWaiter w d.waitingForCommit).isEmpty = false := by
      rw [List.isEmpty_eq_false_iff]
      intro e
      have := (perm_pushWaiter w d.waitingForCommit).length_eq
      rw [e] at this
      cases this
    rw [hempty, h.pins]
    cases d.waitingForCommit.isEmpty <;> rfl
  rw [register_eq]
  exact { h with waiting := hmem, sorted := sorted_pushWaiter h.sorted, pins := hpins, registered := hreg }

/-- A write that is started while none is in flight. -/
theorem Core.start (h : Core d) (hb : d.committingVersion = d.committedVersion)
    (hv : d.committedVersion < d.version) :
    Inv (omapCommit { d with committingVersion := d.version, stateCommitting := true }) := by
  have hfl : d.inFlight = [] := by rw [h.inFlight, hb, if_neg (lt_irrefl _)]
  exact { h with
    committed_le := hv.le
    committing_le := le_rfl
    flag := (decide_eq_true hv).symm
    inFlight := (congrArg (· ++ [d.version]) hfl).trans (if_pos hv).symm
    busy := fun _ => hv }

/-- `_commit` for a waiter leaves a write in flight. -/
theorem Core._commit (want : ℕ) (h : Core d) (hlt : d.committedVersion < want) (hle : want ≤ d.version) :
    ∃ d', d._commit want = .ok d' ∧ Inv d' ∧ d'.waitingForCommit = d.waitingForCommit := by
  rcases h.committed_le.lt_or_eq with hb | hb
  · exact ⟨_, _commit_busy hle h.auth hlt hb ((h.flag.trans (decide_eq_true hb))),
      { h with busy := fun _ => hb }, rfl⟩
  · exact ⟨_, _commit_idle hle h.auth hlt hb.symm, h.start hb.symm (hlt.trans_le hle), rfl⟩

/-- `commit` on a fragment with a version returns where its assertions hold. -/
theorem Inv.commit (h : Inv d) {pinnable : Bool} {c : C} (hd : d.version ≠ 0)
    (hc : d.canCommit want pinnable = true) : ∃ d', d.commit want c pinnable = .ok d' ∧ Inv d' := by
  have hpre := hc
  simp only [canCommit, Bool.and_eq_true, Bool.or_eq_true, decide_eq_true_eq, beq_iff_eq, hd,
    or_false] at hpre
  obtain ⟨⟨⟨hle, hlt⟩, -⟩, -⟩ := hpre
  have heq : d.commit want c pinnable = (d.register ⟨d.wanted want, c⟩)._commit (d.wanted want) := by
    rw [CDir.commit, hc]; rfl
  have hr := h.toCore.register (w := ⟨d.wanted want, c⟩) hlt hle
  have hreg := register_eq d ⟨d.wanted want, c⟩
  obtain ⟨d', h₁, h₂, -⟩ := hr._commit (d.wanted want) (by rw [hreg]; exact hlt)
    (by rw [hreg]; exact hle)
  exact ⟨d', heq.trans h₁, h₂⟩

/-! ## Completion -/

/-- The loop over the waiters queues those that are satisfied, and commits
again for the first that is not. -/
theorem kickWaiters_eq (d : CDir ν C) (ws : List (Waiter C)) : d.kickWaiters ws =
    match ws.dropWhile (·.want ≤ d.committedVersion) with
    | [] => .ok { d with
        waitingForCommit := []
        queued := d.queued ++ ws.map (·, d.committedVersion) }
    | w :: rest => _commit { d with
        waitingForCommit := w :: rest
        queued := d.queued ++ (ws.takeWhile (·.want ≤ d.committedVersion)).map (·, d.committedVersion) }
        w.want := by
  induction ws generalizing d with
  | nil =>
    rw [kickWaiters, List.dropWhile_nil, List.map_nil, List.append_nil]
    rfl
  | cons w ws ih =>
    rw [kickWaiters]
    by_cases hw : w.want > d.committedVersion
    · rw [if_pos hw, List.dropWhile_cons_of_neg (by simpa using hw),
        List.takeWhile_cons_of_neg (by simpa using hw), List.map_nil, List.append_nil]
    · have hle : w.want ≤ d.committedVersion := Nat.le_of_not_lt hw
      rw [if_neg hw, ih, List.dropWhile_cons_of_pos (by simpa using hle),
        List.takeWhile_cons_of_pos (by simpa using hle)]
      simp only [List.map_cons, List.append_assoc, List.singleton_append]

/-- What the first waiter that is left asks for, all that are left do. -/
theorem want_of_mem_dropWhile (h : ws.Pairwise (·.want ≤ ·.want))
    (hw : w ∈ ws.dropWhile (·.want ≤ v)) : v < w.want := by
  induction ws with
  | nil => cases hw
  | cons x xs ih =>
    obtain ⟨hx, hxs⟩ := List.pairwise_cons.mp h
    by_cases hle : x.want ≤ v
    · rw [List.dropWhile_cons_of_pos (by simpa using hle)] at hw
      exact ih hxs hw
    · rw [List.dropWhile_cons_of_neg (by simpa using hle)] at hw
      rcases List.mem_cons.mp hw with rfl | hw
      · exact Nat.lt_of_not_le hle
      · exact (Nat.lt_of_not_le hle).trans_le (hx w hw)

theorem cleanItems_settled (stray : Bool) {u : ℕ} (huv : u ≤ v) (items : List (ν × Dentry))
    (h : ∀ p ∈ items, p.2.linkage.Settled u) :
    ∃ items', cleanItems v stray items = .ok items' ∧ ∀ p ∈ items', p.2.linkage.Settled v := by
  have hlink : ∀ l : Linkage, l.Settled u → ∃ l', cleanLinkage v l = .ok l' ∧ l'.Settled v := by
    intro l hl
    cases l with
    | null => exact ⟨.null, rfl, trivial⟩
    | remote => exact ⟨.remote, rfl, trivial⟩
    | primary i =>
      by_cases hi : v ≥ i.version
      · exact ⟨.primary { i with dirty := false }, bind_ok.mpr ⟨(), assert_ok.mpr hl.1, if_pos hi⟩,
          ⟨hl.1, .inl hi⟩⟩
      · have hor : i.dirty = true ∨ i.last < cephNosnap := hl.2.resolve_left fun h => hi (h.trans huv)
        refine ⟨.primary i, bind_ok.mpr ⟨(), assert_ok.mpr hl.1, (if_neg hi).trans ?_⟩, ⟨hl.1, .inr hor⟩⟩
        exact bind_ok.mpr ⟨(), assert_ok.mpr (by simpa using hor), rfl⟩
  have hdn : ∀ dn dn' : Dentry, cleanDentry v stray dn = some dn' → dn'.linkage = dn.linkage := by
    intro dn dn' hdn
    unfold cleanDentry at hdn
    dsimp only at hdn
    split at hdn
    · split at hdn
      · cases hdn
      · obtain rfl := Option.some.inj hdn
        rfl
    · obtain rfl := Option.some.inj hdn
      rfl
  induction items with
  | nil => exact ⟨[], rfl, fun _ hp => absurd hp List.not_mem_nil⟩
  | cons p items ih =>
    obtain ⟨name, dn⟩ := p
    obtain ⟨l, hl, hls⟩ := hlink dn.linkage (h (name, dn) List.mem_cons_self)
    obtain ⟨items', hi, his⟩ := ih fun p hp => h p (List.mem_cons_of_mem _ hp)
    refine ⟨_, bind_ok.mpr ⟨l, hl, bind_ok.mpr ⟨items', hi, rfl⟩⟩, fun p hp => ?_⟩
    rcases List.mem_append.mp hp with hp | hp
    · obtain ⟨dn', hdn', rfl⟩ := Option.map_eq_some_iff.mp (Option.mem_toList.mp hp)
      rw [hdn _ _ hdn']
      exact hls
    · exact his p hp

theorem noteCommitted_eq (d : CDir ν C) (v : ℕ) : ∃ dirty, d.noteCommitted v =
    { d with
      committedVersion := v
      stateCommitting := if d.committingVersion = v then false else d.stateCommitting
      isNew := false
      completed := d.completed ++ [v]
      stateDirty := dirty } := by
  unfold noteCommitted markClean
  dsimp only
  split
  · split
    · exact ⟨false, rfl⟩
    · exact ⟨d.stateDirty, rfl⟩
  · exact ⟨d.stateDirty, rfl⟩

/-- The state after the completion of the write in flight, before the waiters
are looked at. -/
def note (d : CDir ν C) (dirty : Bool) (items : List (ν × Dentry)) : CDir ν C :=
  { d with
    committedVersion := d.committingVersion
    stateCommitting := false
    isNew := false
    completed := d.completed ++ [d.committingVersion]
    stateDirty := dirty
    items := items
    inFlight := [] }

/-- The same with the waiters that the write does not satisfy, and their pin. -/
def settle (d : CDir ν C) (dirty : Bool) (items : List (ν × Dentry)) : CDir ν C :=
  let v := d.committingVersion
  { d.note dirty items with
    waitingForCommit := d.waitingForCommit.dropWhile (·.want ≤ v)
    queued := d.queued ++ (d.waitingForCommit.takeWhile (·.want ≤ v)).map (·, v)
    authPins := if (d.waitingForCommit.dropWhile (·.want ≤ v)).isEmpty then 0 else 1 }

theorem Core.settle (h : Core d) (dirty : Bool) {items : List (ν × Dentry)}
    (hs : ∀ p ∈ items, p.2.linkage.Settled d.committingVersion) : Core (d.settle dirty items) := by
  have hsub : ∀ {w}, w ∈ d.waitingForCommit.dropWhile (·.want ≤ d.committingVersion) →
      w ∈ d.waitingForCommit := fun hw => (List.dropWhile_sublist _).subset hw
  have hreg : d.registered.Perm (d.waitingForCommit.dropWhile (·.want ≤ d.committingVersion) ++
      (d.queued ++ (d.waitingForCommit.takeWhile (·.want ≤ d.committingVersion)).map
        (·, d.committingVersion)).map Prod.fst) := by
    refine h.registered.trans ?_
    rw [List.map_append, List.map_map, show (Prod.fst ∘ fun w : Waiter C => (w, d.committingVersion)) = id from rfl,
      List.map_id]
    conv_lhs => rw [← List.takeWhile_append_dropWhile (p := (·.want ≤ d.committingVersion))
      (l := d.waitingForCommit)]
    rw [List.append_assoc]
    exact List.perm_append_comm.trans (by rw [List.append_assoc])
  have hold : ∀ {u}, u ∈ d.completed → u ≤ d.committingVersion := fun hu =>
    (h.completed hu).trans h.committed_le
  exact {
    committed_le := le_rfl
    committing_le := h.committing_le
    version_le := h.version_le
    flag := (decide_eq_false (lt_irrefl _)).symm
    inFlight := (if_neg (lt_irrefl _)).symm
    auth := h.auth
    waiting := fun hw => ⟨want_of_mem_dropWhile h.sorted hw, (h.waiting (hsub hw)).2⟩
    sorted := h.sorted.sublist (List.dropWhile_sublist _)
    pins := rfl
    settled := fun {p} hp => hs p hp
    completed := fun hu => by
      rcases List.mem_append.mp hu with hu | hu
      · exact hold hu
      · exact (List.mem_singleton.mp hu).le
    registered := hreg
    queued := fun {q} hq => by
      rcases List.mem_append.mp hq with hq | hq
      · exact (List.find?_append ..).trans (by rw [h.queued hq]; rfl)
      · obtain ⟨w, hw, rfl⟩ := List.mem_map.mp hq
        have hle : w.want ≤ d.committingVersion := by simpa using List.mem_takeWhile_imp hw
        have hlt := (h.waiting ((List.takeWhile_sublist _).subset hw)).1
        have hnone : d.completed.find? (w.want ≤ ·) = none := by
          rw [List.find?_eq_none]
          intro u hu
          simpa using (h.completed hu).trans_lt hlt
        exact (List.find?_append ..).trans (by rw [hnone]; simp [hle]) }

/-- The completion of the write in flight returns. -/
theorem Inv.committed (h : Inv d) (hv : v ∈ d.inFlight) :
    ∃ d', { d with inFlight := d.inFlight.erase v }._committed v = .ok d' ∧ Inv d' := by
  rw [h.inFlight] at hv
  split at hv
  case isFalse => cases hv
  case isTrue hb =>
  obtain rfl := List.mem_singleton.mp hv
  obtain ⟨dirty, hn⟩ := noteCommitted_eq { d with inFlight := d.inFlight.erase d.committingVersion }
    d.committingVersion
  obtain ⟨items, hi, his⟩ := cleanItems_settled d.isStray hb.le d.items fun p hp => h.settled hp
  have hcore := h.toCore.settle dirty his
  have hfl : d.inFlight.erase d.committingVersion = [] := by
    rw [h.inFlight, if_pos hb, List.erase_cons_head]
  have hrun : ∀ {d₁ d₂ : CDir ν C}, (d.note dirty items).kickWaiters d.waitingForCommit = .ok d₁ →
      (if !d.waitingForCommit.isEmpty && d₁.waitingForCommit.isEmpty then d₁.authUnpin
        else return d₁) = .ok d₂ →
      { d with inFlight := d.inFlight.erase d.committingVersion }._committed d.committingVersion = .ok d₂ := by
    intro d₁ d₂ h₁ h₂
    refine bind_ok.mpr ⟨(), assert_ok.mpr h.auth, bind_ok.mpr ⟨(), assert_ok.mpr (decide_eq_true hb),
      bind_ok.mpr ⟨(), assert_ok.mpr (decide_eq_true le_rfl), ?_⟩⟩⟩
    rw [hn]
    simp only [if_true, hfl]
    exact bind_ok.mpr ⟨items, hi, bind_ok.mpr ⟨d₁, h₁, h₂⟩⟩
  have hkick := kickWaiters_eq (d.note dirty items) d.waitingForCommit
  -- The waiters that are left decide how it ends.
  cases hrest : d.waitingForCommit.dropWhile (·.want ≤ d.committingVersion) with
  | nil =>
    have htake : d.waitingForCommit.takeWhile (·.want ≤ d.committingVersion) = d.waitingForCommit := by
      have := List.takeWhile_append_dropWhile (p := (·.want ≤ d.committingVersion)) (l := d.waitingForCommit)
      rwa [hrest, List.append_nil] at this
    have hsettle : d.settle dirty items = { d.note dirty items with
        waitingForCommit := []
        queued := d.queued ++ d.waitingForCommit.map (·, d.committingVersion)
        authPins := 0 } := by
      simp only [settle, hrest, htake]
      rfl
    have hwait : (d.settle dirty items).waitingForCommit = [] := hrest
    refine ⟨d.settle dirty items, hrun (hkick.trans (by rw [show (d.note dirty items).committedVersion =
      d.committingVersion from rfl, hrest])) ?_, { hcore with busy := fun hne => absurd hwait hne }⟩
    have hpins := h.pins
    cases hempty : d.waitingForCommit.isEmpty with
    | true =>
      rw [hempty, if_pos rfl] at hpins
      rw [hsettle, ← hpins]
      rfl
    | false =>
      rw [hempty, if_neg Bool.false_ne_true] at hpins
      rw [hsettle]
      refine bind_ok.mpr ⟨(), assert_ok.mpr ?_, ?_⟩
      · exact decide_eq_true (hpins ▸ Nat.one_pos)
      · have hone : (d.note dirty items).authPins - 1 = 0 := by
          rw [show (d.note dirty items).authPins = d.authPins from rfl, hpins]
        rw [pure_ok, hone]
        rfl
  | cons w rest =>
    have hpins : d.authPins = 1 := by
      rw [h.pins, if_neg]
      intro hempty
      rw [List.isEmpty_iff.mp hempty] at hrest
      cases hrest
    have hsettle : d.settle dirty items = { d.note dirty items with
        waitingForCommit := w :: rest
        queued := d.queued ++ (d.waitingForCommit.takeWhile (·.want ≤ d.committingVersion)).map
          (·, d.committingVersion) } := by
      simp only [settle, hrest, note, hpins]
      rfl
    have hw := hcore.waiting (w := w) (by rw [hsettle]; exact List.mem_cons_self)
    obtain ⟨d', h₁, h₂, h₃⟩ := hcore._commit w.want hw.1 hw.2
    have hk : (d.note dirty items).kickWaiters d.waitingForCommit = .ok d' := by
      rw [hkick, show (d.note dirty items).committedVersion = d.committingVersion from rfl, hrest]
      rw [hsettle] at h₁
      exact h₁
    refine ⟨d', hrun hk ?_, h₂⟩
    rw [h₃, hsettle]
    simp

/-! ## Runs -/

/-- A step does not commit a fragment that has no version. -/
def Versioned : Checked (CDir ν C) → Action ν C → Prop
  | .ok d, .commit _ _ _ => d.version ≠ 0
  | _, _ => True

instance : ∀ (r : Checked (CDir ν C)) (a : Action ν C), Decidable (Versioned r a)
  | .ok d, .commit _ _ _ => inferInstanceAs (Decidable (d.version ≠ 0))
  | .ok _, .preDirty _ => .isTrue trivial
  | .ok _, .markDirty _ _ _ => .isTrue trivial
  | .ok _, .committed _ => .isTrue trivial
  | .error _, _ => .isTrue trivial

/-- Every step returns and keeps the invariant. -/
theorem Inv.step {a : Action ν C} {r : Checked (CDir ν C)} (h : Inv d) (hv : Versioned (.ok d) a)
    (hs : step (.ok d) a = some r) : ∃ d', r = .ok d' ∧ Inv d' := by
  rw [CDir.step] at hs
  split at hs
  case isFalse => cases hs
  case isTrue he =>
  obtain rfl := Option.some.inj hs
  cases a with
  | preDirty min => exact ⟨_, rfl, h.preDirty min⟩
  | markDirty pv dns ins =>
    simp only [enabled, Bool.and_eq_true, decide_eq_true_eq] at he
    obtain ⟨d', hd', hI⟩ := h.markDirty he.1 he.2
    exact ⟨_, bind_ok.mpr ⟨d', hd', rfl⟩, hI.touch dns ins⟩
  | commit want c pinnable => exact h.commit hv he
  | committed v => exact h.committed (List.contains_iff_mem.mp he)

theorem inv_clean {stray : Bool} {items : List (ν × Dentry)}
    (hs : ∀ p ∈ items, p.2.linkage.Settled v) : Inv (clean v stray items : CDir ν C) where
  committed_le := le_rfl
  committing_le := le_rfl
  version_le := le_rfl
  flag := (decide_eq_false (lt_irrefl _)).symm
  inFlight := (if_neg (lt_irrefl _)).symm
  auth := rfl
  waiting hw := absurd hw List.not_mem_nil
  sorted := List.Pairwise.nil
  pins := rfl
  settled {p} hp := hs p hp
  completed hv := absurd hv List.not_mem_nil
  registered := List.Perm.refl _
  queued hq := absurd hq List.not_mem_nil
  busy hne := absurd rfl hne

/-- The versions are in order, the flag is set while a write is in flight, there
is at most one and there are waiters only with one, they hold a pin, and each
waits for a write that has not completed or was queued by the first that covers it. -/
structure Consistent (d : CDir ν C) : Prop where
  versions : d.committedVersion ≤ d.committingVersion ∧ d.committingVersion ≤ d.version ∧
    d.version ≤ d.projectedVersion
  flag : d.stateCommitting = true ↔ d.committedVersion < d.committingVersion
  one : d.inFlight.length ≤ 1
  waiting : d.waitingForCommit ≠ [] → d.inFlight ≠ []
  pin : d.authPins = if d.waitingForCommit = [] then 0 else 1
  once : d.registered.Perm (d.waitingForCommit ++ d.queued.map Prod.fst)
  wait : ∀ w ∈ d.waitingForCommit, ∀ u ∈ d.completed, u < w.want
  first : ∀ q ∈ d.queued, d.completed.find? (q.1.want ≤ ·) = some q.2

theorem Inv.consistent (h : Inv d) : Consistent d where
  versions := ⟨h.committed_le, h.committing_le, h.version_le⟩
  flag := by rw [h.flag, decide_eq_true_eq]
  one := by
    rw [h.inFlight]
    split <;> simp
  waiting hne := by
    rw [h.inFlight, if_pos (h.busy hne)]
    exact List.cons_ne_nil _ _
  pin := by
    rw [h.pins]
    simp [List.isEmpty_iff]
  once := h.registered
  wait _ hw _ hu := (h.completed hu).trans_lt (h.waiting hw).1
  first _ hq := h.queued hq

/-- Every run that does not commit a fragment without a version returns, and
ends in a consistent state. -/
theorem committed_runs {stray : Bool} {items : List (ν × Dentry)} {as : List (Action ν C)}
    {r : Checked (CDir ν C)} (hs : ∀ p ∈ items, p.2.linkage.Settled v)
    (hok : Meets step Versioned (.ok (clean v stray items)) as)
    (h : run step (.ok (clean v stray items)) as = some r) : ∃ d, r = .ok d ∧ Consistent d := by
  obtain ⟨d, rfl, hI⟩ := run_invariant_of (P := fun r => ∃ d, r = .ok d ∧ Inv d)
    (fun r a r' hr hv hs => by
      obtain ⟨d, rfl, hI⟩ := hr
      exact hI.step hv hs) ⟨_, rfl, inv_clean hs⟩ hok h
  exact ⟨d, rfl, hI.consistent⟩

/-- A new fragment is written twice, the second time for a waiter that came
while the first write was in flight. -/
def twice : List (Action ℕ ℕ) :=
  [.preDirty 0, .markDirty 1 (fun _ => true) (fun _ => true), .commit 0 10 true, .preDirty 0,
    .markDirty 2 (fun _ => true) (fun _ => false), .commit 2 20 true, .committed 1, .committed 2]

/-- One file in the fragment. -/
def oneItem : List (ℕ × Dentry) := [(7, ⟨0, false, 0, false, .primary ⟨0, false, cephNosnap, true⟩⟩)]

theorem committed_runs_twice : ∃ d, run step (.ok (clean 0 false oneItem)) twice = some (.ok d) ∧
    Consistent d ∧ d.queued = [(⟨1, 10⟩, 1), (⟨2, 20⟩, 2)] := by
  have hs : ∀ p ∈ oneItem, p.2.linkage.Settled 0 := by
    intro p hp
    obtain rfl := List.mem_singleton.mp hp
    exact ⟨rfl, .inl le_rfl⟩
  have hok : Meets step Versioned (.ok (clean 0 false oneItem)) twice := by decide
  obtain ⟨d, hd, hq⟩ : ∃ d, run step (.ok (clean 0 false oneItem)) twice = some (.ok d) ∧
      d.queued = [(⟨1, 10⟩, 1), (⟨2, 20⟩, 2)] := ⟨_, rfl, rfl⟩
  obtain ⟨d', hd', hc⟩ := committed_runs hs hok hd
  obtain rfl := Except.ok.inj hd'
  exact ⟨d, hd, hc, hq⟩

theorem not_committed_runs : ¬ ∀ (as : List (Action ℕ ℕ)) (r : Checked (CDir ℕ ℕ)),
    run step (.ok (clean 0 false [])) as = some r → ∃ d, r = .ok d ∧ Consistent d := by
  intro h
  obtain ⟨d, hd, -⟩ := h [.commit 1 10 true, .committed 0] _ rfl
  cases hd

end CDir

end CephMds.Commit
