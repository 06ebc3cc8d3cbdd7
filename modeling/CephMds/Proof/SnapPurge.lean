import CephMds.Model.SnapPurge

/-!
# Stale dentries on disk

A fetch skips the stale dentries that are on disk and raises the
`snap_purged_thru` of the fragment in the cache, but only a later commit could
remove their keys, and it no longer looks for them. Once it has written the
header, the next fetch takes them for live (`not_fetched_live`). If no commit
starts while there are stale dentries (`Swept`), no fetch ever adds one
(`fetched_live`).
-/

namespace CephMds.Purge

variable {ν : Type} {realm : Realm}

/-- A snapped dentry on `[first, last]`, with no live snapshot in the interval. -/
def Stale (realm : Realm) (first last : ℕ) : Prop :=
  last ≠ cephNosnap ∧ ∀ s ∈ realm.snaps, ¬ (first ≤ s ∧ s ≤ last)

instance (first last : ℕ) : Decidable (Stale realm first last) := inferInstanceAs (Decidable (_ ∧ _))

/-- The test on the first snapshot from `first` on is one on all. -/
theorem noSnap_iff {snaps : Finset ℕ} {first last : ℕ} :
    noSnap snaps first last = true ↔ ∀ s ∈ snaps, ¬ (first ≤ s ∧ s ≤ last) := by
  unfold noSnap
  cases hp : (ascending snaps).find? (first ≤ ·) with
  | none => exact ⟨fun _ s hs h => absurd h.1 (not_le.mpr (find_ascending_eq_none hp s hs)), fun _ => rfl⟩
  | some p =>
    obtain ⟨hmem, hfirst, hleast⟩ := find_ascending_eq_some hp
    simp only [decide_eq_true_eq]
    refine ⟨fun hlt s hs h => ?_, fun h => ?_⟩
    · exact absurd (hlt.trans_le (hleast s hs h.1)) (Nat.not_lt.mpr h.2)
    · exact Nat.lt_of_not_le fun hle => h p hmem ⟨hfirst, hle⟩

theorem isStale_iff {first last : ℕ} :
    isStale realm.snaps first last = true ↔ Stale realm first last := by
  rw [isStale, Bool.and_eq_true, bne_iff_ne, noSnap_iff, Stale]

theorem CDir.readdir_complete {d d' : CDir ν} {snapid : ℕ} {visited : Key ν → Bool}
    (h : d.readdir realm snapid visited = .ok d') : d'.complete = d.complete := by
  unfold CDir.readdir at h
  split at h
  · obtain ⟨-, -, h⟩ := Checked.bind_ok.mp h
    obtain rfl := Checked.pure_ok.mp h
    rfl
  · obtain rfl := Checked.pure_ok.mp h
    rfl

variable [DecidableEq ν]

/-- What a fetch adds is on disk, and not stale where it is told the snapshots. -/
theorem mem_fetchKeys {snaps : Option (Finset ℕ)} {known : ℕ → ℕ → Bool} (omap : List (Key ν × Entry))
    {b : CDir ν × List (Key ν × ℕ)} {p : Key ν × ℕ}
    (hp : p ∈ (omap.foldl (fetchKey snaps known) b).2) :
    p ∈ b.2 ∨ ∃ q ∈ omap, p = (q.1, q.2.first) ∧ snaps.any (isStale · q.2.first q.1.last) = false := by
  induction omap generalizing b with
  | nil => exact .inl hp
  | cons q omap ih =>
    have hq : p ∈ (fetchKey snaps known b q).2 → p ∈ b.2 ∨
        p = (q.1, q.2.first) ∧ snaps.any (isStale · q.2.first q.1.last) = false := by
      intro hp
      unfold fetchKey at hp
      split at hp
      · exact .inl hp
      · rename_i hstale
        rw [Bool.not_eq_true] at hstale
        split at hp
        · exact .inl hp
        · split at hp
          · rcases List.mem_cons.mp hp with rfl | hp
            · exact .inr ⟨rfl, hstale⟩
            · exact .inl hp
          · split at hp
            · exact .inl hp
            · rcases List.mem_cons.mp hp with rfl | hp
              · exact .inr ⟨rfl, hstale⟩
              · exact .inl hp
    rcases ih hp with hp | ⟨q', hq', hp⟩
    · rcases hq hp with hp | hp
      · exact .inl hp
      · exact .inr ⟨q, List.mem_cons_self, hp⟩
    · exact .inr ⟨q', List.mem_cons_of_mem _ hq', hp⟩

/-- What is on disk after a commit was there before or is in the cache. -/
theorem mem_applyOps {snaps : Option (Finset ℕ)} (items : List (Key ν × Dentry))
    {omap : List (Key ν × Entry)} {p : Key ν × Entry}
    (hp : p ∈ items.foldl (fun omap (k, dn) => applyOp omap k (commitOp snaps k dn)) omap) :
    p ∈ omap ∨ ∃ q ∈ items, p.1 = q.1 ∧ p.2.first = q.2.first := by
  induction items generalizing omap with
  | nil => exact .inl hp
  | cons q items ih =>
    obtain ⟨k, dn⟩ := q
    have hq : p ∈ applyOp omap k (commitOp snaps k dn) → p ∈ omap ∨ p.1 = k ∧ p.2.first = dn.first := by
      intro hp
      cases hop : commitOp snaps k dn with
      | trim =>
        rw [hop] at hp
        exact .inl (List.mem_filter.mp hp).1
      | skip =>
        rw [hop] at hp
        exact .inl hp
      | rm =>
        rw [hop] at hp
        exact .inl (List.mem_filter.mp hp).1
      | set e =>
        have he : e.first = dn.first := by
          unfold commitOp at hop
          split at hop
          · cases hop
          · split at hop
            · cases hop
            · split at hop
              · cases hop
              · obtain rfl := Op.set.inj hop
                rfl
              · obtain rfl := Op.set.inj hop
                rfl
        rw [hop] at hp
        rcases List.mem_cons.mp hp with rfl | hp
        · exact .inr ⟨rfl, he⟩
        · exact .inl (List.mem_filter.mp hp).1
    rcases ih hp with hp | ⟨q', hq', hp⟩
    · rcases hq hp with hp | hp
      · exact .inl hp
      · exact .inr ⟨(k, dn), List.mem_cons_self, hp⟩
    · exact .inr ⟨q', List.mem_cons_of_mem _ hq', hp⟩

namespace State

variable {s s' : State ν} {a : Action ν}

/-- A header that says that the snapshots have been purged is right, a
fragment in the cache has been fetched, and no fetch has added a stale dentry. -/
structure Inv (realm : Realm) (s : State ν) : Prop where
  purged : realm.lastDestroyed ≤ s.header.snapPurgedThru →
    ∀ p ∈ s.omap, ¬ Stale realm p.2.first p.1.last
  complete {d : CDir ν} : s.dir = some d → d.complete = true
  live {p : Key ν × ℕ} : p ∈ s.added → ¬ Stale realm p.2 p.1.last

/-- A commit starts only while there are no stale dentries on disk or cached. -/
def Swept (realm : Realm) (s : State ν) : Action ν → Prop
  | .commit => (∀ p ∈ s.omap, ¬ Stale realm p.2.first p.1.last) ∧
    ∀ d ∈ s.dir, ∀ p ∈ d.items, ¬ Stale realm p.2.first p.1.last
  | _ => True

instance : ∀ (s : State ν) (a : Action ν), Decidable (Swept realm s a)
  | _, .commit => inferInstanceAs (Decidable (_ ∧ _))
  | _, .fetch _ => .isTrue trivial
  | _, .readdir _ _ => .isTrue trivial
  | _, .modify _ _ => .isTrue trivial
  | _, .drop => .isTrue trivial

/-- A fetch, which only happens without a fragment in the cache. -/
theorem Inv.fetch {known : ℕ → ℕ → Bool} (h : Inv realm s) (ho : realm.pastParentsOpen = true)
    (hs : s.step realm (.fetch known) = some s') : Inv realm s' := by
  rw [step] at hs
  split at hs
  · cases hs
  · rename_i hcomplete
    have hdir : s.dir = none := by
      cases hd : s.dir with
      | none => rfl
      | some d =>
        rw [hd] at hcomplete
        exact absurd (h.complete hd) hcomplete
    obtain rfl := Option.some.inj hs
    refine ⟨h.purged, fun {d} hd => ?_, fun {p} hp => ?_⟩
    · obtain rfl := Option.some.inj hd
      rfl
    · rcases List.mem_append.mp hp with hp | hp
      · rw [hdir] at hp
        rcases mem_fetchKeys _ hp with hp | ⟨q, hq, rfl, hstale⟩
        · cases hp
        · rw [List.mem_reverse] at hq
          -- The fresh fragment has taken the header.
          rw [show ((none : Option (CDir ν)).getD (.fresh ν)).takeFnode s.header =
            { CDir.fresh ν with fnode := s.header } from rfl, purgeSnaps, ho, Bool.true_and] at hstale
          by_cases hthru : s.header.snapPurgedThru < realm.lastDestroyed
          · rw [if_pos (decide_eq_true hthru), Option.any_some] at hstale
            rw [← isStale_iff, hstale]
            exact Bool.false_ne_true
          · exact h.purged (Nat.le_of_not_lt hthru) q hq
      · exact h.live hp

theorem Inv.commit (h : Inv realm s) (hsw : Swept realm s .commit)
    (hs : s.step realm .commit = some s') : Inv realm s' := by
  obtain ⟨d, hd, he⟩ := Option.bind_eq_some_iff.mp hs
  obtain rfl := Option.some.inj he
  refine ⟨fun _ p hp => ?_, fun {d'} hd' => ?_, h.live⟩
  · rcases mem_applyOps _ hp with hp | ⟨q, hq, hk, hf⟩
    · exact hsw.1 p hp
    · rw [hk, hf]
      exact hsw.2 d hd q hq
  · obtain rfl := Option.some.inj hd'
    exact h.complete (d := d) hd

theorem Inv.step (ho : realm.pastParentsOpen = true) (h : Inv realm s) (hsw : Swept realm s a)
    (hs : s.step realm a = some s') : Inv realm s' := by
  cases a with
  | fetch known => exact h.fetch ho hs
  | commit => exact h.commit hsw hs
  | readdir snapid visited =>
    obtain ⟨d, hd, hs⟩ := Option.bind_eq_some_iff.mp hs
    obtain ⟨d', hd', hs⟩ := Option.bind_eq_some_iff.mp hs
    obtain rfl := Option.some.inj hs
    have hok : d.readdir realm snapid visited = .ok d' := by
      cases hr : d.readdir realm snapid visited with
      | ok x =>
        rw [hr] at hd'
        rw [show x = d' from Option.some.inj hd']
      | error e =>
        rw [hr] at hd'
        cases hd'
    refine ⟨h.purged, fun {e} he => ?_, h.live⟩
    rw [← Option.some.inj he, CDir.readdir_complete hok]
    exact h.complete (Option.eq_some_of_filter_eq_some hd)
  | modify k dn =>
    obtain ⟨d, hd, hs⟩ := Option.bind_eq_some_iff.mp hs
    obtain rfl := Option.some.inj hs
    refine ⟨h.purged, fun {e} he => ?_, h.live⟩
    rw [← Option.some.inj he]
    exact h.complete (d := d) hd
  | drop =>
    obtain rfl := Option.some.inj hs
    exact ⟨h.purged, (by rintro d ⟨⟩), h.live⟩

/-- From a fragment on disk whose header does not claim too much, and with the
past parents open, no fetch of a run whose commits are all swept adds a stale
dentry. -/
theorem fetched_live {header : Fnode} {omap : List (Key ν × Entry)} {as : List (Action ν)}
    (ho : realm.pastParentsOpen = true)
    (hd : realm.lastDestroyed ≤ header.snapPurgedThru → ∀ p ∈ omap, ¬ Stale realm p.2.first p.1.last)
    (hok : Meets (step realm) (Swept realm) ⟨header, omap, none, []⟩ as)
    (h : run (step realm) ⟨header, omap, none, []⟩ as = some s) :
    ∀ p ∈ s.added, ¬ Stale realm p.2 p.1.last := by
  have hI : Inv realm s := run_invariant_of (fun _ _ _ => Inv.step ho)
    ⟨hd, (by rintro d ⟨⟩), fun hp => absurd hp List.not_mem_nil⟩ hok h
  exact fun p hp => hI.live hp

/-- No snapshot is live, and one up to 5 has been destroyed. -/
def destroyed : Realm := ⟨∅, 5, true⟩

/-- A dentry of a destroyed snapshot, and a head dentry. -/
def onDisk : List (Key ℕ × Entry) := [(⟨0, 5⟩, ⟨3, .remote 100⟩), (⟨1, cephNosnap⟩, ⟨2, .primary 101⟩)]

/-- A file is created, and the fragment written, dropped and fetched again. -/
def rewritten : List (Action ℕ) :=
  [.fetch fun _ _ => false, .modify ⟨2, cephNosnap⟩ ⟨6, true, false, 1, .remote 102⟩, .commit, .drop,
    .fetch fun _ _ => false]

/-- A snapshot is live, and one up to 5 has been destroyed. -/
def thinned : Realm := ⟨{2}, 5, true⟩

/-- A dentry of a destroyed snapshot, one of the live snapshot, and a head dentry. -/
def withLive : List (Key ℕ × Entry) :=
  [(⟨0, 5⟩, ⟨3, .remote 100⟩), (⟨1, 2⟩, ⟨1, .remote 103⟩), (⟨1, cephNosnap⟩, ⟨3, .primary 101⟩)]

/-- The fragment is fetched, dropped and fetched again. -/
def refetched : List (Action ℕ) := [.fetch fun _ _ => false, .drop, .fetch fun _ _ => false]

/-- The dentry of the destroyed snapshot is skipped by both fetches; where there is none on disk, the
fragment is written in between. -/
theorem fetched_live_rewritten :
    (∃ s, run (step thinned) ⟨⟨1, 0⟩, withLive, none, []⟩ refetched = some s ∧
      s.added.length = 4 ∧ ∀ p ∈ s.added, ¬ Stale thinned p.2 p.1.last) ∧
    ∃ s, run (step thinned) ⟨⟨1, 0⟩, withLive.tail, none, []⟩ rewritten = some s ∧
      s.added.length = 5 ∧ ∀ p ∈ s.added, ¬ Stale thinned p.2 p.1.last := by
  constructor
  · have hd : thinned.lastDestroyed ≤ 0 → ∀ p ∈ withLive, ¬ Stale thinned p.2.first p.1.last := by decide
    have hok : Meets (step thinned) (Swept thinned) ⟨⟨1, 0⟩, withLive, none, []⟩ refetched := by decide
    obtain ⟨s, hs, hl⟩ : ∃ s, run (step thinned) ⟨⟨1, 0⟩, withLive, none, []⟩ refetched = some s ∧
        s.added.length = 4 := ⟨_, rfl, by decide⟩
    exact ⟨s, hs, hl, fetched_live rfl hd hok hs⟩
  · have hd : thinned.lastDestroyed ≤ 0 → ∀ p ∈ withLive.tail, ¬ Stale thinned p.2.first p.1.last := by decide
    have hok : Meets (step thinned) (Swept thinned) ⟨⟨1, 0⟩, withLive.tail, none, []⟩ rewritten := by decide
    obtain ⟨s, hs, hl⟩ : ∃ s, run (step thinned) ⟨⟨1, 0⟩, withLive.tail, none, []⟩ rewritten = some s ∧
        s.added.length = 5 := ⟨_, rfl, by decide⟩
    exact ⟨s, hs, hl, fetched_live rfl hd hok hs⟩

theorem not_fetched_live : ∃ s, run (step destroyed) ⟨⟨1, 0⟩, onDisk, none, []⟩ rewritten = some s ∧
    ∃ p ∈ s.added, Stale destroyed p.2 p.1.last :=
  ⟨_, rfl, by decide⟩

end State

end CephMds.Purge
