import CephMds.Model.StandbyReplay
import Mathlib

/-!
# A takeover replays the whole journal

Once the OSDs have the map that blacklists the old instance the journal has an
end, and a pass of which the write position is found after that reads all of
it (`Ready`). Both ways into such a pass are behind `wait_for_map`. But where
the map comes later, the context that has waited for it starts the pass
without `reread_head_and_probe`, and the pass ends at the write position of the
pass before.
-/

namespace CephMds.StandbyReplay.Mds

variable {ε : Type} {s s' : Mds ε}

theorem writing_eq_false : s.writing = false ↔ ∃ e, s.blacklistedAt = some e ∧ e ≤ s.osdEpoch := by
  unfold writing
  cases h : s.blacklistedAt with
  | none => simp
  | some e => simp

/-- What holds of the last pass while it waits in `phase`. -/
def Ready (s : Mds ε) : Phase → Prop
  | .idle | .timer | .gone => True
  | .waitForMap epoch _ => ∃ e, s.blacklistedAt = some e ∧ e ≤ epoch
  | .opening found | .rereading _ found => s.writing = false ∧ (found = true → s.writePos = s.appended.length)
  | .openRoot | .replaying => s.writing = false ∧ s.writePos = s.appended.length
  | .reopening | .writeable _ => s.writing = false ∧ s.writePos = s.appended.length ∧ s.readPos = s.writePos

/-- The journal has not been opened. -/
def Unopened : Phase → Prop
  | .idle | .waitForMap _ .initial | .opening false => True
  | _ => False

/-- What does not depend on the phase. -/
structure Placed (s : Mds ε) : Prop where
  objecter : s.objecterEpoch ≤ s.osdEpoch
  head : s.trimmed ≤ s.appended.length
  opened : s.openedAt ≤ s.readPos
  read : s.readPos ≤ s.writePos
  write : s.writePos ≤ s.appended.length
  replayed : s.replayed = (s.appended.take s.readPos).drop s.openedAt
  failed : s.state = .replay → ∃ e, s.blacklistedAt = some e ∧ e ≤ s.lastFailureOsdEpoch
  standbyReplaying : s.state = .standbyReplay → s.standbyReplaying = true

structure Inv (s : Mds ε) : Prop extends s.Placed where
  unopened : Unopened s.phase → s.replayed = []
  standby : s.state = .standby → s.phase = .idle
  last : s.phase = .reopening ∨ (∃ want, s.phase = .writeable want) → s.state = .replay ∧ s.standbyReplaying = false
  ready : s.state = .replay → s.standbyReplaying = false → s.Ready s.phase

theorem inv_initial {journal : List ε} {trimmed epoch : ℕ} {old : Bool} :
    (initial journal trimmed epoch old).Inv where
  objecter := Nat.zero_le _
  head := Nat.min_le_right _ _
  opened := Nat.le_refl _
  read := Nat.le_refl _
  write := Nat.zero_le _
  replayed := rfl
  failed h := by cases h
  standbyReplaying h := by cases h
  unopened _ := rfl
  standby _ := rfl
  last h := by rcases h with h | ⟨_, h⟩ <;> cases h
  ready h := by cases h

/-! ## The phases -/

theorem Ready.congr {p : Phase} (h : s.Ready p) (ha : s'.appended = s.appended) (hw : s'.writePos = s.writePos)
    (hr : s'.readPos = s.readPos) (hb : s'.blacklistedAt = s.blacklistedAt)
    (hwr : s.writing = false → s'.writing = false) : s'.Ready p := by
  cases p with
  | idle | timer | gone => trivial
  | waitForMap epoch step =>
    obtain ⟨e, he, hle⟩ := h
    exact ⟨e, hb.trans he, hle⟩
  | opening found | rereading pos found => exact ⟨hwr h.1, fun hf => by rw [hw, ha, h.2 hf]⟩
  | openRoot | replaying => exact ⟨hwr h.1, by rw [hw, ha, h.2]⟩
  | reopening | writeable want => exact ⟨hwr h.1, by rw [hw, ha, h.2.1], by rw [hr, hw, h.2.2]⟩

theorem Placed.setPhase {p : Phase} (h : s.Placed) (hunopened : Unopened p → s.replayed = [])
    (hstandby : s.state ≠ .standby)
    (hlast : p = .reopening ∨ (∃ want, p = .writeable want) → s.state = .replay ∧ s.standbyReplaying = false)
    (hready : s.state = .replay → s.standbyReplaying = false → s.Ready p) : ({ s with phase := p } : Mds ε).Inv where
  objecter := h.objecter
  head := h.head
  opened := h.opened
  read := h.read
  write := h.write
  replayed := h.replayed
  failed := h.failed
  standbyReplaying := h.standbyReplaying
  unopened := hunopened
  standby hs := absurd hs hstandby
  last := hlast
  ready hs hr := (hready hs hr).congr rfl rfl rfl rfl id

theorem Placed.gone (h : s.Placed) (hs : s.state ≠ .standby) : ({ s with phase := .gone } : Mds ε).Inv :=
  h.setPhase False.elim hs nofun fun _ _ => trivial

/-- What has waited for the map of the last failure finds the journal closed. -/
theorem Placed.fenced {epoch : ℕ} (h : s.Placed) (he : ∃ e, s.blacklistedAt = some e ∧ e ≤ epoch)
    (ho : epoch ≤ s.objecterEpoch) : s.writing = false := by
  obtain ⟨e, hb, he⟩ := he
  exact writing_eq_false.mpr ⟨e, hb, (he.trans ho).trans h.objecter⟩

theorem Placed.waitForMap {step : BootStep} {f : Mds ε → Mds ε} (h : s.Placed) (hs : s.state ≠ .standby)
    (hunopened : step = .initial → s.replayed = []) (hf : (s.state = .replay → s.writing = false) → (f s).Inv) :
    (s.waitForMap step f).Inv := by
  unfold Mds.waitForMap
  split
  · rename_i ho
    exact hf fun hr => h.fenced (h.failed hr) ho
  · refine h.setPhase (fun hu => ?_) hs nofun fun hr _ => h.failed hr
    cases step with
    | initial => exact hunopened rfl
    | prepareLog => exact hu.elim

theorem Placed.rereadHeadAndProbe (h : s.Placed) (hs : s.state ≠ .standby)
    (hf : s.state = .replay → s.standbyReplaying = false → s.writing = false) : s.rereadHeadAndProbe.Inv :=
  h.setPhase False.elim hs nofun fun hr hb => ⟨hf hr hb, nofun⟩

theorem Placed.standbyReplayRestart (h : s.Placed) (hs : s.state ≠ .standby) : s.standbyReplayRestart.Inv := by
  unfold Mds.standbyReplayRestart
  split
  · rename_i hb
    exact h.rereadHeadAndProbe hs fun _ hb' => absurd (hb.symm.trans hb') (by decide)
  · exact h.waitForMap hs nofun fun hf => h.rereadHeadAndProbe hs fun hr _ => hf hr

theorem Placed.prepareLog (h : s.Placed) (hs : s.state ≠ .standby)
    (hready : s.state = .replay → s.standbyReplaying = false → s.writing = false ∧ s.writePos = s.appended.length) :
    (s.bootStart .prepareLog).Inv :=
  h.setPhase False.elim hs nofun hready

/-- The pass is over. In the last one all of the journal has been read. -/
theorem Placed.replayDone (h : s.Placed) (hs : s.state ≠ .standby)
    (hready : s.state = .replay → s.standbyReplaying = false →
      s.writing = false ∧ s.writePos = s.appended.length ∧ s.readPos = s.writePos) : s.replayDone.Inv := by
  unfold Mds.replayDone
  split
  · exact h.gone hs
  rename_i hone
  split
  · split
    · exact h.setPhase False.elim hs nofun fun _ _ => trivial
    · exact h.gone hs
  rename_i hsr
  have hr : s.state = .replay := by
    cases hst : s.state with
    | standby => exact absurd hst hs
    | standbyReplay => exact absurd hst hsr
    | oneshotReplay => exact absurd hst hone
    | replay => rfl
  split
  · -- the last pass begins
    refine Placed.standbyReplayRestart ⟨h.objecter, h.head, h.opened, h.read, h.write, h.replayed, h.failed, ?_⟩ hs
    exact fun hst => absurd hst hsr
  rename_i hb
  have hb : s.standbyReplaying = false := Bool.not_eq_true _ ▸ hb
  split
  · exact h.gone hs
  split
  · exact h.setPhase False.elim hs (fun _ => ⟨hr, hb⟩) hready
  · exact h.setPhase False.elim hs (fun _ => ⟨hr, hb⟩) hready

theorem Placed.start (h : s.Placed) (hs : s.state ≠ .standby) (hr : s.replayed = []) :
    (s.waitForMap .initial (·.bootStart .initial)).Inv :=
  h.waitForMap hs (fun _ => hr) fun hf => h.setPhase (fun _ => hr) hs nofun fun hst _ => ⟨hf hst, nofun⟩

/-! ## The steps -/

section Steps

variable (h : s.Inv)
include h

/-- The world around the MDS changes, and nothing that has been read. -/
theorem Inv.congr (hst : s'.state = s.state) (hb : s'.standbyReplaying = s.standbyReplaying) (hp : s'.phase = s.phase)
    (hr : s'.readPos = s.readPos) (hw : s'.writePos = s.writePos) (ho : s'.openedAt = s.openedAt)
    (hrep : s'.replayed = s.replayed) (hbl : s'.blacklistedAt = s.blacklistedAt)
    (hle : s.lastFailureOsdEpoch ≤ s'.lastFailureOsdEpoch) (hobj : s'.objecterEpoch ≤ s'.osdEpoch)
    (hhead : s'.trimmed ≤ s'.appended.length) (hosd : s.osdEpoch ≤ s'.osdEpoch)
    (happ : s'.appended = s.appended ∨ s.writing = true ∧ s.appended <+: s'.appended) : s'.Inv := by
  have hpre : s.appended <+: s'.appended := by
    rcases happ with happ | ⟨-, happ⟩
    · exact happ ▸ List.prefix_rfl
    · exact happ
  have htake : s'.appended.take s.readPos = s.appended.take s.readPos := by
    obtain ⟨t, ht⟩ := hpre
    rw [← ht, List.take_append_of_le_length (h.read.trans h.write)]
  refine { objecter := hobj, head := hhead, opened := ?_, read := ?_, write := ?_, replayed := ?_, failed := ?_,
           standbyReplaying := ?_, unopened := ?_, standby := ?_, last := ?_, ready := ?_ }
  · rw [ho, hr]
    exact h.opened
  · rw [hr, hw]
    exact h.read
  · rw [hw]
    exact h.write.trans hpre.length_le
  · rw [hrep, hr, ho, htake]
    exact h.replayed
  · rw [hst, hbl]
    intro hs
    obtain ⟨e, he, hlast⟩ := h.failed hs
    exact ⟨e, he, hlast.trans hle⟩
  · rw [hst, hb]
    exact h.standbyReplaying
  · rw [hp, hrep]
    exact h.unopened
  · rw [hst, hp]
    exact h.standby
  · rw [hst, hp, hb]
    exact h.last
  · rw [hst, hb, hp]
    intro hs hf
    have hready := h.ready hs hf
    have hwr : s.writing = false → s'.writing = false := by
      rw [writing_eq_false, writing_eq_false, hbl]
      rintro ⟨e, he, hle⟩
      exact ⟨e, he, hle.trans hosd⟩
    rcases happ with happ | ⟨hwriting, -⟩
    · exact hready.congr happ hw hr hbl hwr
    · -- no last pass past its wait has a writer
      have hno : s.writing ≠ false := by rw [hwriting]; decide
      cases hph : s.phase with
      | idle | timer | gone => trivial
      | waitForMap epoch step =>
        rw [hph] at hready
        obtain ⟨e, he, hle⟩ := hready
        exact ⟨e, hbl.trans he, hle⟩
      | opening found | rereading pos found | openRoot | replaying | reopening | writeable want =>
        rw [hph] at hready
        exact absurd hready.1 hno

theorem Inv.not_standby {p : Phase} (hp : s.phase = p) (hne : p ≠ .idle) : s.state ≠ .standby :=
  fun hs => hne (hp.symm.trans (h.standby hs))

theorem Inv.readyAt {p : Phase} (hp : s.phase = p) (hs : s.state = .replay) (hb : s.standbyReplaying = false) :
    s.Ready p :=
  hp ▸ h.ready hs hb

theorem Inv.handleMdsMap {state : MapState} {epoch : ℕ} {alone : Bool} (hf : s.mapFollows state epoch = true) :
    (s.handleMdsMap state epoch alone).Inv := by
  unfold mapFollows at hf
  obtain ⟨hle, hstate⟩ := Bool.and_eq_true_iff.mp hf
  have hle : s.lastFailureOsdEpoch ≤ epoch := of_decide_eq_true hle
  unfold Mds.handleMdsMap
  by_cases hsame : s.state = state
  · rw [if_pos hsame]
    exact h.congr hsame.symm rfl rfl rfl rfl rfl rfl rfl hle h.objecter h.head le_rfl (.inl rfl)
  rw [if_neg hsame]
  by_cases hsr : s.state = .standbyReplay
  · -- the pass that is under way is not the last
    have hr : state = .replay := by
      simpa [hsr, show ¬ MapState.standbyReplay = state from hsr ▸ hsame] using hstate
    subst hr
    simp only [hsr, if_true]
    have hb := h.standbyReplaying hsr
    refine { objecter := h.objecter, head := h.head, opened := h.opened, read := h.read, write := h.write,
             replayed := h.replayed, failed := fun _ => ⟨epoch, rfl, le_rfl⟩, standbyReplaying := nofun,
             unopened := h.unopened, standby := nofun, last := fun hp => ?_, ready := fun _ hb' => ?_ }
    · cases hsr.symm.trans (h.last hp).1
    · cases hb.symm.trans hb'
  · have hst : s.state = .standby := by simpa [hsame, hsr] using hstate
    have hne : state ≠ .standby := fun he => hsame (hst.trans he.symm)
    have hreplayed : s.replayed = [] := h.unopened (h.standby hst ▸ trivial)
    rw [if_neg hsr]
    cases state with
    | standby => exact absurd rfl hne
    | standbyReplay =>
      exact Placed.start ⟨h.objecter, h.head, h.opened, h.read, h.write, h.replayed, nofun, fun _ => rfl⟩ nofun hreplayed
    | oneshotReplay =>
      exact Placed.start ⟨h.objecter, h.head, h.opened, h.read, h.write, h.replayed, nofun, nofun⟩ nofun hreplayed
    | replay =>
      exact Placed.start ⟨h.objecter, h.head, h.opened, h.read, h.write, h.replayed, fun _ => ⟨epoch, rfl, le_rfl⟩, nofun⟩
        nofun hreplayed

/-- The condition on a run: when the map comes for which the last pass has
waited, nothing has been appended since the write position was found. -/
def Probed (s : Mds ε) : Action ε → Prop
  | .mapContext => ∀ epoch, s.phase = .waitForMap epoch .prepareLog → s.writePos = s.appended.length
  | _ => True

theorem Inv.mapContext (hp : s.Probed .mapContext) (hs : s.step .mapContext = some s') : s'.Inv := by
  simp only [Mds.step] at hs
  split at hs
  · rename_i epoch step hph
    split at hs
    · rename_i ho
      cases hs
      have hst := h.not_standby hph nofun
      have hfenced : s.state = .replay → s.standbyReplaying = false → s.writing = false :=
        fun hr hb => h.fenced (h.readyAt hph hr hb) ho
      cases step with
      | initial =>
        exact h.setPhase (fun _ => h.unopened (hph ▸ trivial)) hst nofun fun hr hb => ⟨hfenced hr hb, nofun⟩
      | prepareLog => exact h.prepareLog hst fun hr hb => ⟨hfenced hr hb, hp epoch hph⟩
    · cases hs
  · cases hs

theorem Inv.find (hs : s.step .find = some s') : s'.Inv := by
  simp only [Mds.step] at hs
  split at hs
  · rename_i hph
    cases hs
    have hst := h.not_standby hph nofun
    refine Placed.setPhase (s := s.openLog) ?_ nofun hst nofun fun hr hb => ⟨(h.readyAt hph hr hb).1, fun _ => rfl⟩
    refine ⟨h.objecter, h.head, le_rfl, h.head, le_rfl, ?_, h.failed, h.standbyReplaying⟩
    show s.replayed = (s.appended.take s.trimmed).drop s.trimmed
    rw [h.unopened (hph ▸ trivial), List.drop_eq_nil_of_le (List.length_take_le ..)]
  · rename_i pos hph
    cases hs
    have hst := h.not_standby hph nofun
    refine Placed.setPhase (s := s.probe) ?_ nofun hst nofun fun hr hb => ⟨(h.readyAt hph hr hb).1, fun _ => rfl⟩
    exact ⟨h.objecter, h.head, h.opened, h.read.trans h.write, le_rfl, h.replayed, h.failed, h.standbyReplaying⟩
  · cases hs

theorem Inv.finish (hs : s.step .finish = some s') : s'.Inv := by
  simp only [Mds.step] at hs
  split at hs
  · rename_i hph
    cases hs
    refine h.setPhase nofun (h.not_standby hph nofun) nofun fun hr hb => ?_
    exact ⟨(h.readyAt hph hr hb).1, (h.readyAt hph hr hb).2 rfl⟩
  · rename_i hph
    cases hs
    exact h.prepareLog (h.not_standby hph nofun) fun hr hb => h.readyAt hph hr hb
  · rename_i pos hph
    cases hs
    have hst := h.not_standby hph nofun
    unfold standbyReplayRestartFinish
    split
    · exact h.gone hst
    · exact h.prepareLog hst fun hr hb => ⟨(h.readyAt hph hr hb).1, (h.readyAt hph hr hb).2 rfl⟩
  · rename_i hph
    cases hs
    -- all had been read when the journal was given to `reopen`
    obtain ⟨hr, hb⟩ := h.last (.inl hph)
    obtain ⟨hwr, hw, hrd⟩ := h.readyAt hph hr hb
    refine Placed.replayDone ?_ (h.not_standby hph nofun) fun _ _ => ⟨hwr, rfl, rfl⟩
    have hread : s.readPos = s.appended.length := hrd.trans hw
    exact ⟨h.objecter, h.head, hread ▸ h.opened, le_rfl, le_rfl, hread ▸ h.replayed, h.failed, h.standbyReplaying⟩
  · cases hs

theorem Inv.error (hs : s.step .error = some s') : s'.Inv := by
  simp only [Mds.step] at hs
  split at hs
  iterate 5
    rename_i hph
    cases hs
    exact h.gone (h.not_standby hph nofun)
  cases hs

theorem Inv.replayEntry (hs : s.step .replayEntry = some s') : s'.Inv := by
  simp only [Mds.step] at hs
  split at hs
  · rename_i e hph he
    split at hs
    · rename_i hlt
      cases hs
      have hst := h.not_standby hph nofun
      have htake : s.appended.take (s.readPos + 1) = s.appended.take s.readPos ++ [e] := by
        rw [List.take_add_one, he, Option.toList_some]
      refine { objecter := h.objecter, head := h.head, opened := h.opened.trans (Nat.le_succ _), read := hlt,
               write := h.write, replayed := ?_, failed := h.failed, standbyReplaying := h.standbyReplaying,
               unopened := fun hu => ?_, standby := fun hs => absurd hs hst, last := h.last, ready := fun hr hb => ?_ }
      · show s.replayed ++ [e] = (s.appended.take (s.readPos + 1)).drop s.openedAt
        have hlen : s.openedAt ≤ (s.appended.take s.readPos).length := by
          rw [List.length_take_of_le (h.read.trans h.write)]
          exact h.opened
        rw [htake, List.drop_append_of_le_length hlen, h.replayed]
      · rw [hph] at hu
        exact hu.elim
      · rw [hph]
        exact h.readyAt hph hr hb
    · cases hs
  · cases hs

theorem Inv.step {a : Action ε} (hp : s.Probed a) (hs : s.step a = some s') : s'.Inv := by
  cases a with
  | append e =>
    simp only [Mds.step] at hs
    split at hs
    · rename_i hw
      cases hs
      exact h.congr rfl rfl rfl rfl rfl rfl rfl rfl le_rfl h.objecter (h.head.trans (by simp)) le_rfl
        (.inr ⟨hw, List.prefix_append _ _⟩)
    · cases hs
  | trim pos =>
    simp only [Mds.step] at hs
    split at hs
    · rename_i hc
      cases hs
      have hpos : pos ≤ s.appended.length := of_decide_eq_true (Bool.and_eq_true_iff.mp hc).2
      exact h.congr rfl rfl rfl rfl rfl rfl rfl rfl le_rfl h.objecter hpos le_rfl (.inl rfl)
    · cases hs
  | osdMap epoch =>
    simp only [Mds.step] at hs
    split at hs
    · rename_i hle
      cases hs
      exact h.congr rfl rfl rfl rfl rfl rfl rfl rfl le_rfl (h.objecter.trans hle) h.head hle (.inl rfl)
    · cases hs
  | objecterMap epoch =>
    simp only [Mds.step] at hs
    split at hs
    · rename_i hc
      cases hs
      have hle : epoch ≤ s.osdEpoch := of_decide_eq_true (Bool.and_eq_true_iff.mp hc).2
      exact h.congr rfl rfl rfl rfl rfl rfl rfl rfl le_rfl hle h.head le_rfl (.inl rfl)
    · cases hs
  | mdsMap state epoch alone =>
    simp only [Mds.step] at hs
    split at hs
    · rename_i hf
      cases hs
      exact h.handleMdsMap hf
    · cases hs
  | mapContext => exact h.mapContext hp hs
  | find => exact h.find hs
  | finish => exact h.finish hs
  | error => exact h.error hs
  | replayEntry => exact h.replayEntry hs
  | replayDone =>
    simp only [Mds.step] at hs
    split at hs
    · rename_i hc
      cases hs
      obtain ⟨hph, hrd⟩ := Bool.and_eq_true_iff.mp hc
      have hph : s.phase = .replaying := of_decide_eq_true hph
      refine h.toPlaced.replayDone (h.not_standby hph nofun) fun hr hb => ?_
      exact ⟨(h.readyAt hph hr hb).1, (h.readyAt hph hr hb).2, beq_iff_eq.mp hrd⟩
    · cases hs
  | timer =>
    simp only [Mds.step] at hs
    split at hs
    · rename_i hph
      cases hs
      exact h.toPlaced.standbyReplayRestart (h.not_standby hph nofun)
    · cases hs

end Steps

/-- When the journal is writeable, all that the old instance appended and has
not trimmed before the journal was opened has been replayed, and it appends no more. -/
def Complete (s : Mds ε) : Prop :=
  ∀ want, s.phase = .writeable want → s.replayed = s.appended.drop s.openedAt ∧ s.writing = false

theorem Inv.complete (h : s.Inv) : s.Complete := by
  intro want hp
  obtain ⟨hr, hb⟩ := h.last (.inr ⟨want, hp⟩)
  obtain ⟨hwr, hw, hrd⟩ := h.readyAt hp hr hb
  refine ⟨?_, hwr⟩
  rw [h.replayed, hrd, hw, List.take_length]

/-- In every run in which nothing has been appended since the last probe when
the awaited map comes, the takeover has replayed the whole journal. -/
theorem run_complete {journal : List ε} {trimmed epoch : ℕ} {old : Bool} {as : List (Action ε)}
    (hp : Meets step Probed (initial journal trimmed epoch old) as)
    (h : run step (initial journal trimmed epoch old) as = some s) : s.Complete := by
  have hinv : s.Inv := run_invariant_of (fun _ _ _ hi hp hs => hi.step hp hs) inv_initial hp h
  exact hinv.complete

/-! ## Two takeovers -/

/-- A pass as standby, after which the MDS is to take over; the map 1
blacklists the old instance. -/
def takeover : List (Action ℕ) :=
  [.mdsMap .standbyReplay 0 true, .find, .finish, .finish, .replayDone, .mdsMap .replay 1 true, .timer, .find, .finish]

/-- The map is there when the last pass begins. -/
theorem run_complete_ready : ∃ s, run step (initial [] 0 0 false)
      (takeover ++ [.append 7, .osdMap 1, .objecterMap 1, .replayDone, .find, .finish, .replayEntry, .replayDone]) = some s ∧
    s.phase = .writeable .reconnect ∧ s.replayed = [7] ∧ s.Complete := by
  have hp : Meets step Probed (initial [] 0 0 false)
      (takeover ++ [.append 7, .osdMap 1, .objecterMap 1, .replayDone, .find, .finish, .replayEntry, .replayDone]) := by
    simp [takeover, Meets, Probed]
  exact ⟨_, rfl, rfl, rfl, run_complete hp rfl⟩

/-- The map comes later, and the old instance appends until then. -/
theorem not_run_complete : ¬ ∀ (as : List (Action ℕ)) (s : Mds ℕ), run step (initial [] 0 0 false) as = some s →
    s.Complete := by
  intro h
  have hrun : ∃ s, run step (initial [] 0 0 false)
        (takeover ++ [.replayDone, .append 7, .osdMap 1, .objecterMap 1, .mapContext, .replayDone]) = some s ∧
      s.phase = .writeable .reconnect ∧ s.replayed = [] ∧ s.appended.drop s.openedAt = [7] := ⟨_, rfl, rfl, rfl, rfl⟩
  obtain ⟨s, hrun, hp, hr, ha⟩ := hrun
  have := (h _ s hrun _ hp).1
  rw [hr, ha] at this
  cases this

end CephMds.StandbyReplay.Mds
