import CephMds.Proof.SyncCaps

/-!
# What `_fsync` makes durable

`_fsync` flushes what was flushing before, not what is dirty, and gives
`wait_sync_caps` a tid of the inode for a number of the client. So it keeps its
promise only in the case that everything dirty is already flushing, and that
the numbers on the list up to the inode are not greater than that tid
(`fsync_durable_iff`). While the caller waits, acks come in any order, other inodes
are flushed, and sessions end (`Action.Elsewhere`). In one direction an
invariant of these steps is enough (`Waiting`); in the other, the acks of
other inodes take them off the lists (`exists_clear`), and the wait ends.
-/

namespace CephMds.SyncCaps

open Checked SyncCaps.Client
open Caps (Mask)

variable {c c' c₁ : Client} {i : Inode} {ino mds : ℕ}

/-! ## The start -/

/-- What is implemented has metadata to be flushed. -/
abbrev Flushable (m : Mask) : Prop := m \ anyFileWr ≠ ∅

namespace Client

/-- The inode's `flushing_caps` are sent again. -/
def flushed (c : Client) (ino : ℕ) : Client :=
  c.setInode ino ((c.inodes ino).sendCap (c.inodes ino).flushingCaps)

theorem flushed_authCap (c : Client) (ino : ℕ) : ((c.flushed ino).inodes ino).authCap = (c.inodes ino).authCap := by
  rw [flushed, setInode_self]
  exact (sendCap_caps _ _).2.1

def flushOne (ino : ℕ) (c : Client) (p : ℕ × Mask) : Checked Client :=
  if p.2 \ anyFileWr ≠ ∅ then do
    assert (decide (p.1 ∈ c.mdsSessions))
    c.flushCaps ino p.1
  else pure c

theorem flushOne_ok {p : ℕ × Mask} (hp : Flushable p.2) : flushOne ino c p = .ok c' ↔
    (c.inodes ino).authCap = some p.1 ∧ p.1 ∈ c.mdsSessions ∧ c' = c.flushed ino := by
  rw [flushOne, if_pos hp, bind_ok]
  simp only [assert_ok, decide_eq_true_eq, flushCaps_ok]
  constructor
  · rintro ⟨-, hmds, hauth, hc⟩
    exact ⟨hauth, hmds, hc⟩
  · rintro ⟨hauth, hmds, hc⟩
    exact ⟨(), hmds, hauth, hc⟩

theorem foldlM_flushOne_none {l : List (ℕ × Mask)} (h : ∀ p ∈ l, ¬ Flushable p.2) (c : Client) :
    l.foldlM (flushOne ino) c = .ok c := by
  induction l with
  | nil => rfl
  | cons p l ih =>
    rw [List.foldlM_cons, flushOne, if_neg (h p List.mem_cons_self)]
    exact ih fun q hq => h q (List.mem_cons_of_mem p hq)

theorem foldlM_flushOne_ok {l : List (ℕ × Mask)} (hl : l.Pairwise fun p q => p.1 ≠ q.1) :
    l.foldlM (flushOne ino) c = .ok c' ↔
      (∀ p ∈ l, Flushable p.2 → (c.inodes ino).authCap = some p.1 ∧ p.1 ∈ c.mdsSessions) ∧
        ((∃ p ∈ l, Flushable p.2) ∧ c' = c.flushed ino ∨ (∀ p ∈ l, ¬ Flushable p.2) ∧ c' = c) := by
  induction l generalizing c with
  | nil =>
    rw [List.foldlM_nil, pure_ok]
    simp [eq_comm]
  | cons p l ih =>
    obtain ⟨hp, hl⟩ := List.pairwise_cons.mp hl
    rw [List.foldlM_cons]
    by_cases hf : Flushable p.2
    · -- the cap is the auth cap, and so no other can be flushed
      have hrest : ∀ d : Client, (d.inodes ino).authCap = some p.1 →
          (∀ q ∈ l, Flushable q.2 → (d.inodes ino).authCap = some q.1) → ∀ q ∈ l, ¬ Flushable q.2 := by
        intro d hauth h q hq hfq
        exact hp q hq (Option.some.inj (hauth.symm.trans (h q hq hfq)))
      rw [bind_ok]
      constructor
      · rintro ⟨d, hd, hr⟩
        obtain ⟨hauth, hmds, rfl⟩ := (flushOne_ok hf).mp hd
        have hnone := hrest (c.flushed ino) ((flushed_authCap c ino).trans hauth) fun q hq hfq =>
          (((ih hl).mp hr).1 q hq hfq).1
        rw [foldlM_flushOne_none hnone] at hr
        cases hr
        refine ⟨fun q hq hfq => ?_, .inl ⟨⟨p, List.mem_cons_self, hf⟩, rfl⟩⟩
        rcases List.mem_cons.mp hq with rfl | hq
        · exact ⟨hauth, hmds⟩
        · exact absurd hfq (hnone q hq)
      · rintro ⟨hall, hc⟩
        obtain ⟨hauth, hmds⟩ := hall p List.mem_cons_self hf
        have hnone := hrest c hauth fun q hq hfq => (hall q (List.mem_cons_of_mem p hq) hfq).1
        rcases hc with ⟨-, rfl⟩ | ⟨hno, -⟩
        · exact ⟨_, (flushOne_ok hf).mpr ⟨hauth, hmds, rfl⟩, foldlM_flushOne_none hnone _⟩
        · exact absurd hf (hno p List.mem_cons_self)
    · rw [flushOne, if_neg hf]
      refine (ih hl).trans ?_
      simp only [List.mem_cons, forall_eq_or_imp, exists_eq_or_imp, hf, false_imp_iff, true_and, false_or,
        not_false_eq_true]

theorem mem_caps_toList {caps : Std.ExtTreeMap ℕ Mask} {p : ℕ × Mask} : p ∈ caps.toList ↔ caps[p.1]? = some p.2 := by
  rw [← Std.ExtTreeMap.mem_toList_iff_getElem?_eq_some]

/-- Some cap makes `_fsync` flush. -/
def Flushes (c : Client) (ino : ℕ) : Prop :=
  ∃ (mds : ℕ) (m : Mask), (c.inodes ino).caps[mds]? = some m ∧ Flushable m

theorem flushEach_ok : c.flushEach ino = .ok c' ↔
    (∀ (mds : ℕ) (m : Mask), (c.inodes ino).caps[mds]? = some m → Flushable m →
      (c.inodes ino).authCap = some mds ∧ mds ∈ c.mdsSessions) ∧
    (c.Flushes ino ∧ c' = c.flushed ino ∨ ¬ c.Flushes ino ∧ c' = c) := by
  have hkeys : (c.inodes ino).caps.toList.Pairwise fun p q => p.1 ≠ q.1 :=
    Std.ExtTreeMap.distinct_keys_toList.imp fun {p q} h heq => h (Nat.compare_eq_eq.mpr heq)
  refine (foldlM_flushOne_ok hkeys).trans (and_congr ?_ (or_congr (and_congr_left' ?_) (and_congr_left' ?_)))
  · exact ⟨fun h mds m hm => h (mds, m) (mem_caps_toList.mpr hm), fun h p hp => h p.1 p.2 (mem_caps_toList.mp hp)⟩
  · constructor
    · rintro ⟨p, hp, hf⟩
      exact ⟨p.1, p.2, mem_caps_toList.mp hp, hf⟩
    · rintro ⟨mds, m, hm, hf⟩
      exact ⟨(mds, m), mem_caps_toList.mpr hm, hf⟩
  · constructor
    · rintro h ⟨mds, m, hm, hf⟩
      exact h (mds, m) (mem_caps_toList.mpr hm) hf
    · rintro h p hp hf
      exact h ⟨p.1, p.2, mem_caps_toList.mp hp, hf⟩

end Client

/-! ## What is promised -/

/-- What happens while a caller waits: acks, flushes of other inodes, and ends of sessions. -/
def Action.Elsewhere (ino : ℕ) : Action → Prop
  | .flushAck _ _ _ _ | .closedMdsSession _ => True
  | .markCapsDirty k _ | .checkCaps k => k ≠ ino
  | _ => False

/-- Of what was dirty or flushing in `i`, everything is flushed and acknowledged in `j`, what was
dirty by a later flush, or the session of the auth cap was lost. -/
def Inode.SyncedBy (i j : Inode) : Prop :=
  ((∀ b ∈ i.dirtyCaps, i.lastFlushTid < j.ackedTid b) ∧ ∀ b ∈ i.flushingCaps, i.sentTid b ≤ j.ackedTid b) ∨
    i.losses < j.losses

/-- `_fsync` fails no assertion, and when it returns all is synced. -/
def Durable (c : Client) (ino : ℕ) : Prop :=
  ∃ c₁ wait, c.fsyncStart ino = .ok (c₁, wait) ∧
    ∀ as c', (∀ a ∈ as, a.Elsewhere ino) → run Client.step c₁ as = some c' → c'.fsyncReturns wait = true →
      (c.inodes ino).SyncedBy (c'.inodes ino)

/-- The inode is on the list of `mds`, where no number up to its own is greater than `want`. -/
def Client.Blocks (c : Client) (ino mds want : ℕ) : Prop :=
  ∃ l₁ l₂, c.flushingCaps mds = l₁ ++ ino :: l₂ ∧ ∀ k ∈ l₁ ++ [ino], (c.inodes k).flushingCapSeq ≤ want

/-- No flush from before looks like that of `_fsync` in sixteen bits, or only where it is late enough. -/
def Inode.Unmistaken (i : Inode) : Prop :=
  ∀ p ∈ i.sent, ∀ b ∈ p.2, b ∈ i.flushingCaps →
    BitVec.ofNat 16 p.1 = BitVec.ofNat 16 (i.lastFlushTid + 1) → b ∉ i.dirtyCaps ∧ p.1 = i.sentTid b

/-- The inodes of which `_fsync` makes all durable. -/
def Synced (c : Client) (ino : ℕ) : Prop :=
  (c.inodes ino).dirtyCaps = ∅ ∧ (c.inodes ino).flushingCaps = ∅ ∨
  (c.inodes ino).dirtyCaps \ anyFileWr ≠ ∅ ∧ (c.inodes ino).dirtyCaps ⊆ (c.inodes ino).flushingCaps ∧
    (∀ (mds : ℕ) (m : Mask), (c.inodes ino).caps[mds]? = some m → Flushable m → (c.inodes ino).authCap = some mds) ∧
    c.Flushes ino ∧ (∃ mds, c.Blocks ino mds ((c.inodes ino).lastFlushTid + 1)) ∧ (c.inodes ino).Unmistaken

/-! ## While the caller waits -/

variable {a : Action} {want : ℕ}

theorem Client.Blocks.filter (h : c.Blocks ino mds want) (f : ℕ → Bool) (tail : List ℕ)
    (hlist : c'.flushingCaps mds = (c.flushingCaps mds).filter f ++ tail) (hf : f ino = true)
    (hseq : ∀ k, f k = true → (c'.inodes k).flushingCapSeq = (c.inodes k).flushingCapSeq) : c'.Blocks ino mds want := by
  obtain ⟨l₁, l₂, hl, hle⟩ := h
  refine ⟨l₁.filter f, l₂.filter f ++ tail, ?_, fun k hk => ?_⟩
  · rw [hlist, hl, List.filter_append, List.filter_cons_of_pos hf, List.append_assoc, List.cons_append]
  · rcases List.mem_append.mp hk with hk | hk
    · rw [List.mem_filter] at hk
      rw [hseq k hk.2]
      exact hle k (List.mem_append_left _ hk.1)
    · rw [List.mem_singleton.mp hk, hseq ino hf]
      exact hle ino (List.mem_append_right _ (List.mem_singleton_self ino))

/-- While an inode blocks, `wait_sync_caps` waits. -/
theorem Client.Blocks.waitSyncCaps_eq (h : c.Blocks ino mds want) (hs : c.Sound) : c.waitSyncCaps want = false := by
  obtain ⟨l₁, l₂, hl, hle⟩ := h
  have hmds : mds ∈ c.mdsSessions := hs.session mds ino (by rw [hl]; simp)
  refine Bool.eq_false_iff.mpr fun hw => ?_
  rw [waitSyncCaps, decide_eq_true_eq] at hw
  obtain ⟨k, hk, hfront⟩ : ∃ k ∈ l₁ ++ [ino], (c.flushingCaps mds).head? = some k := by
    rw [hl]
    cases l₁ with
    | nil => exact ⟨ino, List.mem_singleton_self ino, rfl⟩
    | cons k l₁ => exact ⟨k, List.mem_cons_self, rfl⟩
  exact absurd (hw mds hmds k hfront) (not_lt.mpr (hle k hk))

/-- What becomes of an inode and of what is before it on its list. -/
theorem elsewhere_cases (hs : c.Sound) (ha : a.Elsewhere ino) (hr : c.step a = some c') :
    (c.inodes ino).losses < (c'.inodes ino).losses ∨
    (∃ n dirty, (∃ p ∈ (c.inodes ino).sent, p.1 = n ∧ dirty ⊆ p.2) ∧ c'.inodes ino = (c.inodes ino).ack n dirty ∧
      ((c'.inodes ino).flushingCaps ≠ ∅ → ∀ mds want, c.Blocks ino mds want → c'.Blocks ino mds want)) ∨
    (∃ caps, c'.inodes ino = { c.inodes ino with caps := caps }) ∧
      ∀ mds want, c.Blocks ino mds want → c'.Blocks ino mds want := by
  cases a with
  | flushAck k m n dirty =>
    rw [Client.step, Option.ite_none_right_eq_some] at hr
    obtain ⟨⟨-, hsent⟩, hr⟩ := hr
    cases hr
    have hseq : ∀ (d : Client) (l : ℕ), d.inodes = c.inodes →
        ((d.setInode k ((c.inodes k).ack n dirty)).inodes l).flushingCapSeq = (c.inodes l).flushingCapSeq := by
      intro d l hd
      by_cases hl : l = k
      · rw [hl, setInode_self]
        rfl
      · rw [setInode_of_ne hl, hd]
    by_cases hk : k = ino
    · subst hk
      refine .inr (.inl ⟨n, dirty, hsent, ?_, fun hne m want hb => ?_⟩)
      · rcases handleCapFlushAck_cases hs k n dirty with ⟨heq, -⟩ | ⟨heq, -⟩
        · rw [heq, setInode_self]
        · rw [heq, setInode_self]
      · rcases handleCapFlushAck_cases hs k n dirty with ⟨heq, -⟩ | ⟨heq, hempty⟩
        · rw [heq]
          exact hb.filter (fun _ => true) [] (by simp [setInode]) rfl fun l _ => hseq c l rfl
        · rw [heq, setInode_self] at hne
          exact absurd hempty hne
    · refine .inr (.inr ⟨⟨(c.inodes ino).caps, ?_⟩, fun m want hb => ?_⟩)
      · rcases handleCapFlushAck_cases hs k n dirty with ⟨heq, -⟩ | ⟨heq, -⟩
        · rw [heq, setInode_of_ne (Ne.symm hk)]
        · rw [heq, setInode_of_ne (Ne.symm hk)]
          rfl
      · rcases handleCapFlushAck_cases hs k n dirty with ⟨heq, -⟩ | ⟨heq, -⟩
        · rw [heq]
          exact hb.filter (fun _ => true) [] (by simp [setInode]) rfl fun l _ => hseq c l rfl
        · rw [heq]
          exact hb.filter (· != k) [] (by simp [setInode, removeMyself]) (bne_iff_ne.mpr (Ne.symm hk))
            fun l _ => hseq _ l rfl
  | markCapsDirty k caps =>
    cases hr
    have hk : ino ≠ k := Ne.symm ha
    refine .inr (.inr ⟨⟨(c.inodes ino).caps, setInode_of_ne hk _ _⟩, fun m want hb => ?_⟩)
    refine hb.filter (fun _ => true) [] (by simp [markCapsDirty, setInode]) rfl fun l _ => ?_
    by_cases hl : l = k
    · rw [hl, markCapsDirty, setInode_self]
    · rw [markCapsDirty, setInode_of_ne hl]
  | checkCaps k =>
    obtain ⟨m, -, -, -, rfl⟩ := checkCaps_ok.mp (toOption_eq_some.mp hr)
    have hk : ino ≠ k := Ne.symm ha
    refine .inr (.inr ⟨⟨(c.inodes ino).caps, setInode_of_ne hk _ _⟩, fun mds want hb => ?_⟩)
    refine hb.filter (· != k) (if mds = m then [k] else []) rfl (bne_iff_ne.mpr hk) fun l hl => ?_
    rw [bne_iff_ne] at hl
    exact congrArg _ (setInode_of_ne hl _ _)
  | closedMdsSession m =>
    cases hr
    rcases removeSessionCap_cases (c.inodes ino) m with ⟨-, heq⟩ | ⟨hne, heq⟩
    · left
      show _ < (removeSessionCap (c.inodes ino) m).losses
      rw [heq]
      exact Nat.lt_succ_self _
    · refine .inr (.inr ⟨⟨_, heq⟩, fun mds want hb => ?_⟩)
      refine hb.filter (fun l => (c.inodes l).authCap != some m) [] (by simp [closedMdsSession])
        (bne_iff_ne.mpr hne) fun l _ => ?_
      show (removeSessionCap (c.inodes l) m).flushingCapSeq = _
      rw [removeSessionCap]
      split <;> rfl
  | openSession m => cases ha
  | setImplemented k m implemented => cases ha
  | flushSnap k => cases ha
  | addUpdateCap k m issued auth newer => cases ha
  | handleCapImport k m issued newer peer => cases ha
  | handleCapExport k m peer newer newerAuth => cases ha
  | removeCap k m => cases ha
  | kickFlushingCaps m => cases ha

/-- The flush that `_fsync` sent in `c` is under way in `d`, and each bit that is not flushing any more is synced. -/
structure Waiting (c : Client) (ino mds : ℕ) (d : Client) : Prop where
  sound : d.Sound
  sent : (d.inodes ino).sent =
    ((c.inodes ino).lastFlushTid + 1, (c.inodes ino).flushingCaps) :: (c.inodes ino).sent
  tid : ∀ b ∈ (c.inodes ino).flushingCaps,
    (d.inodes ino).flushingCapTid b = BitVec.ofNat 16 ((c.inodes ino).lastFlushTid + 1)
  subset : (d.inodes ino).flushingCaps ⊆ (c.inodes ino).flushingCaps
  acked : ∀ b ∈ (c.inodes ino).flushingCaps, b ∉ (d.inodes ino).flushingCaps →
    (b ∈ (c.inodes ino).dirtyCaps → (c.inodes ino).lastFlushTid < (d.inodes ino).ackedTid b) ∧
      (c.inodes ino).sentTid b ≤ (d.inodes ino).ackedTid b
  front : (d.inodes ino).flushingCaps ≠ ∅ → d.Blocks ino mds ((c.inodes ino).lastFlushTid + 1)

theorem waiting_flushed (hs : c.Sound) (hne : (c.inodes ino).flushingCaps ≠ ∅)
    (hb : c.Blocks ino mds ((c.inodes ino).lastFlushTid + 1)) : Waiting c ino mds (c.flushed ino) := by
  have hflushing : ((c.inodes ino).sendCap (c.inodes ino).flushingCaps).flushingCaps = (c.inodes ino).flushingCaps :=
    (sendCap_caps _ _).2.2.2.1
  refine ⟨hs.flush ino, ?_, fun b hin => ?_, ?_, fun b hin hno => ?_, fun _ => ?_⟩
  · rw [flushed, setInode_self, Inode.sendCap_eq hne]
  · rw [flushed, setInode_self, Inode.sendCap_eq hne]
    exact if_pos hin
  · rw [flushed, setInode_self, hflushing]
  · rw [flushed, setInode_self, hflushing] at hno
    exact absurd hin hno
  · refine hb.filter (fun _ => true) [] (by simp [flushed, setInode]) rfl fun k _ => ?_
    by_cases hk : k = ino
    · rw [hk, flushed, setInode_self]
      exact (sendCap_caps _ _).2.2.2.2.1
    · rw [flushed, setInode_of_ne hk]

theorem Waiting.step {d d' : Client} (h : Waiting c ino mds d) (hs : c.Sound) (hu : (c.inodes ino).Unmistaken)
    (ha : a.Elsewhere ino) (hr : d.step a = some d') :
    (d.inodes ino).losses < (d'.inodes ino).losses ∨
      (d'.inodes ino).losses = (d.inodes ino).losses ∧ Waiting c ino mds d' := by
  have hsound := step_sound h.sound hr
  rcases elsewhere_cases h.sound ha hr with hl | ⟨n, dirty, ⟨p, hp, rfl, hdirty⟩, heq, hblocks⟩ | ⟨⟨caps, heq⟩, hblocks⟩
  · exact .inl hl
  · refine .inr ⟨?_, hsound, ?_, ?_, ?_, fun b hin hno => ?_,
      fun hne => hblocks hne mds _ (h.front fun hempty => hne ?_)⟩
    · rw [heq]
      rfl
    · rw [heq]
      exact h.sent
    · rw [heq]
      exact h.tid
    · rw [heq]
      exact Finset.sdiff_subset.trans h.subset
    · have hmono : (d.inodes ino).ackedTid b ≤ (d'.inodes ino).ackedTid b := by
        rw [heq]
        show _ ≤ if b ∈ dirty then _ else _
        split
        · exact le_max_left _ _
        · exact le_rfl
      by_cases hold : b ∈ (d.inodes ino).flushingCaps
      · -- the ack cleans `b`, so it is of the flush of `_fsync`, or of the last one before
        have hclean : b ∈ (d.inodes ino).cleaned p.1 dirty := by
          by_contra hno'
          rw [heq] at hno
          exact hno (Finset.mem_sdiff.mpr ⟨hold, hno'⟩)
        obtain ⟨hbd, htid⟩ := Inode.mem_cleaned.mp hclean
        have hack : p.1 ≤ (d'.inodes ino).ackedTid b := by
          rw [heq]
          show _ ≤ if b ∈ dirty then _ else _
          rw [if_pos hbd]
          exact le_max_right _ _
        have hle := (hs.tidy ino).sent_le b
        rw [h.sent] at hp
        rcases List.mem_cons.mp hp with rfl | hp
        · exact ⟨fun _ => hack, hle.trans ((Nat.le_succ _).trans hack)⟩
        · obtain ⟨hno, hsent⟩ := hu p hp b (hdirty hbd) hin (htid.symm.trans (h.tid b hin))
          exact ⟨fun hb => absurd hb hno, hsent ▸ hack⟩
      · obtain ⟨h₁, h₂⟩ := h.acked b hin hold
        exact ⟨fun hb => (h₁ hb).trans_le hmono, h₂.trans hmono⟩
    · rw [heq, Inode.ack, hempty, Finset.empty_sdiff]
  · refine .inr ⟨?_, hsound, ?_, ?_, ?_, ?_, fun hne => hblocks mds _ (h.front ?_)⟩
    · rw [heq]
    · rw [heq]
      exact h.sent
    · rw [heq]
      exact h.tid
    · rw [heq]
      exact h.subset
    · rw [heq]
      exact h.acked
    · rw [heq] at hne
      exact hne

theorem losses_mono {as : List Action} (hs : c.Sound) (ha : ∀ a ∈ as, a.Elsewhere ino)
    (hr : run Client.step c as = some c') : (c.inodes ino).losses ≤ (c'.inodes ino).losses := by
  induction as generalizing c with
  | nil =>
    cases hr
    exact le_rfl
  | cons a as ih =>
    obtain ⟨t, ht, hr⟩ := run_cons.mp hr
    refine le_trans ?_ (ih (step_sound hs ht) (fun b hb => ha b (List.mem_cons_of_mem a hb)) hr)
    rcases elsewhere_cases hs (ha a List.mem_cons_self) ht with hl | ⟨n, dirty, -, heq, -⟩ | ⟨⟨caps, heq⟩, -⟩
    · exact hl.le
    · rw [heq]
      exact le_rfl
    · rw [heq]

theorem Waiting.run {d d' : Client} {as : List Action} (h : Waiting c ino mds d) (hs : c.Sound)
    (hu : (c.inodes ino).Unmistaken) (ha : ∀ a ∈ as, a.Elsewhere ino) (hr : run Client.step d as = some d') :
    (d.inodes ino).losses < (d'.inodes ino).losses ∨ Waiting c ino mds d' := by
  induction as generalizing d with
  | nil =>
    cases hr
    exact .inr h
  | cons a as ih =>
    obtain ⟨t, ht, hr⟩ := run_cons.mp hr
    have has := fun b hb => ha b (List.mem_cons_of_mem a hb)
    rcases h.step hs hu (ha a List.mem_cons_self) ht with hl | ⟨hl, hw⟩
    · exact .inl (hl.trans_le (losses_mono (step_sound h.sound ht) has hr))
    · exact hl ▸ ih hw has hr

theorem durable_of_synced (hs : c.Sound) (h : Synced c ino) : Durable c ino := by
  rcases h with ⟨hdirty, hflushing⟩ | ⟨hmeta, hsub, hauth, hflushes, ⟨mds, hblocks⟩, hu⟩
  · refine ⟨c, none, ?_, fun as c' _ _ _ => .inl ⟨?_, ?_⟩⟩
    · rw [fsyncStart, hdirty, if_neg (by simp)]
      rfl
    · rw [hdirty]
      exact fun b hb => absurd hb (Finset.notMem_empty b)
    · rw [hflushing]
      exact fun b hb => absurd hb (Finset.notMem_empty b)
  · have hne : (c.inodes ino).flushingCaps ≠ ∅ := fun hempty => by
      rw [hempty, Finset.subset_empty] at hsub
      rw [hsub] at hmeta
      simp at hmeta
    have hin : ino ∈ c.flushingCaps mds := by
      obtain ⟨l₁, l₂, hl, -⟩ := hblocks
      rw [hl]
      simp
    have hstart : c.flushEach ino = .ok (c.flushed ino) := by
      refine flushEach_ok.mpr ⟨fun m bits hm hf => ⟨hauth m bits hm hf, ?_⟩, .inl ⟨hflushes, rfl⟩⟩
      cases (hs.listed mds ino hin).1.symm.trans (hauth m bits hm hf)
      exact hs.session mds ino hin
    have hlosses : ((c.flushed ino).inodes ino).losses = (c.inodes ino).losses := by
      rw [flushed, setInode_self]
      exact (sendCap_caps _ _).2.2.2.2.2.1
    refine ⟨c.flushed ino, some ((c.inodes ino).lastFlushTid + 1), ?_, fun as c' ha hr hret => ?_⟩
    · rw [fsyncStart, if_pos hmeta, hstart]
      show Except.ok (c.flushed ino, some ((c.flushed ino).inodes ino).lastFlushTid) = _
      rw [flushed, setInode_self, Inode.sendCap_eq hne]
    · rcases (waiting_flushed hs hne hblocks).run hs hu ha hr with hl | hw
      · exact .inr (hlosses ▸ hl)
      · have hdone : (c'.inodes ino).flushingCaps = ∅ := by
          by_contra hno
          have hret : c'.waitSyncCaps ((c.inodes ino).lastFlushTid + 1) = true := hret
          rw [(hw.front hno).waitSyncCaps_eq hw.sound] at hret
          cases hret
        have hacked := fun b hb => hw.acked b hb (hdone ▸ Finset.notMem_empty b)
        exact .inl ⟨fun b hb => (hacked b (hsub hb)).1 hb, fun b hb => (hacked b hb).2⟩

/-! ## Acks that end a wait -/

/-- Only acks of last flushes have come on the way from `c` to `d`. -/
structure Acked (c d : Client) : Prop where
  sound : d.Sound
  sentTid : ∀ k, (d.inodes k).sentTid = (c.inodes k).sentTid
  losses : ∀ k, (d.inodes k).losses = (c.inodes k).losses
  flushing : ∀ k, (d.inodes k).flushingCaps ⊆ (c.inodes k).flushingCaps
  acked : ∀ k, ∀ b ∉ (c.inodes k).flushingCaps, (d.inodes k).ackedTid b = (c.inodes k).ackedTid b

theorem Acked.refl (hs : c.Sound) : Acked c c := ⟨hs, fun _ => rfl, fun _ => rfl, fun _ => subset_rfl, fun _ _ _ => rfl⟩

theorem Acked.trans {d e : Client} (h : Acked c d) (h' : Acked d e) : Acked c e where
  sound := h'.sound
  sentTid k := (h'.sentTid k).trans (h.sentTid k)
  losses k := (h'.losses k).trans (h.losses k)
  flushing k := (h'.flushing k).trans (h.flushing k)
  acked k b hb := (h'.acked k b fun hd => hb (h.flushing k hd)).trans (h.acked k b hb)

theorem Acked.acked_le {d : Client} (h : Acked c d) (k : ℕ) (b : Fin 22) :
    (d.inodes k).ackedTid b ≤ (c.inodes k).sentTid b :=
  ((h.sound.tidy k).acked_le b).trans (congrFun (h.sentTid k) b).le

/-- The inodes that `keep` leaves out are off the lists, and no other has changed. -/
structure Cleared (keep : ℕ → Bool) (c d : Client) : Prop extends Acked c d where
  kept : ∀ k, keep k = true → d.inodes k = c.inodes k
  lists : ∀ m, d.flushingCaps m = (c.flushingCaps m).filter keep

def IsAck (a : Action) : Prop := ∃ k m n dirty, a = .flushAck k m n dirty

theorem IsAck.elsewhere (h : IsAck a) : a.Elsewhere ino := by
  obtain ⟨k, m, n, dirty, rfl⟩ := h
  trivial

/-- The ack of one bit of the flush `n`. -/
theorem step_flushAck (hs : c.Sound) {k n : ℕ} {b : Fin 22} (hin : k ∈ c.flushingCaps mds)
    (hsent : ∃ p ∈ (c.inodes k).sent, p.1 = n ∧ b ∈ p.2) :
    c.step (.flushAck k mds n {b}) = some (c.handleCapFlushAck k n {b}) := by
  refine if_pos ⟨Std.ExtTreeMap.contains_iff_mem.mpr (hs.cap k mds (hs.listed mds k hin).1), ?_⟩
  obtain ⟨p, hp, hn, hb⟩ := hsent
  exact ⟨p, hp, hn, Finset.singleton_subset_iff.mpr hb⟩

/-- The ack of a bit that is flushing. -/
theorem acked_bit (hs : c.Sound) {k n : ℕ} {b : Fin 22} (hb : b ∈ (c.inodes k).flushingCaps)
    (hsent : ∃ p ∈ (c.inodes k).sent, p.1 = n ∧ b ∈ p.2)
    (htid : (c.inodes k).flushingCapTid b = BitVec.ofNat 16 n) :
    let d := c.handleCapFlushAck k n {b}
    Acked c d ∧ (∀ l, l ≠ k → d.inodes l = c.inodes l) ∧
      (d.inodes k).flushingCaps = (c.inodes k).flushingCaps.erase b ∧
      (d.inodes k).ackedTid b = max ((c.inodes k).ackedTid b) n ∧
      ((d.inodes k).flushingCaps ≠ ∅ ∧ d.flushingCaps = c.flushingCaps ∨
        ∀ m, d.flushingCaps m = (c.flushingCaps m).filter (· != k)) := by
  intro d
  have hsound : d.Sound := hs.ack <| by
    obtain ⟨p, hp, hn, hb⟩ := hsent
    exact ⟨p, hp, hn, Finset.singleton_subset_iff.mpr hb⟩
  have hcases : d.inodes = (c.setInode k ((c.inodes k).ack n {b})).inodes ∧
      ((d.inodes k).flushingCaps ≠ ∅ ∧ d.flushingCaps = c.flushingCaps ∨
        ∀ m, d.flushingCaps m = (c.flushingCaps m).filter (· != k)) := by
    rcases handleCapFlushAck_cases hs k n {b} with ⟨heq, hne⟩ | ⟨heq, -⟩
    · refine ⟨congrArg inodes heq, ?_⟩
      have hd : d = c.setInode k ((c.inodes k).ack n {b}) := heq
      rw [hd, setInode_self]
      by_cases hempty : ((c.inodes k).ack n {b}).flushingCaps = ∅
      · refine .inr fun m => (List.filter_eq_self.mpr fun l hl => bne_iff_ne.mpr fun hlk => ?_).symm
        exact hne ((isOnList_iff hs).mpr ⟨m, hlk ▸ hl⟩) hempty
      · exact .inl ⟨hempty, rfl⟩
    · have hd : d = (c.removeMyself k).setInode k ((c.inodes k).ack n {b}) := heq
      rw [hd]
      exact ⟨rfl, .inr fun m => rfl⟩
  obtain ⟨hinodes, hlists⟩ := hcases
  have hself : d.inodes k = (c.inodes k).ack n {b} := by rw [hinodes, setInode_self]
  have hother : ∀ l, l ≠ k → d.inodes l = c.inodes l := fun l hl => by rw [hinodes, setInode_of_ne hl]
  have hclean : (c.inodes k).cleaned n {b} = {b} := by
    rw [Inode.cleaned, Finset.filter_singleton, if_pos htid]
  have hflushing : (d.inodes k).flushingCaps = (c.inodes k).flushingCaps.erase b := by
    rw [hself, Inode.ack, hclean, Finset.sdiff_singleton_eq_erase]
  refine ⟨⟨hsound, fun l => ?_, fun l => ?_, fun l => ?_, fun l x hx => ?_⟩, hother, hflushing, ?_, hlists⟩
  · by_cases hl : l = k
    · rw [hl, hself]
      rfl
    · rw [hother l hl]
  · by_cases hl : l = k
    · rw [hl, hself]
      rfl
    · rw [hother l hl]
  · by_cases hl : l = k
    · rw [hl, hflushing]
      exact Finset.erase_subset _ _
    · rw [hother l hl]
  · by_cases hl : l = k
    · subst hl
      rw [hself]
      refine if_neg fun hxb => hx ?_
      rwa [Finset.mem_singleton.mp hxb]
    · rw [hother l hl]
  · rw [hself]
    exact if_pos (Finset.mem_singleton_self b)

/-- One inode can be acknowledged bit by bit. -/
theorem exists_clearOne {k : ℕ} (n : ℕ) (c : Client) (hs : c.Sound) (hin : k ∈ c.flushingCaps mds)
    (hn : (c.inodes k).flushingCaps.card ≤ n) :
    ∃ as d, (∀ a ∈ as, IsAck a) ∧ run Client.step c as = some d ∧ Cleared (· != k) c d := by
  obtain ⟨b, hb⟩ := Finset.nonempty_iff_ne_empty.mpr (hs.listed mds k hin).2
  induction n generalizing c b with
  | zero =>
    rw [Nat.le_zero, Finset.card_eq_zero] at hn
    rw [hn] at hb
    exact absurd hb (Finset.notMem_empty b)
  | succ n ih =>
    obtain ⟨p, hp, htid, hbp⟩ := (hs.tidy k).sent b hb
    have hsent : ∃ q ∈ (c.inodes k).sent, q.1 = (c.inodes k).sentTid b ∧ b ∈ q.2 := ⟨p, hp, htid, hbp⟩
    obtain ⟨hacked, hother, hflushing, -, hlists⟩ := acked_bit hs hb hsent ((hs.tidy k).tid b hb)
    have hstep := step_flushAck hs hin hsent
    have hack : IsAck (.flushAck k mds ((c.inodes k).sentTid b) {b}) := ⟨k, mds, _, _, rfl⟩
    rcases hlists with ⟨hne, hlists⟩ | hlists
    · obtain ⟨b', hb'⟩ := Finset.nonempty_iff_ne_empty.mpr hne
      obtain ⟨as, d, has, hr, hd⟩ := ih _ hacked.sound (by rw [hlists]; exact hin)
        (by rw [hflushing, Finset.card_erase_of_mem hb]; exact Nat.pred_le_iff.mpr hn) b' hb'
      refine ⟨_ :: as, d, ?_, run_cons.mpr ⟨_, hstep, hr⟩, hacked.trans hd.toAcked, fun l hl => ?_, fun m => ?_⟩
      · rintro a (_ | ⟨_, ha⟩)
        · exact hack
        · exact has a ha
      · exact (hd.kept l hl).trans (hother l (bne_iff_ne.mp hl))
      · rw [hd.lists, hlists]
    · refine ⟨[_], _, ?_, run_cons.mpr ⟨_, hstep, rfl⟩, hacked, fun l hl => hother l (bne_iff_ne.mp hl), hlists⟩
      rintro a (_ | ⟨_, ha⟩)
      · exact hack
      · cases ha

/-- Any inodes can be acknowledged, the others left as they are. -/
theorem exists_clearList (hs : c.Sound) (ks : List ℕ) :
    ∃ as d, (∀ a ∈ as, IsAck a) ∧ run Client.step c as = some d ∧ Cleared (fun k => !ks.contains k) c d := by
  induction ks with
  | nil =>
    refine ⟨[], c, ?_, rfl, .refl hs, fun _ _ => rfl, fun m => ?_⟩
    · rintro a ⟨⟩
    · exact (List.filter_eq_self.mpr fun _ _ => rfl).symm
  | cons k ks ih =>
    obtain ⟨as, d, has, hr, hd⟩ := ih
    have hkeep : ∀ l, (!(k :: ks).contains l) = ((l != k) && !ks.contains l) := fun l => by
      rw [List.contains_cons, Bool.not_or]
      rfl
    by_cases hin : ∃ m, k ∈ d.flushingCaps m
    · obtain ⟨m, hin⟩ := hin
      obtain ⟨bs, e, hbs, hr', he⟩ := exists_clearOne _ d hd.sound hin le_rfl
      refine ⟨as ++ bs, e, fun a ha => ?_, run_append.mpr ⟨d, hr, hr'⟩, hd.toAcked.trans he.toAcked, fun l hl => ?_,
        fun m => ?_⟩
      · exact (List.mem_append.mp ha).elim (has a) (hbs a)
      · rw [hkeep, Bool.and_eq_true] at hl
        exact (he.kept l hl.1).trans (hd.kept l hl.2)
      · rw [he.lists, hd.lists, List.filter_filter]
        exact List.filter_congr fun l _ => (hkeep l).symm
    · refine ⟨as, d, has, hr, hd.toAcked, fun l hl => ?_, fun m => ?_⟩
      · rw [hkeep, Bool.and_eq_true] at hl
        exact hd.kept l hl.2
      · rw [hd.lists]
        refine List.filter_congr fun l hl => ?_
        rw [hkeep]
        by_cases hlk : l = k
        · have hno : k ∉ d.flushingCaps m := fun h => hin ⟨m, h⟩
          rw [hd.lists, List.mem_filter] at hno
          rw [hlk]
          cases hks : ks.contains k with
          | false => exact absurd ⟨hlk ▸ hl, by rw [hks]; rfl⟩ hno
          | true => simp
        · rw [bne_iff_ne.mpr hlk, Bool.true_and]

theorem exists_clear (hs : c.Sound) (keep : ℕ → Bool) :
    ∃ as d, (∀ a ∈ as, IsAck a) ∧ run Client.step c as = some d ∧ Cleared keep c d := by
  obtain ⟨as, d, has, hr, hd⟩ := exists_clearList hs ((c.mdsSessions.toList.flatMap c.flushingCaps).filter (!keep ·))
  refine ⟨as, d, has, hr, hd.toAcked, fun k hk => hd.kept k ?_, fun m => ?_⟩
  · rw [Bool.not_eq_true', Bool.eq_false_iff, Ne, List.contains_iff_mem]
    exact fun hin => by simpa [hk] using (List.mem_filter.mp hin).2
  · rw [hd.lists]
    refine List.filter_congr fun k hk => ?_
    have hall : k ∈ c.mdsSessions.toList.flatMap c.flushingCaps :=
      List.mem_flatMap.mpr ⟨m, Finset.mem_toList.mpr (hs.session m k hk), hk⟩
    cases hkeep : keep k with
    | true => simp [hkeep]
    | false => simpa [hkeep] using hall

theorem wait_of_fronts {d : Client} (h : ∀ m, ∀ k ∈ (d.flushingCaps m).head?, want < (d.inodes k).flushingCapSeq) :
    d.waitSyncCaps want = true := by
  rw [waitSyncCaps, decide_eq_true_eq]
  exact fun m _ => h m

theorem Cleared.wait {d : Client} (h : Cleared (fun _ => false) c d) : d.waitSyncCaps want = true :=
  wait_of_fronts fun m k hk => by
    rw [h.lists] at hk
    simp at hk

theorem Inode.SyncedBy.bits {j : Inode} (h : i.SyncedBy j) (hl : j.losses = i.losses) :
    (∀ b ∈ i.dirtyCaps, i.lastFlushTid < j.ackedTid b) ∧ ∀ b ∈ i.flushingCaps, i.sentTid b ≤ j.ackedTid b :=
  h.resolve_right fun hlt => absurd hl (Nat.ne_of_gt hlt)

/-- Without metadata to flush, `_fsync` waits for nothing. -/
theorem clean_of_synced (hs : c.Sound) (h : (c.inodes ino).SyncedBy (c.inodes ino)) :
    (c.inodes ino).dirtyCaps = ∅ ∧ (c.inodes ino).flushingCaps = ∅ := by
  have ht := hs.tidy ino
  obtain ⟨hdirty, hflushing⟩ := h.bits rfl
  refine ⟨Finset.eq_empty_of_forall_notMem fun b hb => ?_, Finset.eq_empty_of_forall_notMem fun b hb => ?_⟩
  · exact absurd (hdirty b hb) (not_lt.mpr ((ht.acked_le b).trans (ht.sent_le b)))
  · exact absurd (hflushing b hb) (not_le.mpr (ht.acked b hb))

theorem Client.Sound.flushed (hs : c.Sound) (ino : ℕ) : (c.flushed ino).Sound := hs.flush ino

/-- What `_fsync` changes: it sends what is flushing. -/
theorem flushed_inode (c : Client) (ino : ℕ) : ((c.flushed ino).inodes ino).flushingCaps = (c.inodes ino).flushingCaps ∧
    ((c.flushed ino).inodes ino).losses = (c.inodes ino).losses ∧
    ((c.flushed ino).inodes ino).ackedTid = (c.inodes ino).ackedTid ∧
    ∀ k, ((c.flushed ino).inodes k).flushingCapSeq = (c.inodes k).flushingCapSeq := by
  obtain ⟨-, -, -, hflushing, hseq, hlosses, hacked⟩ := sendCap_caps (c.inodes ino) (c.inodes ino).flushingCaps
  rw [Client.flushed, setInode_self]
  refine ⟨hflushing, hlosses, hacked, fun k => ?_⟩
  by_cases hk : k = ino
  · rw [hk, setInode_self]
    exact hseq
  · rw [setInode_of_ne hk]

theorem lastFlushTid_flushed (h : (c.inodes ino).flushingCaps ≠ ∅) :
    ((c.flushed ino).inodes ino).lastFlushTid = (c.inodes ino).lastFlushTid + 1 := by
  rw [Client.flushed, setInode_self, Inode.sendCap_eq h]

section Flushed

variable (hs : c.Sound)
  (h : ∀ as d, (∀ a ∈ as, IsAck a) → run Client.step (c.flushed ino) as = some d →
    d.waitSyncCaps ((c.flushed ino).inodes ino).lastFlushTid = true → (c.inodes ino).SyncedBy (d.inodes ino))

include hs

theorem not_dirty_of_acked {d : Client} (h : (c.inodes ino).SyncedBy (d.inodes ino))
    (hl : (d.inodes ino).losses = (c.inodes ino).losses) {b : Fin 22}
    (hb : (d.inodes ino).ackedTid b ≤ (c.inodes ino).sentTid b) : b ∉ (c.inodes ino).dirtyCaps := fun hin =>
  absurd ((h.bits hl).1 b hin) (not_lt.mpr (hb.trans ((hs.tidy ino).sent_le b)))

include h

theorem dirty_subset : (c.inodes ino).dirtyCaps ⊆ (c.inodes ino).flushingCaps := by
  intro b hb
  by_contra hno
  obtain ⟨hflushing, hlosses, hacked, -⟩ := flushed_inode c ino
  obtain ⟨as, d, has, hr, hd⟩ := exists_clear (hs.flushed ino) fun _ => false
  have hack : (d.inodes ino).ackedTid b = (c.inodes ino).ackedTid b := by
    rw [← hacked]
    exact hd.acked ino b (hflushing.symm ▸ hno)
  exact not_dirty_of_acked hs (h as d has hr hd.wait) ((hd.losses ino).trans hlosses)
    (hack ▸ (hs.tidy ino).acked_le b) hb

/-- If the inode did not block the wait, the acks of others would end it. -/
theorem exists_blocks (hne : (c.inodes ino).flushingCaps ≠ ∅) :
    ∃ mds, c.Blocks ino mds ((c.inodes ino).lastFlushTid + 1) := by
  obtain ⟨hflushing, hlosses, hacked, hseq⟩ := flushed_inode c ino
  rw [lastFlushTid_flushed hne] at h
  by_contra hno
  obtain ⟨b, hb⟩ := Finset.nonempty_iff_ne_empty.mpr hne
  -- without `ino` and an inode before it with a greater number, all are acknowledged
  obtain ⟨j, hj⟩ : ∃ j, ∀ m k, ((c.flushingCaps m).filter fun l => l == ino || l == j).head? = some k →
      (c.inodes ino).lastFlushTid + 1 < (c.inodes k).flushingCapSeq := by
    by_cases hon : ∃ mds, ino ∈ c.flushingCaps mds
    · obtain ⟨mds, hin⟩ := hon
      obtain ⟨l₁, l₂, hl⟩ := List.append_of_mem hin
      have hlist := hs.nodup mds
      rw [hl] at hlist
      obtain ⟨j, hj, hlt⟩ : ∃ j ∈ l₁ ++ [ino], (c.inodes ino).lastFlushTid + 1 < (c.inodes j).flushingCapSeq := by
        by_contra hall
        refine hno ⟨mds, l₁, l₂, hl, fun k hk => not_lt.mp fun hlt => hall ⟨k, hk, hlt⟩⟩
      refine ⟨j, fun m k hk => ?_⟩
      have hmem := List.mem_filter.mp (List.mem_of_head? hk)
      by_cases hkj : k = j
      · rwa [hkj]
      · have hkino : k = ino := by simpa [hkj] using hmem.2
        subst hkino
        cases (hs.listed m k hmem.1).1.symm.trans (hs.listed mds k hin).1
        have hj₁ : j ∈ l₁ := (List.mem_append.mp hj).resolve_right fun h => hkj (List.mem_singleton.mp h).symm
        have hj' : j ∈ l₁.filter fun l => l == k || l == j := List.mem_filter.mpr ⟨hj₁, by simp⟩
        rw [hl, List.filter_append, List.head?_append_of_ne_nil _ (List.ne_nil_of_mem hj')] at hk
        have hk₁ := (List.mem_filter.mp (List.mem_of_head? hk)).1
        exact absurd rfl ((List.nodup_append.mp hlist).2.2 k hk₁ k List.mem_cons_self)
    · refine ⟨ino, fun m k hk => ?_⟩
      have hmem := List.mem_filter.mp (List.mem_of_head? hk)
      have hkino : k = ino := by simpa using hmem.2
      exact absurd ⟨m, hkino ▸ hmem.1⟩ hon
  obtain ⟨as, d, has, hr, hd⟩ := exists_clear (hs.flushed ino) fun l => l == ino || l == j
  have hself : d.inodes ino = (c.flushed ino).inodes ino := hd.kept ino (by simp)
  have hwait : d.waitSyncCaps ((c.inodes ino).lastFlushTid + 1) = true := wait_of_fronts fun m k hk => by
    rw [hd.lists] at hk
    rw [hd.kept k (List.mem_filter.mp (List.mem_of_head? hk)).2, hseq]
    exact hj m k hk
  have hlost : (d.inodes ino).losses = (c.inodes ino).losses := (congrArg Inode.losses hself).trans hlosses
  have hle := ((h as d has hr hwait).bits hlost).2 b hb
  rw [hself, hacked] at hle
  exact absurd hle (not_le.mpr ((hs.tidy ino).acked b hb))

/-- An ack that is mistaken for that of the last flush takes the bit from what is waited for. -/
theorem unmistaken (hne : (c.inodes ino).flushingCaps ≠ ∅) (hin : ino ∈ c.flushingCaps mds) :
    (c.inodes ino).Unmistaken := by
  intro p hp b hbp hb htid
  obtain ⟨hflushing, hlosses, hacked, -⟩ := flushed_inode c ino
  have hsent : ∃ q ∈ ((c.flushed ino).inodes ino).sent, q.1 = p.1 ∧ b ∈ q.2 := by
    refine ⟨p, ?_, rfl, hbp⟩
    rw [Client.flushed, setInode_self, Inode.sendCap_eq hne]
    exact List.mem_cons_of_mem _ hp
  have htid₁ : ((c.flushed ino).inodes ino).flushingCapTid b = BitVec.ofNat 16 p.1 := by
    rw [Client.flushed, setInode_self, Inode.sendCap_eq hne, htid]
    exact if_pos hb
  obtain ⟨hacked₁, -, hflushing₁, hmax, -⟩ := acked_bit (hs.flushed ino) (hflushing.symm ▸ hb) hsent htid₁
  obtain ⟨as, d, has, hr, hd⟩ := exists_clear hacked₁.sound fun _ => false
  have hack : (d.inodes ino).ackedTid b = max ((c.inodes ino).ackedTid b) p.1 := by
    rw [← hacked, ← hmax]
    refine hd.acked ino b ?_
    rw [hflushing₁]
    exact Finset.notMem_erase b _
  have hlost : (d.inodes ino).losses = (c.inodes ino).losses :=
    (hd.losses ino).trans ((hacked₁.losses ino).trans hlosses)
  have hsynced : (c.inodes ino).SyncedBy (d.inodes ino) := by
    refine h (.flushAck ino mds p.1 {b} :: as) d (fun a ha => ?_)
      (run_cons.mpr ⟨_, step_flushAck (hs.flushed ino) hin hsent, hr⟩) hd.wait
    rcases List.mem_cons.mp ha with rfl | ha
    · exact ⟨ino, mds, p.1, {b}, rfl⟩
    · exact has a ha
  have hnewest := (hs.tidy ino).newest p hp b hbp
  refine ⟨not_dirty_of_acked hs hsynced hlost (hack ▸ max_le ((hs.tidy ino).acked_le b) hnewest), hnewest.antisymm ?_⟩
  have hle := (hsynced.bits hlost).2 b hb
  rw [hack] at hle
  exact (le_max_iff.mp hle).resolve_left (not_le.mpr ((hs.tidy ino).acked b hb))

end Flushed

theorem synced_of_durable (hs : c.Sound) (h : Durable c ino) : Synced c ino := by
  obtain ⟨c₁, wait, hstart, h⟩ := h
  rcases ite_ok.mp hstart with ⟨hmeta, hstart⟩ | ⟨-, hstart⟩
  · obtain ⟨d, hd, hret⟩ := bind_ok.mp hstart
    cases hret
    obtain ⟨hauth, hcase⟩ := flushEach_ok.mp hd
    have hdirty : (c.inodes ino).dirtyCaps ≠ ∅ := fun hempty => hmeta (by rw [hempty, Finset.empty_sdiff])
    have h : ∀ as e, (∀ a ∈ as, IsAck a) → run Client.step c₁ as = some e →
        e.waitSyncCaps (c₁.inodes ino).lastFlushTid = true → (c.inodes ino).SyncedBy (e.inodes ino) :=
      fun as e has hr hw => h as e (fun a ha => (has a ha).elsewhere) hr hw
    rcases hcase with ⟨hflushes, rfl⟩ | ⟨-, rfl⟩
    · have hsub := dirty_subset hs h
      have hne : (c.inodes ino).flushingCaps ≠ ∅ := fun hempty => hdirty (by rwa [hempty, Finset.subset_empty] at hsub)
      obtain ⟨mds, hblocks⟩ := exists_blocks hs h hne
      have hin : ino ∈ c.flushingCaps mds := by
        obtain ⟨l₁, l₂, hl, -⟩ := hblocks
        rw [hl]
        simp
      exact .inr ⟨hmeta, hsub, fun m bits hm hf => (hauth m bits hm hf).1, hflushes, ⟨mds, hblocks⟩, unmistaken hs h hne hin⟩
    · -- no cap makes it flush, and so no ack is for what is dirty
      obtain ⟨as, e, has, hr, he⟩ := exists_clear hs fun _ => false
      obtain ⟨b, hb⟩ := Finset.nonempty_iff_ne_empty.mpr hdirty
      exact absurd hb (not_dirty_of_acked hs (h as e has hr he.wait) (he.losses ino) (he.acked_le ino b))
  · cases hstart
    exact .inl (clean_of_synced hs (h [] c (fun a ha => by cases ha) rfl rfl))

/-- From any state of a run, `_fsync` makes all durable that was dirty or
flushing if and only if nothing was, or everything dirty was flushing already,
only the auth cap makes it flush, the inode blocks the wait, and no earlier
flush is mistaken for the last. -/
theorem fsync_durable_iff {as : List Action} (hr : run Client.step .initial as = some c) (ino : ℕ) :
    Durable c ino ↔ Synced c ino :=
  ⟨synced_of_durable (sound_of_run hr), durable_of_synced (sound_of_run hr)⟩

/-- One flush of bit 3 is under way, and the bit is dirty again. -/
theorem fsync_durable_oneFlush : ∃ c, run Client.step .initial (oneFlush ++ [.markCapsDirty 5 {3}]) = some c ∧
    (Durable c 5 ↔ Synced c 5) := by
  obtain ⟨c, hc⟩ := Option.isSome_iff_exists.mp
    (by decide +kernel : (run Client.step .initial (oneFlush ++ [.markCapsDirty 5 {3}])).isSome = true)
  exact ⟨c, hc, fsync_durable_iff hc 5⟩

/-- Bit 3 is dirty: nothing is sent, and nothing is waited for. -/
theorem not_fsync_durable : ∃ c, run Client.step .initial
    [.openSession 0, .addUpdateCap 5 0 {3} true true, .markCapsDirty 5 {3}] = some c ∧ ¬ Durable c 5 := by
  have hrun : (run Client.step .initial [.openSession 0, .addUpdateCap 5 0 {3} true true, .markCapsDirty 5 {3}]).map
      (fun c => ((c.inodes 5).dirtyCaps, (c.inodes 5).flushingCaps)) = some ({3}, ∅) := by decide +kernel
  obtain ⟨c, hc, heq⟩ := Option.map_eq_some_iff.mp hrun
  obtain ⟨hdirty, hflushing⟩ := Prod.mk.inj heq
  refine ⟨c, hc, fun h => ?_⟩
  rcases synced_of_durable (sound_of_run hc) h with ⟨hempty, -⟩ | ⟨-, hsub, -⟩
  · rw [hdirty] at hempty
    exact absurd hempty (Finset.singleton_ne_empty 3)
  · rw [hdirty, hflushing] at hsub
    exact absurd (hsub (Finset.mem_singleton_self 3)) (Finset.notMem_empty 3)

end CephMds.SyncCaps
