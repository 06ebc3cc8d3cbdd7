import CephMds.Model.CapFlush

/-!
# The flushing of caps

An inode whose caps are being flushed is on the list of the session of its auth
cap, and the tid of a bit is that of its latest flush (`Good`). Each function
`Keeps` this, and takes no bit from `flushing_caps`, but for an ack and the loss of
the auth session. There is one exception: an inode that has lost its auth cap while
it was flushing comes on no list when it gets a new one.
-/

namespace CephMds.Caps

open Checked Writes

variable {inode inode' : Inode} {l l' l'' : Local} {env : Env} {mds : ℕ} {g g' : Grant} {m : Msg} {ex flush : Mask}

/-! ## Invariant -/

/-- The flush of a bit in a message. -/
def Sent.flushOf (i : Fin 22) : Sent → Option ℕ
  | .caps _ tid _ flush => if i ∈ flush then some tid else none
  | .flushsnap .. => none

/-- The latest flush of a bit. -/
def Inode.latest (inode : Inode) (i : Fin 22) : Option ℕ := inode.sent.findSome? (Sent.flushOf i)

/-- The bookkeeping of an inode, but for the tids of the bits `ex`. -/
structure Inode.Good (ex : Mask) (inode : Inode) : Prop where
  item : ∀ mds, inode.flushingItem = some mds → inode.authCap = some mds ∧ inode.flushingCaps ≠ ∅
  listed : inode.flushingCaps ≠ ∅ → ∀ mds, inode.authCap = some mds → inode.flushingItem = some mds
  refs : inode.dirtyRefs = if inode.capsDirty = ∅ then 0 else 1
  tids : ∀ i ∈ inode.flushingCaps, i ∉ ex → ∃ n, inode.latest i = some n ∧ inode.flushingCapTid i = BitVec.ofNat 16 n
  bound : ∀ msg ∈ inode.sent, ∀ i n, msg.flushOf i = some n → n ≤ inode.lastFlushTid
  last : ∀ i n, inode.latest i = some n → ∀ msg ∈ inode.sent, ∀ n', msg.flushOf i = some n' → n' ≤ n

/-- What the bookkeeping is about. -/
def Inode.view (inode : Inode) :=
  (inode.authCap, inode.flushingItem, inode.dirtyCaps, inode.flushingCaps, inode.flushingCapTid, inode.lastFlushTid,
    inode.dirtyRefs, inode.sent)

theorem Inode.Good.congr (h : inode.Good ex) (hv : inode'.view = inode.view) : inode'.Good ex := by
  simp only [Inode.view, Prod.mk.injEq] at hv
  obtain ⟨h₁, h₂, h₃, h₄, h₅, h₆, h₇, h₈⟩ := hv
  have hl : ∀ i, inode'.latest i = inode.latest i := fun i => by rw [Inode.latest, Inode.latest, h₈]
  have hd : inode'.capsDirty = inode.capsDirty := by rw [Inode.capsDirty, Inode.capsDirty, h₃, h₄]
  refine ⟨fun r => ?_, fun hf r => ?_, ?_, fun i hi hx => ?_, fun msg hm i n => ?_, fun i n hn msg hm n' => ?_⟩
  · rw [h₁, h₂, h₄]
    exact h.item r
  · rw [h₁, h₂]
    exact h.listed (h₄ ▸ hf) r
  · rw [h₇, hd]
    exact h.refs
  · rw [hl, h₅]
    exact h.tids i (h₄ ▸ hi) hx
  · rw [h₆]
    exact h.bound msg (h₈ ▸ hm) i n
  · rw [hl] at hn
    exact h.last i n hn msg (h₈ ▸ hm) n'

/-- A change of the inode that keeps the bookkeeping. -/
def Inode.Kept (inode inode' : Inode) : Prop :=
  (∀ ex, inode.Good ex → inode'.Good ex) ∧ inode'.flushingCaps = inode.flushingCaps

theorem Inode.Kept.refl (inode : Inode) : inode.Kept inode := ⟨fun _ h => h, rfl⟩

theorem Inode.Kept.trans {inode'' : Inode} (h : inode.Kept inode') (h' : inode'.Kept inode'') : inode.Kept inode'' :=
  ⟨fun ex hg => h'.1 ex (h.1 ex hg), h'.2.trans h.2⟩

theorem Inode.Kept.of_view (hv : inode'.view = inode.view) : inode.Kept inode' := by
  refine ⟨fun ex h => h.congr hv, ?_⟩
  simp only [Inode.view, Prod.mk.injEq] at hv
  exact hv.2.2.2.1

/-- The other inodes that are flushing. -/
def Local.others (l : Local) : ℤ := l.numFlushingCaps - if l.inode.flushingCaps = ∅ then 0 else 1

/-- A function, called where `ok` holds, keeps the bookkeeping. -/
def Local.Keeps (ok : Prop) (l l' : Local) : Prop :=
  (ok → l.inode.Good ∅ → l'.inode.Good ∅) ∧ l'.others = l.others ∧ l.inode.flushingCaps ⊆ l'.inode.flushingCaps

theorem Local.Keeps.refl (l : Local) : l.Keeps True l := ⟨fun _ h => h, rfl, Finset.Subset.refl _⟩

theorem Local.Keeps.trans {ok : Prop} (h : l.Keeps ok l') (h' : l'.Keeps True l'') : l.Keeps ok l'' :=
  ⟨fun hok hg => h'.1 trivial (h.1 hok hg), h'.2.1.trans h.2.1, h.2.2.trans h'.2.2⟩

theorem Local.Keeps.mono {ok ok' : Prop} (h : l.Keeps ok l') (hok : ok' → ok) : l.Keeps ok' l' :=
  ⟨fun h' => h.1 (hok h'), h.2⟩

theorem Inode.Kept.keeps (h : l.inode.Kept inode') : l.Keeps True { l with inode := inode' } := by
  refine ⟨fun _ => h.1 ∅, ?_, ?_⟩
  · simp only [Local.others, h.2]
  · simp only [h.2]
    exact Finset.Subset.refl _

theorem keeps_view (hv : l'.inode.view = l.inode.view) (hn : l'.numFlushingCaps = l.numFlushingCaps) :
    l.Keeps True l' := by
  have hk : l.inode.Kept l'.inode := .of_view hv
  have hkeeps : l.Keeps True { l with inode := l'.inode } := hk.keeps
  rwa [← hn] at hkeeps

/-! ## Messages -/

theorem latest_cons {msg : Sent} (hs : inode'.sent = msg :: inode.sent) (i : Fin 22) :
    inode'.latest i = (msg.flushOf i).or (inode.latest i) := by
  rw [Inode.latest, hs, List.findSome?_cons]
  cases h : msg.flushOf i with
  | none => rfl
  | some n => rfl

theorem flushSnap_kept (allAgain : Bool) (again : Option ℕ) (mds follows : ℕ) (inode : Inode) :
    inode.Kept (inode.flushSnap allAgain again mds follows) := by
  unfold Inode.flushSnap
  split
  · exact .refl inode
  split
  · exact .refl inode
  refine ⟨fun ex h => ?_, rfl⟩
  refine ⟨h.item, h.listed, h.refs, h.tids, fun msg hm i n hn => ?_, fun i n hn msg hm n' hn' => ?_⟩
  · rcases List.mem_cons.mp hm with rfl | hm
    · cases hn
    · exact Nat.le_succ_of_le (h.bound msg hm i n hn)
  · rcases List.mem_cons.mp hm with rfl | hm
    · cases hn'
    · exact h.last i n hn msg hm n' hn'

theorem foldl_flushSnap_kept (allAgain : Bool) (again : Option ℕ) (mds : ℕ) (keys : List ℕ) (inode : Inode) :
    inode.Kept (keys.foldl (Inode.flushSnap allAgain again mds) inode) := by
  induction keys generalizing inode with
  | nil => exact .refl inode
  | cons k keys ih => exact (flushSnap_kept allAgain again mds k inode).trans (ih _)

theorem flushSnaps_kept {allAgain : Bool} {again : Option ℕ} (h : inode.flushSnaps allAgain again = .ok inode') :
    inode.Kept inode' := by
  rw [Inode.flushSnaps] at h
  obtain ⟨-, -, h⟩ := bind_ok.mp h
  obtain ⟨-, -, h⟩ := bind_ok.mp h
  obtain ⟨mds, -, h⟩ := bind_ok.mp h
  cases h
  exact foldl_flushSnap_kept allAgain again mds _ inode

/-- A message without a flush. -/
theorem Inode.Good.send {used : Mask} (hg : inode.Good ex)
    (hv : inode'.view = { inode with sent := .caps mds 0 used ∅ :: inode.sent }.view) : inode'.Good ex := by
  have hlatest : ∀ i, Inode.latest { inode with sent := .caps mds 0 used ∅ :: inode.sent } i = inode.latest i := by
    intro i
    rw [latest_cons rfl]
    rfl
  have hg' : Inode.Good ex { inode with sent := .caps mds 0 used ∅ :: inode.sent } := by
    refine ⟨hg.item, hg.listed, hg.refs, fun i hi hx => ?_, fun msg hm i n hn => ?_, fun i n hn msg hm n' hn' => ?_⟩
    · obtain ⟨n, hn, ht⟩ := hg.tids i hi hx
      exact ⟨n, (hlatest i).trans hn, ht⟩
    · rcases List.mem_cons.mp hm with rfl | hm
      · simp [Sent.flushOf] at hn
      · exact hg.bound msg hm i n hn
    · rcases List.mem_cons.mp hm with rfl | hm
      · simp [Sent.flushOf] at hn'
      · exact hg.last i n ((hlatest i).symm.trans hn) msg hm n' hn'
  exact hg'.congr hv

/-- A message with a flush: the tids of its bits are the new one. -/
theorem Inode.Good.sendFlush (used : Mask) (mds : ℕ) (hg : inode.Good ex) :
    Inode.Good (ex \ flush) { inode with
      lastFlushTid := inode.lastFlushTid + 1
      flushingCapTid := fun i => if i ∈ flush then BitVec.ofNat 16 (inode.lastFlushTid + 1) else inode.flushingCapTid i
      sent := .caps mds (inode.lastFlushTid + 1) used flush :: inode.sent } := by
  have hlatest : ∀ i, Inode.latest { inode with
      lastFlushTid := inode.lastFlushTid + 1
      flushingCapTid := fun i => if i ∈ flush then BitVec.ofNat 16 (inode.lastFlushTid + 1) else inode.flushingCapTid i
      sent := .caps mds (inode.lastFlushTid + 1) used flush :: inode.sent } i =
      (if i ∈ flush then some (inode.lastFlushTid + 1) else none).or (inode.latest i) := by
    intro i
    rw [latest_cons rfl]
    rfl
  refine ⟨hg.item, hg.listed, hg.refs, fun i hi hx => ?_, fun msg hm i n hn => ?_, fun i n hn msg hm n' hn' => ?_⟩
  · by_cases hif : i ∈ flush
    · refine ⟨inode.lastFlushTid + 1, (hlatest i).trans ?_, if_pos hif⟩
      rw [if_pos hif, Option.some_or]
    · obtain ⟨n, hn, ht⟩ := hg.tids i hi fun h => hx (Finset.mem_sdiff.mpr ⟨h, hif⟩)
      refine ⟨n, (hlatest i).trans ?_, (if_neg hif).trans ht⟩
      rw [if_neg hif, Option.none_or, hn]
  · rcases List.mem_cons.mp hm with rfl | hm
    · simp only [Sent.flushOf] at hn
      split at hn
      · cases hn
        exact le_rfl
      · cases hn
    · exact Nat.le_succ_of_le (hg.bound msg hm i n hn)
  · have hn := (hlatest i).symm.trans hn
    rcases List.mem_cons.mp hm with rfl | hm
    · simp only [Sent.flushOf] at hn'
      rw [hn'] at hn
      cases hn
      exact le_rfl
    · rcases Option.or_eq_some_iff.mp hn with hn | ⟨-, hn⟩
      · split at hn
        · cases hn
          exact Nat.le_succ_of_le (hg.bound msg hm i n' hn')
        · cases hn
      · exact hg.last i n hn msg hm n' hn'

theorem sendCap_good {used want retain : Mask} (hg : inode.Good ex)
    (h : inode.sendCap mds used want retain flush = .ok inode') : inode'.Good (ex \ flush) := by
  rw [Inode.sendCap] at h
  obtain ⟨cap, -, h⟩ := bind_ok.mp h
  cases h
  by_cases hf : flush = ∅
  · subst hf
    rw [Finset.sdiff_empty]
    exact hg.send rfl
  · refine (hg.sendFlush (cap.implemented ∩ (cap.issued ∩ (retain \ (cap.implemented \ cap.issued)) ∪ used)) mds).congr ?_
    simp only [Inode.view, if_neg hf]

theorem sendCap_kept {used want retain : Mask} (h : inode.sendCap mds used want retain flush = .ok inode') :
    inode.Kept inode' := by
  constructor
  · intro ex hg
    have hg' := sendCap_good hg h
    exact ⟨hg'.item, hg'.listed, hg'.refs, fun i hi hx => hg'.tids i hi fun h => hx (Finset.mem_sdiff.mp h).1,
      hg'.bound, hg'.last⟩
  · rw [Inode.sendCap] at h
    obtain ⟨cap, -, h⟩ := bind_ok.mp h
    cases h
    rfl

theorem flushCaps_kept (h : inode.flushCaps env mds = .ok inode') : inode.Kept inode' := by
  rw [Inode.flushCaps] at h
  obtain ⟨-, -, h⟩ := bind_ok.mp h
  obtain ⟨cap, -, h⟩ := bind_ok.mp h
  exact sendCap_kept h

theorem removeCap_kept (h : inode.removeCap mds = .ok inode') : inode.Kept inode' := by
  rw [Inode.removeCap] at h
  obtain ⟨-, -, h⟩ := bind_ok.mp h
  split at h
  · cases h
    refine ⟨fun ex hg => ⟨fun r hr => ?_, fun _ r hr => ?_, hg.refs, hg.tids, hg.bound, hg.last⟩, rfl⟩
    · cases hr
    · cases hr
  · cases h
    exact .of_view rfl

/-! ## Checks -/

theorem ne_empty_of_subset {s t : Mask} (h : s ⊆ t) (hs : s ≠ ∅) : t ≠ ∅ := by
  rintro rfl
  exact hs (Finset.subset_empty.mp h)

/-- The dirty caps are flushing, though without a tid so far. -/
theorem markCapsFlushing_good (hg : l.inode.Good ∅) (h : l.markCapsFlushing = .ok l') :
    l'.inode.Good l.inode.dirtyCaps := by
  rw [Local.markCapsFlushing] at h
  obtain ⟨mds, hmds, h⟩ := bind_ok.mp h
  obtain ⟨_, hd, h⟩ := bind_ok.mp h
  rw [assert_ok, decide_eq_true_eq] at hd
  rw [deref_ok] at hmds
  cases h
  have hne : l.inode.flushingCaps ∪ l.inode.dirtyCaps ≠ ∅ := ne_empty_of_subset Finset.subset_union_right hd
  refine ⟨fun r hr => ?_, fun _ r hr => ?_, ?_, fun i hi hx => ?_, hg.bound, hg.last⟩
  · cases hr
    exact ⟨hmds, hne⟩
  · rw [← hr]
    exact hmds.symm
  · have hdirty : l.inode.capsDirty ≠ ∅ := ne_empty_of_subset Finset.subset_union_left hd
    rw [hg.refs, if_neg hdirty, Inode.capsDirty, Finset.empty_union, if_neg hne]
  · exact hg.tids i ((Finset.mem_union.mp hi).resolve_right hx) (Finset.notMem_empty i)

theorem markCapsFlushing_others (h : l.markCapsFlushing = .ok l') :
    l'.others = l.others ∧ l.inode.flushingCaps ⊆ l'.inode.flushingCaps := by
  rw [Local.markCapsFlushing] at h
  obtain ⟨mds, -, h⟩ := bind_ok.mp h
  obtain ⟨_, hd, h⟩ := bind_ok.mp h
  rw [assert_ok, decide_eq_true_eq] at hd
  cases h
  have hne : l.inode.flushingCaps ∪ l.inode.dirtyCaps ≠ ∅ := ne_empty_of_subset Finset.subset_union_right hd
  refine ⟨?_, Finset.subset_union_left⟩
  simp only [Local.others, if_neg hne]
  split
  · omega
  · rfl

theorem checkCap_keeps {used retain : Mask} {hold : Bool} (h : l.checkCap env used retain hold mds = .ok l') :
    l.Keeps True l' := by
  rw [Local.checkCap] at h
  obtain ⟨cap, -, h⟩ := bind_ok.mp h
  split at h
  · split at h
    · obtain ⟨l₁, h₁, h⟩ := bind_ok.mp h
      obtain ⟨inode₂, h₂, h⟩ := bind_ok.mp h
      cases h
      obtain ⟨hothers, hsub⟩ := markCapsFlushing_others h₁
      have hk := (sendCap_kept h₂).keeps
      refine ⟨fun _ hg => ?_, hk.2.1.trans hothers, hsub.trans hk.2.2⟩
      have hg₂ := sendCap_good (markCapsFlushing_good hg h₁) h₂
      rwa [Finset.sdiff_self] at hg₂
    · obtain ⟨inode₂, h₂, h⟩ := bind_ok.mp h
      cases h
      exact (sendCap_kept h₂).keeps
  · cases h
    exact .refl l

theorem foldlM_checkCap_keeps {used retain : Mask} {hold : Bool} {keys : List ℕ}
    (h : keys.foldlM (Local.checkCap env used retain hold) l = .ok l') : l.Keeps True l' := by
  refine foldlM_invariant (P := fun l' => l.Keeps True l') (fun l₁ r l₂ _ h₁ h₂ => ?_) (.refl l) h
  exact h₁.trans (checkCap_keeps h₂)

theorem checkCaps_keeps {isDelayed : Bool} (h : l.checkCaps env isDelayed = .ok l') : l.Keeps True l' := by
  rw [Local.checkCaps] at h
  split at h
  · cases h
    exact .refl l
  · split at h
    · exact foldlM_checkCap_keeps h
    · obtain ⟨inode₁, h₁, h⟩ := bind_ok.mp h
      exact (flushSnaps_kept h₁).keeps.trans (foldlM_checkCap_keeps h)

/-! ## Grants -/

theorem merge_auth (h : inode.merge mds g = .ok g') : g'.auth = true → g.auth = true ∨ inode.authCap = some mds := by
  rw [Inode.merge] at h
  split at h
  · cases h
    exact .inl
  · split at h
    · obtain ⟨_, hauth, h⟩ := bind_ok.mp h
      rw [assert_ok, beq_iff_eq] at hauth
      exact fun _ => .inr hauth
    · cases h
      exact .inl

theorem view_checkCapIssue (inode : Inode) (issued : Mask) : (inode.checkCapIssue issued).view = inode.view := by
  unfold Inode.checkCapIssue
  dsimp only
  split <;> split <;> rfl

/-- A new auth cap takes the list item along, if there was an auth cap before. -/
theorem setAuth_kept {ex : Mask} (mds : ℕ) (hg : inode.Good ex)
    (hok : inode.authCap = none → g.auth = true → inode.flushingCaps = ∅) :
    (inode.setAuth mds g).Good ex := by
  unfold Inode.setAuth
  split
  · rename_i hc
    refine ⟨fun r hr => ?_, fun hf r hr => ?_, hg.refs, hg.tids, hg.bound, hg.last⟩
    · dsimp only at hr
      split at hr
      · rename_i hitem
        obtain ⟨r', hr'⟩ := Option.isSome_iff_exists.mp hitem.2
        cases hr
        exact ⟨rfl, (hg.item r' hr').2⟩
      · rename_i hitem
        obtain ⟨hauth, hne⟩ := hg.item r hr
        refine absurd ⟨?_, ?_⟩ hitem
        · rw [hauth]
          rfl
        · rw [hr]
          rfl
    · cases hr
      rcases Option.eq_none_or_eq_some inode.authCap with hnone | ⟨r', hr'⟩
      · exact absurd (hok hnone hc.1) hf
      · have hitem := hg.listed hf r' hr'
        simp only [hr', hitem, Option.isSome_some, and_self, if_true]
  · exact hg

theorem setAuth_flushing (inode : Inode) (mds : ℕ) (g : Grant) :
    (inode.setAuth mds g).flushingCaps = inode.flushingCaps := by
  unfold Inode.setAuth
  split <;> rfl

theorem addUpdateCap_keeps (h : l.addUpdateCap env mds g = .ok l') :
    l.Keeps (l.inode.authCap = none → g.auth = true → l.inode.flushingCaps = ∅) l' := by
  rw [Local.addUpdateCap] at h
  obtain ⟨g', hmerge, h⟩ := bind_ok.mp h
  dsimp only at h
  have hview := view_checkCapIssue l.inode g'.issued
  have hk : l.Keeps (l.inode.authCap = none → g.auth = true → l.inode.flushingCaps = ∅)
      { l with inode := ((l.inode.checkCapIssue g'.issued).setAuth mds g').takeGrant mds g' } := by
    have hkept : l.inode.Kept (l.inode.checkCapIssue g'.issued) := .of_view hview
    simp only [Inode.view, Prod.mk.injEq] at hview
    refine ⟨fun hok hg => ?_, ?_, ?_⟩
    · refine (setAuth_kept mds (hkept.1 ∅ hg) fun hnone hauth => ?_).congr rfl
      rw [hkept.2]
      rw [hview.1] at hnone
      refine hok hnone ((merge_auth hmerge hauth).resolve_right ?_)
      rw [hnone]
      simp
    · show _ - (if (Inode.setAuth _ mds g').flushingCaps = ∅ then (0 : ℤ) else 1) = _
      rw [setAuth_flushing, hkept.2]
      rfl
    · show _ ⊆ (Inode.setAuth _ mds g').flushingCaps
      rw [setAuth_flushing, hkept.2]
  split at h
  · exact hk.trans (checkCaps_keeps h)
  · cases h
    exact hk

/-- The caps are taken, and then checked or not. -/
theorem keeps_of_check {check : Prop} [Decidable check] (h : (if check then l.checkCaps env false else pure l) = .ok l') :
    l.Keeps True l' := by
  split at h
  · exact checkCaps_keeps h
  · cases h
    exact .refl l

theorem release_keeps (h : l.release env = .ok l') : l.Keeps True l' := by
  rw [Local.release] at h
  split at h
  · refine Local.Keeps.trans ?_ (keeps_of_check h)
    exact keeps_view rfl rfl
  · cases h
    exact .refl l

theorem handleCapGrant_keeps {isImport : Bool} (h : l.handleCapGrant env mds isImport m = .ok l') : l.Keeps True l' := by
  rw [Local.handleCapGrant] at h
  obtain ⟨cap, -, h⟩ := bind_ok.mp h
  have hv := view_checkCapIssue l.inode (l.inode.capsIssued ∪ l.inode.capsDirty ∪ l.inode.capsImplemented)
  dsimp only at h
  split at h
  · split at h
    · refine Local.Keeps.trans ?_ (keeps_of_check h)
      exact keeps_view hv rfl
    · split at h
      · obtain ⟨l₁, h₁, h⟩ := bind_ok.mp h
        refine Local.Keeps.trans (Local.Keeps.trans ?_ (release_keeps h₁)) (keeps_of_check h)
        exact keeps_view hv rfl
      · refine Local.Keeps.trans ?_ (checkCaps_keeps h)
        exact keeps_view hv rfl
  · split at h
    · refine Local.Keeps.trans ?_ (keeps_of_check h)
      exact keeps_view hv rfl
    · refine Local.Keeps.trans ?_ (keeps_of_check h)
      exact keeps_view hv rfl

/-! ## Migration -/

theorem importCap_keeps (h : l.importCap env mds m = .ok l') :
    l.Keeps (l.inode.authCap = none → l.inode.flushingCaps = ∅) l' := by
  rw [Local.importCap] at h
  obtain ⟨l₁, h₁, h⟩ := bind_ok.mp h
  have hk : l.Keeps (l.inode.authCap = none → l.inode.flushingCaps = ∅) l₁ :=
    (addUpdateCap_keeps h₁).mono fun hok hnone _ => hok hnone
  dsimp only at h
  split at h
  · obtain ⟨inode₂, h₂, h⟩ := bind_ok.mp h
    cases h
    exact hk.trans (removeCap_kept h₂).keeps
  · cases h
    exact hk

theorem reflush_keeps (h : l.reflush env mds = .ok l') : l.Keeps True l' := by
  rw [Local.reflush] at h
  split at h
  · obtain ⟨inode₁, h₁, h⟩ := bind_ok.mp h
    obtain ⟨inode₂, h₂, h⟩ := bind_ok.mp h
    cases h
    have hk₁ : l.inode.Kept inode₁ := by
      rw [Inode.reflushSnaps] at h₁
      split at h₁
      · cases h₁
        exact .refl _
      · exact flushSnaps_kept h₁
    have hk₂ : inode₁.Kept inode₂ := by
      rw [Inode.reflushCaps] at h₂
      split at h₂
      · cases h₂
        exact .refl _
      · exact flushCaps_kept h₂
    exact (hk₁.trans hk₂).keeps
  · cases h
    exact .refl l

theorem handleCapImport_keeps (h : l.handleCapImport env mds m = .ok l') :
    l.Keeps (l.inode.authCap = none → l.inode.flushingCaps = ∅) l' := by
  rw [Local.handleCapImport] at h
  obtain ⟨l₁, h₁, h⟩ := bind_ok.mp h
  obtain ⟨l₂, h₂, h⟩ := bind_ok.mp h
  have hk := (importCap_keeps h₁).trans (reflush_keeps h₂)
  split at h
  · exact hk.trans (handleCapGrant_keeps h)
  · cases h
    exact hk

/-- The list item goes with the auth cap. -/
theorem updatePeer_keeps (l : Local) (mds : ℕ) (cap tcap : Cap) (peer : Peer) :
    l.Keeps True (l.updatePeer mds cap tcap peer) := by
  unfold Local.updatePeer
  split
  · refine Inode.Kept.keeps ⟨fun ex hg => ?_, rfl⟩
    by_cases hm : l.inode.authCap = some mds
    · simp only [if_pos hm, true_and]
      refine ⟨fun r hr => ?_, fun hf r hr => ?_, hg.refs, hg.tids, hg.bound, hg.last⟩
      · dsimp only at hr
        split at hr
        · rename_i hitem
          obtain ⟨r', hr'⟩ := Option.isSome_iff_exists.mp hitem
          exact ⟨hr, (hg.item r' hr').2⟩
        · rename_i hitem
          rw [hr] at hitem
          exact absurd rfl hitem
      · have hitem := hg.listed hf mds hm
        dsimp only at hr ⊢
        rw [hitem]
        exact hr
    · simp only [if_neg hm]
      refine ⟨fun r hr => ?_, fun hf r hr => ?_, hg.refs, hg.tids, hg.bound, hg.last⟩
      · dsimp only at hr
        split at hr
        · rename_i hitem
          obtain ⟨r', hr'⟩ := Option.isSome_iff_exists.mp hitem.2
          rw [← hr]
          exact ⟨hitem.1, (hg.item r' hr').2⟩
        · exact hg.item r hr
      · have hitem := hg.listed hf r hr
        dsimp only at hr ⊢
        split
        · rename_i hc
          rw [← hr]
          exact hc.1.symm
        · exact hitem
  · exact .refl l

theorem exportTo_keeps {cap : Cap} {peer : Peer} (h : l.exportTo env mds cap peer = .ok l') : l.Keeps True l' := by
  rw [Local.exportTo] at h
  split at h
  · cases h
    exact .refl l
  · split at h
    · cases h
      exact updatePeer_keeps l mds cap _ peer
    · refine (addUpdateCap_keeps h).mono fun _ hnone hauth => ?_
      rw [hnone] at hauth
      cases hauth

theorem handleCapExport_keeps (h : l.handleCapExport env mds m = .ok l') : l.Keeps True l' := by
  rw [Local.handleCapExport] at h
  split at h
  · cases h
    exact .refl l
  · split at h
    · cases h
      exact .refl l
    · obtain ⟨l₁, h₁, h⟩ := bind_ok.mp h
      obtain ⟨inode₂, h₂, h⟩ := bind_ok.mp h
      cases h
      exact (exportTo_keeps h₁).trans (removeCap_kept h₂).keeps

/-! ## Acks and sessions -/

theorem handleCapFlushAck_good {tid : BitVec 16} {dirty : Mask} (hg : l.inode.Good ∅) :
    (l.handleCapFlushAck tid dirty).inode.Good ∅ ∧ (l.handleCapFlushAck tid dirty).others = l.others := by
  unfold Local.handleCapFlushAck
  dsimp only
  split
  · exact ⟨hg, rfl⟩
  rename_i hc
  rw [not_or] at hc
  generalize hfl : l.inode.flushingCaps \ (dirty.filter fun i => tid = l.inode.flushingCapTid i) = flushing
  have hsub : flushing ⊆ l.inode.flushingCaps := hfl ▸ Finset.sdiff_subset
  refine ⟨⟨fun r hr => ?_, fun hf r hr => ?_, ?_, fun i hi => hg.tids i (hsub hi), hg.bound, hg.last⟩, ?_⟩
  · dsimp only at hr
    split at hr
    · cases hr
    · rename_i hne
      exact ⟨(hg.item r hr).1, hne⟩
  · dsimp only at hf ⊢
    rw [if_neg hf]
    exact hg.listed hc.2 r hr
  · have hdirty : l.inode.capsDirty ≠ ∅ := ne_empty_of_subset Finset.subset_union_right hc.2
    show (if l.inode.dirtyCaps ∪ flushing = ∅ then l.inode.dirtyRefs - 1 else l.inode.dirtyRefs) =
      if l.inode.dirtyCaps ∪ flushing = ∅ then 0 else 1
    rw [hg.refs, if_neg hdirty]
    by_cases hd : l.inode.dirtyCaps ∪ flushing = ∅
    · rw [if_pos hd, if_pos hd, sub_self]
    · rw [if_neg hd, if_neg hd]
  · simp only [Local.others, if_neg hc.2]
    split <;> omega

theorem exists_of_latest {i : Fin 22} {n : ℕ} (h : inode.latest i = some n) :
    ∃ msg ∈ inode.sent, msg.flushOf i = some n := List.exists_of_findSome?_eq_some h

/-- The ack of a flush cleans the bits whose latest flush it was. -/
theorem latest_of_ack {n : ℕ} {dirty : Mask} {i : Fin 22} (hg : l.inode.Good ∅) (hf : l.inode.flushed n dirty = true)
    (hi : i ∈ l.inode.flushingCaps) (hi' : i ∉ (l.handleCapFlushAck (BitVec.ofNat 16 n) dirty).inode.flushingCaps) :
    l.inode.latest i = some n := by
  obtain ⟨t, ht, htid⟩ := hg.tids i hi (Finset.notMem_empty i)
  have hcleaned : i ∈ dirty ∧ BitVec.ofNat 16 n = l.inode.flushingCapTid i := by
    by_contra hc
    apply hi'
    unfold Local.handleCapFlushAck
    dsimp only
    split
    · exact hi
    · refine Finset.mem_sdiff.mpr ⟨hi, fun hmem => hc ?_⟩
      rwa [Finset.mem_filter] at hmem
  simp only [Inode.flushed, Bool.and_eq_true, decide_eq_true_eq, List.any_eq_true] at hf
  obtain ⟨hwin, msg, hmsg, hm⟩ := hf
  have hn : msg.flushOf i = some n := by
    cases msg with
    | flushsnap => cases hm
    | caps r tid impl flush =>
      simp only [Bool.and_eq_true, beq_iff_eq, decide_eq_true_eq] at hm
      rw [Sent.flushOf, if_pos (hm.2 hcleaned.1), hm.1.1]
  have hle := hg.last i t ht msg hmsg n hn
  obtain ⟨msg', hmsg', ht'⟩ := exists_of_latest ht
  have hbound := hg.bound msg' hmsg' i t ht'
  have heq : n % 65536 = t % 65536 := by
    have := congrArg BitVec.toNat (hcleaned.2.trans htid)
    simpa using this
  rw [ht]
  congr 1
  omega

theorem kickFlushingCaps_keeps (h : l.kickFlushingCaps env mds = .ok l') : l.Keeps True l' := by
  rw [Local.kickFlushingCaps] at h
  split at h
  · obtain ⟨inode₁, h₁, h⟩ := bind_ok.mp h
    cases h
    exact (flushCaps_kept h₁).keeps
  · cases h
    exact .refl l

theorem removeSessionCaps_spec (h : l.removeSessionCaps mds = .ok l') :
    (l.inode.Good ∅ → l'.inode.Good ∅) ∧ l'.others = l.others ∧
      (l.inode.flushingCaps ⊆ l'.inode.flushingCaps ∨ l.inode.authCap = some mds) ∧
      (l'.inode.authCap = some mds → l.inode.authCap = some mds) := by
  -- A cap is removed, and nothing else.
  have hremove : ∀ inode₁, l.inode.removeCap mds = .ok inode₁ → { l with inode := inode₁ } = l' →
      (l.inode.Good ∅ → l'.inode.Good ∅) ∧ l'.others = l.others ∧
        (l.inode.flushingCaps ⊆ l'.inode.flushingCaps ∨ l.inode.authCap = some mds) ∧
        (l'.inode.authCap = some mds → l.inode.authCap = some mds) := by
    rintro inode₁ h₁ rfl
    have hkeeps : l.Keeps True { l with inode := inode₁ } := (removeCap_kept h₁).keeps
    refine ⟨hkeeps.1 trivial, hkeeps.2.1, .inl hkeeps.2.2, fun hauth => ?_⟩
    rw [Inode.removeCap] at h₁
    obtain ⟨-, -, h₁⟩ := bind_ok.mp h₁
    split at h₁
    · cases h₁
      cases hauth
    · cases h₁
      exact hauth
  rw [Local.removeSessionCaps] at h
  by_cases hcap : l.inode.caps.contains mds = true
  · rw [if_pos hcap] at h
    by_cases hauth : l.inode.authCap = some mds
    · rw [if_pos hauth] at h
      obtain ⟨inode₁, h₁, h⟩ := bind_ok.mp h
      split at h
      · exact hremove inode₁ h₁ (pure_ok.mp h)
      · rename_i hd
        cases h
        -- The cap that is removed is the auth cap, so that the inode is on no list.
        have hinode :
            inode₁ = { l.inode with flushingItem := none, authCap := none, caps := l.inode.caps.erase mds } := by
          rw [Inode.removeCap, if_pos hauth] at h₁
          obtain ⟨-, -, h₁⟩ := bind_ok.mp h₁
          cases h₁
          rfl
        subst hinode
        refine ⟨fun hg => ⟨fun r hr => ?_, fun hf => ?_, ?_, fun i hi => ?_, hg.bound, hg.last⟩, ?_, .inr hauth, fun _ => hauth⟩
        · cases hr
        · exact absurd rfl hf
        · show l.inode.dirtyRefs - 1 = if (∅ : Mask) ∪ ∅ = ∅ then 0 else 1
          rw [hg.refs, if_neg hd, if_pos (Finset.empty_union ∅), sub_self]
        · cases hi
        · simp only [Local.others, if_true]
          split <;> omega
    · rw [if_neg hauth] at h
      obtain ⟨inode₁, h₁, h⟩ := bind_ok.mp h
      rw [if_pos rfl] at h
      exact hremove inode₁ h₁ (pure_ok.mp h)
  · rw [if_neg hcap] at h
    cases h
    exact ⟨id, rfl, .inl (Finset.Subset.refl _), id⟩

/-! ## Runs -/

theorem markCapsDirty_keeps (caps : Mask) : l.Keeps True { l with inode := l.inode.markCapsDirty caps } := by
  refine ⟨fun _ hg => ⟨hg.item, hg.listed, ?_, hg.tids, hg.bound, hg.last⟩, rfl, Finset.Subset.refl _⟩
  show (if caps ≠ ∅ ∧ l.inode.capsDirty = ∅ then l.inode.dirtyRefs + 1 else l.inode.dirtyRefs) =
    if l.inode.dirtyCaps ∪ caps ∪ l.inode.flushingCaps = ∅ then 0 else 1
  have hunion : l.inode.dirtyCaps ∪ caps ∪ l.inode.flushingCaps = l.inode.capsDirty ∪ caps := by
    rw [Inode.capsDirty, Finset.union_right_comm]
  rw [hg.refs, hunion]
  by_cases hd : l.inode.capsDirty = ∅
  · by_cases hc : caps = ∅
    · simp [hd, hc]
    · simp [hd, hc]
  · simp [hd]

namespace Client

variable {c c' : Client}

/-- An inode without an auth cap that is flushing gets no auth cap. -/
def fair (c : Client) : Action → Bool
  | .call ino (.addUpdateCap _ _ g) => (c.inodes[ino]?).all fun inode =>
    inode.authCap.isSome || !g.auth || decide (inode.flushingCaps = ∅)
  | .call ino (.importCap ..) => (c.inodes[ino]?).all fun inode =>
    inode.authCap.isSome || decide (inode.flushingCaps = ∅)
  | _ => true

/-- The call does not take the bit from `flushing_caps`, or it is the ack of its latest flush. -/
theorem call_spec {a : Call} (h : l.call a = .ok l') :
    ((match a with
      | .addUpdateCap _ _ g => l.inode.authCap = none → g.auth = true → l.inode.flushingCaps = ∅
      | .importCap .. => l.inode.authCap = none → l.inode.flushingCaps = ∅
      | _ => True) → l.inode.Good ∅ → l'.inode.Good ∅) ∧
    (l.inode.Good ∅ → l'.others = l.others) ∧
    (l.inode.Good ∅ → ∀ i ∈ l.inode.flushingCaps, i ∉ l'.inode.flushingCaps →
      ∃ n dirty, a = .flushAck n dirty ∧ l.inode.latest i = some n) := by
  have hof : ∀ {ok : Prop}, l.Keeps ok l' → (ok → l.inode.Good ∅ → l'.inode.Good ∅) ∧
      (l.inode.Good ∅ → l'.others = l.others) ∧
      (l.inode.Good ∅ → ∀ i ∈ l.inode.flushingCaps, i ∉ l'.inode.flushingCaps →
        ∃ n dirty, a = .flushAck n dirty ∧ l.inode.latest i = some n) :=
    fun hk => ⟨hk.1, fun _ => hk.2.1, fun _ i hi hi' => absurd (hk.2.2 hi) hi'⟩
  cases a with
  | markCapsDirty caps =>
    cases h
    exact hof (markCapsDirty_keeps caps)
  | checkCaps env isDelayed => exact hof (checkCaps_keeps h)
  | flushSnaps allAgain again =>
    obtain ⟨inode₁, h₁, h⟩ := bind_ok.mp h
    cases h
    exact hof (flushSnaps_kept h₁).keeps
  | flushAck n dirty =>
    obtain ⟨_, hf, h⟩ := bind_ok.mp h
    rw [assert_ok] at hf
    cases h
    refine ⟨fun _ hg => (handleCapFlushAck_good hg).1, fun hg => (handleCapFlushAck_good hg).2, fun hg i hi hi' => ?_⟩
    exact ⟨n, dirty, rfl, latest_of_ack hg hf hi hi'⟩
  | grant env mds m => exact hof (handleCapGrant_keeps h)
  | importCap env mds m => exact hof (handleCapImport_keeps h)
  | exportCap env mds m => exact hof (handleCapExport_keeps h)
  | addUpdateCap env mds g => exact hof (addUpdateCap_keeps h)
  | removeCap mds =>
    obtain ⟨inode₁, h₁, h⟩ := bind_ok.mp h
    cases h
    exact hof (removeCap_kept h₁).keeps

/-- The bookkeeping of the client. -/
structure Kept (c : Client) : Prop where
  count : c.numFlushingCaps = tally (fun inode => decide (inode.flushingCaps ≠ ∅)) c.inodes
  good : ∀ (ino : ℕ) (inode : Inode), c.inodes[ino]? = some inode → inode.Good ∅

/-- A function of one inode. -/
theorem onInode_spec {f : ℕ → Local → Checked Local} {ino : ℕ} {R : Inode → Inode → Prop}
    (hf : ∀ l l', c.inodes[ino]? = some l.inode → f ino l = .ok l' → l.inode.Good ∅ →
      l'.inode.Good ∅ ∧ l'.others = l.others ∧ R l.inode l'.inode)
    (hc : c.Kept) (h : c.onInode f ino = .ok c') :
    c'.Kept ∧ (∀ k, k ≠ ino → c'.inodes[k]? = c.inodes[k]?) ∧
      ∀ inode : Inode, c.inodes[ino]? = some inode → ∃ inode' : Inode, c'.inodes[ino]? = some inode' ∧ R inode inode' := by
  rw [onInode] at h
  rcases Option.eq_none_or_eq_some c.inodes[ino]? with hi | ⟨inode, hi⟩
  · rw [hi] at h
    cases h
    refine ⟨hc, fun _ _ => rfl, fun inode hx => ?_⟩
    rw [hi] at hx
    cases hx
  · simp only [hi] at h
    obtain ⟨l', h', h⟩ := bind_ok.mp h
    cases h
    obtain ⟨hgood, hothers, hR⟩ := hf _ _ hi h' (hc.good ino inode hi)
    refine ⟨⟨?_, fun k inode₁ hk => ?_⟩, fun k hk => ?_, fun inode₁ hx => ?_⟩
    · have ht := tally_replace (fun inode : Inode => decide (inode.flushingCaps ≠ ∅)) hi l'.inode
      have hcount := hc.count
      simp only [Local.others] at hothers
      by_cases h₁ : l'.inode.flushingCaps = ∅ <;> by_cases h₂ : inode.flushingCaps = ∅ <;>
      · simp [h₁, h₂] at ht hothers hcount ⊢
        omega
    · rw [getElem?_insert] at hk
      split at hk
      · cases hk
        exact hgood
      · exact hc.good k inode₁ hk
    · rw [getElem?_insert, if_neg hk]
    · rw [hi, Option.some.injEq] at hx
      subst hx
      exact ⟨l'.inode, (getElem?_insert _ _ _ _).trans (if_pos rfl), hR⟩

/-- A loop over inodes. -/
theorem foldlM_onInode_spec {f : ℕ → Local → Checked Local} {keys : List ℕ} {R : Inode → Inode → Prop}
    (hrefl : ∀ inode, R inode inode) (htrans : ∀ {a b c : Inode}, R a b → R b c → R a c)
    (hf : ∀ ino l l', f ino l = .ok l' → l.inode.Good ∅ →
      l'.inode.Good ∅ ∧ l'.others = l.others ∧ R l.inode l'.inode)
    (hc : c.Kept) (h : keys.foldlM (onInode f) c = .ok c') :
    c'.Kept ∧ ∀ (ino : ℕ) (inode : Inode), c.inodes[ino]? = some inode →
      ∃ inode' : Inode, c'.inodes[ino]? = some inode' ∧ R inode inode' := by
  induction keys generalizing c with
  | nil =>
    cases h
    exact ⟨hc, fun ino inode hi => ⟨inode, hi, hrefl inode⟩⟩
  | cons k keys ih =>
    rw [List.foldlM_cons] at h
    obtain ⟨c₁, h₁, h⟩ := bind_ok.mp h
    obtain ⟨hc₁, hother, hk⟩ := onInode_spec (fun l l' _ => hf k l l') hc h₁
    obtain ⟨hc', hR⟩ := ih hc₁ h
    refine ⟨hc', fun ino inode hi => ?_⟩
    by_cases he : ino = k
    · subst he
      obtain ⟨inode₁, hi₁, hR₁⟩ := hk inode hi
      obtain ⟨inode', hi', hR'⟩ := hR ino inode₁ hi₁
      exact ⟨inode', hi', htrans hR₁ hR'⟩
    · exact hR ino inode ((hother ino he).trans hi)

/-- Why a bit leaves `flushing_caps`. -/
def Cleaned (a : Action) (ino : ℕ) (inode : Inode) (i : Fin 22) : Prop :=
  (∃ n dirty, a = .call ino (.flushAck n dirty) ∧ inode.latest i = some n) ∨
    ∃ mds, a = .removeSessionCaps mds ∧ inode.authCap = some mds

theorem kick_spec {env : ℕ → Env} {mds : ℕ} (hc : c.Kept)
    (h : c.inodes.keys.foldlM (onInode fun ino l => l.kickFlushingCaps (env ino) mds) c = .ok c') :
    c'.Kept ∧ ∀ (ino : ℕ) (inode : Inode), c.inodes[ino]? = some inode →
      ∃ inode' : Inode, c'.inodes[ino]? = some inode' ∧ inode.flushingCaps ⊆ inode'.flushingCaps := by
  refine foldlM_onInode_spec (fun _ => Finset.Subset.refl _) Finset.Subset.trans (fun ino l l' hl hg => ?_) hc h
  have hk := kickFlushingCaps_keeps hl
  exact ⟨hk.1 trivial hg, hk.2⟩

theorem removeSession_spec {mds : ℕ} (hc : c.Kept)
    (h : c.inodes.keys.foldlM (onInode fun _ l => l.removeSessionCaps mds) c = .ok c') :
    c'.Kept ∧ ∀ (ino : ℕ) (inode : Inode), c.inodes[ino]? = some inode → ∃ inode' : Inode, c'.inodes[ino]? = some inode' ∧
      (inode.flushingCaps ⊆ inode'.flushingCaps ∨ inode.authCap = some mds) ∧
      (inode'.authCap = some mds → inode.authCap = some mds) := by
  refine foldlM_onInode_spec (fun _ => ⟨.inl (Finset.Subset.refl _), id⟩) (fun hab hbc => ?_) (fun ino l l' hl hg => ?_) hc h
  · refine ⟨?_, fun h => hab.2 (hbc.2 h)⟩
    rcases hab.1 with h₁ | h₁
    · rcases hbc.1 with h₂ | h₂
      · exact .inl (h₁.trans h₂)
      · exact .inr (hab.2 h₂)
    · exact .inr h₁
  · have hs := removeSessionCaps_spec hl
    exact ⟨hs.1 hg, hs.2⟩

/-- A bit leaves `flushing_caps` by the ack of its latest flush, or by the loss of the auth session. -/
theorem Kept.cleaned {a : Action} (hc : c.Kept) (h : c.step a = some c') {ino : ℕ} {inode inode' : Inode} {i : Fin 22}
    (hi : c.inodes[ino]? = some inode) (hi' : c'.inodes[ino]? = some inode') (hbit : i ∈ inode.flushingCaps)
    (hbit' : i ∉ inode'.flushingCaps) : Cleaned a ino inode i := by
  have hstay : inode'.flushingCaps ≠ inode.flushingCaps := by
    intro he
    rw [he] at hbit'
    exact hbit' hbit
  cases a with
  | newInode k =>
    rw [step] at h
    split at h
    · cases h
    · rename_i hk
      cases h
      rw [getElem?_insert] at hi'
      split at hi'
      · rename_i he
        rw [Std.ExtTreeMap.contains_eq_isSome_getElem?, ← he, hi] at hk
        exact absurd rfl hk
      · rw [hi] at hi'
        cases hi'
        exact absurd rfl hstay
  | call k call =>
    rw [step, toOption_eq_some, onInode] at h
    by_cases he : ino = k
    · subst he
      simp only [hi] at h
      obtain ⟨l', h', h⟩ := bind_ok.mp h
      cases h
      rw [getElem?_insert, if_pos rfl, Option.some.injEq] at hi'
      subst hi'
      obtain ⟨n, dirty, rfl, hn⟩ := (call_spec h').2.2 (hc.good ino inode hi) i hbit hbit'
      exact .inl ⟨n, dirty, rfl, hn⟩
    · rcases Option.eq_none_or_eq_some c.inodes[k]? with hk | ⟨inode₁, hk⟩
      · rw [hk] at h
        cases h
        rw [hi] at hi'
        cases hi'
        exact absurd rfl hstay
      · simp only [hk] at h
        obtain ⟨l', -, h⟩ := bind_ok.mp h
        cases h
        rw [getElem?_insert, if_neg he, hi] at hi'
        cases hi'
        exact absurd rfl hstay
  | kickFlushingCaps env mds =>
    obtain ⟨inode₁, hi₁, hsub⟩ := (kick_spec hc (toOption_eq_some.mp h)).2 ino inode hi
    rw [hi'] at hi₁
    cases hi₁
    exact absurd (hsub hbit) hbit'
  | removeSessionCaps mds =>
    obtain ⟨inode₁, hi₁, hsub, -⟩ := (removeSession_spec hc (toOption_eq_some.mp h)).2 ino inode hi
    rw [hi'] at hi₁
    cases hi₁
    exact .inr ⟨mds, rfl, hsub.resolve_left fun hsub => hbit' (hsub hbit)⟩

theorem Kept.step {a : Action} (hc : c.Kept) (hfair : c.fair a = true) (h : c.step a = some c') : c'.Kept := by
  cases a with
  | newInode k =>
    rw [Client.step] at h
    split at h
    · cases h
    · rename_i hk
      cases h
      have hnone : c.inodes[k]? = none := Std.ExtTreeMap.getElem?_eq_none hk
      refine ⟨?_, fun ino inode hi => ?_⟩
      · show c.numFlushingCaps = _
        rw [tally_insert _ hnone, hc.count]
        rfl
      · rw [getElem?_insert] at hi
        split at hi
        · cases hi
          refine ⟨fun r hr => ?_, fun hf => ?_, rfl, fun i hi => ?_, fun msg hm => ?_, fun i n hn => ?_⟩
          · cases hr
          · exact absurd rfl hf
          · cases hi
          · cases hm
          · cases hn
        · exact hc.good ino inode hi
  | call k call =>
    refine (onInode_spec (R := fun _ _ => True) (fun l l' hi hl hg => ?_) hc (toOption_eq_some.mp h)).1
    obtain ⟨hgood, hothers, -⟩ := call_spec hl
    refine ⟨hgood ?_ hg, hothers hg, trivial⟩
    cases call with
    | addUpdateCap env mds g =>
      intro hnone hauth
      simpa [fair, hi, hnone, hauth] using hfair
    | importCap env mds m =>
      intro hnone
      simpa [fair, hi, hnone] using hfair
    | _ => trivial
  | kickFlushingCaps env mds => exact (kick_spec hc (toOption_eq_some.mp h)).1
  | removeSessionCaps mds => exact (removeSession_spec hc (toOption_eq_some.mp h)).1

theorem kept_empty : Client.empty.Kept := by
  refine ⟨rfl, fun ino inode hi => ?_⟩
  simp [Client.empty] at hi

/-- In every run in which no inode that is flushing without an auth cap gets one: the counter is the
number of inodes that are flushing, these are on the list of their auth cap's session, the reference
is held as long as caps are dirty, and a bit leaves `flushing_caps` only as it should. -/
theorem run_flushing {as : List Action} (hfair : Meets Client.step (fun c a => c.fair a = true) .empty as)
    (hrun : run Client.step .empty as = some c) :
    c.numFlushingCaps = tally (fun inode => decide (inode.flushingCaps ≠ ∅)) c.inodes ∧
    (∀ (ino : ℕ) (inode : Inode), c.inodes[ino]? = some inode →
      (inode.flushingCaps ≠ ∅ → ∀ mds, inode.authCap = some mds → inode.flushingItem = some mds) ∧
      inode.dirtyRefs = if inode.capsDirty = ∅ then 0 else 1) ∧
    ∀ (a : Action) (c' : Client), c.step a = some c' → ∀ (ino : ℕ) (inode inode' : Inode) (i : Fin 22),
      c.inodes[ino]? = some inode → c'.inodes[ino]? = some inode' → i ∈ inode.flushingCaps → i ∉ inode'.flushingCaps →
      Cleaned a ino inode i := by
  have hc : c.Kept := run_invariant_of (fun _ _ _ hc hfair hstep => hc.step hfair hstep) kept_empty hfair hrun
  refine ⟨hc.count, fun ino inode hi => ⟨(hc.good ino inode hi).listed, (hc.good ino inode hi).refs⟩, ?_⟩
  intro a c' hstep ino inode inode' i hi hi' hbit hbit'
  exact hc.cleaned hstep hi hi' hbit hbit'

/-! ## Single runs -/

def calm : Env := ⟨∅, false, false, false, true, true, true⟩

/-- A write cap from the server 0 is used, and the change is flushed. -/
def flushOne : List Action := [.newInode 1, .call 1 (.addUpdateCap calm 0 ⟨7, {fileWr}, 1, 0, true⟩),
  .call 1 (.markCapsDirty {fileWr}), .call 1 (.checkCaps calm true)]

/-- The server 0 exports the cap and names the new cap of the server 1; the flush is acknowledged. -/
theorem run_flushing_export : ∃ c, run Client.step .empty (flushOne ++
      [.call 1 (.exportCap calm 0 ⟨7, ∅, 1, 0, ∅, ⟨1, 8, 1, 1⟩⟩), .call 1 (.flushAck 1 {fileWr})]) = some c ∧
    c.numFlushingCaps = tally (fun inode => decide (inode.flushingCaps ≠ ∅)) c.inodes := by
  have hfair : Meets Client.step (fun c a => c.fair a = true) .empty (flushOne ++
      [.call 1 (.exportCap calm 0 ⟨7, ∅, 1, 0, ∅, ⟨1, 8, 1, 1⟩⟩), .call 1 (.flushAck 1 {fileWr})]) := by
    decide +kernel
  exact ⟨_, rfl, (run_flushing hfair rfl).1⟩

/-- The server 0 exports the cap without naming the new one, which the server 1 imports: the inode is
flushing and has an auth cap, but it is on no list. -/
theorem not_flushing : ∃ c, run Client.step .empty (flushOne ++
      [.call 1 (.exportCap calm 0 ⟨7, ∅, 1, 0, ∅, ⟨1, 0, 0, 0⟩⟩),
        .call 1 (.importCap calm 1 ⟨8, {fileWr}, 1, 1, ∅, ⟨0, 7, 1, 0⟩⟩)]) = some c ∧
    (c.inodes[1]?).map (fun inode => (inode.flushingCaps, inode.authCap, inode.flushingItem)) =
      some ({fileWr}, some 1, none) := by
  refine ⟨_, rfl, ?_⟩
  decide +kernel

end Client

end CephMds.Caps
