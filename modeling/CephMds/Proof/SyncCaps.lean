import Mathlib
import CephMds.Model.SyncCaps

/-!
# What `wait_sync_caps` waits for

The tids of an inode say which of its flushes are not acknowledged
(`Inode.Tidy`), and an inode on the list of a session has its auth cap there
and something to flush (`Client.Sound`), in every run (`step_sound`). The lists
are ordered by `flushing_cap_seq`, and an inode with an unacknowledged flush is
on one with the number of that flush (`Client.Ordered`), in a run of
`Client.Orderly` steps. There the front of a list is enough to look at
(`waits`).
-/

namespace CephMds.SyncCaps

open Checked

variable {c c' : Client} {i j : Inode} {ino mds : ℕ}

/-! ## Inodes -/

/-- What the tids of an inode say about its flushes. -/
structure Inode.Tidy (i : Inode) : Prop where
  tid : ∀ b ∈ i.flushingCaps, i.flushingCapTid b = BitVec.ofNat 16 (i.sentTid b)
  sent : ∀ b ∈ i.flushingCaps, ∃ p ∈ i.sent, p.1 = i.sentTid b ∧ b ∈ p.2
  acked : ∀ b ∈ i.flushingCaps, i.ackedTid b < i.sentTid b
  newest : ∀ p ∈ i.sent, ∀ b ∈ p.2, p.1 ≤ i.sentTid b
  sent_le : ∀ b, i.sentTid b ≤ i.lastFlushTid
  acked_le : ∀ b, i.ackedTid b ≤ i.sentTid b

/-- No flush is forgotten on the way from `i` to `j`. -/
structure Inode.Keeps (i j : Inode) : Prop where
  seq : j.flushingCapSeq = i.flushingCapSeq
  losses : i.losses ≤ j.losses
  acked : ∀ b, i.ackedTid b ≤ j.ackedTid b
  sent : ∀ b, i.sentTid b ≤ j.sentTid b
  flushing : ∀ b ∈ i.flushingCaps, b ∈ j.flushingCaps ∨ i.sentTid b ≤ j.ackedTid b

namespace Inode

theorem tidy_new : Inode.new.Tidy where
  tid _ h := absurd h (Finset.notMem_empty _)
  sent _ h := absurd h (Finset.notMem_empty _)
  acked _ h := absurd h (Finset.notMem_empty _)
  newest _ h := absurd h List.not_mem_nil
  sent_le _ := le_rfl
  acked_le _ := le_rfl

/-- The caps and what is dirty say nothing about flushes. -/
theorem Tidy.of_caps (h : i.Tidy) {caps : Std.ExtTreeMap ℕ Caps.Mask} {authCap : Option ℕ} {dirtyCaps : Caps.Mask} :
    Inode.Tidy { i with caps := caps, authCap := authCap, dirtyCaps := dirtyCaps } :=
  ⟨h.tid, h.sent, h.acked, h.newest, h.sent_le, h.acked_le⟩

theorem Tidy.flushSnap (h : i.Tidy) : Inode.Tidy { i with lastFlushTid := i.lastFlushTid + 1 } :=
  ⟨h.tid, h.sent, h.acked, h.newest, fun b => Nat.le_succ_of_le (h.sent_le b), h.acked_le⟩

theorem Tidy.lost (h : i.Tidy) {caps : Std.ExtTreeMap ℕ Caps.Mask} :
    Inode.Tidy { i with caps := caps, authCap := none, dirtyCaps := ∅, flushingCaps := ∅, losses := i.losses + 1 } where
  tid _ hb := absurd hb (Finset.notMem_empty _)
  sent _ hb := absurd hb (Finset.notMem_empty _)
  acked _ hb := absurd hb (Finset.notMem_empty _)
  newest := h.newest
  sent_le := h.sent_le
  acked_le := h.acked_le

theorem sendCap_empty (i : Inode) : i.sendCap ∅ = i := if_pos rfl

theorem sendCap_eq {flush : Caps.Mask} (h : flush ≠ ∅) (i : Inode) : i.sendCap flush =
    { i with
      lastFlushTid := i.lastFlushTid + 1
      flushingCapTid := fun b => if b ∈ flush then BitVec.ofNat 16 (i.lastFlushTid + 1) else i.flushingCapTid b
      sent := (i.lastFlushTid + 1, flush) :: i.sent
      sentTid := fun b => if b ∈ flush then i.lastFlushTid + 1 else i.sentTid b } := if_neg h

/-- A flush of the bits that are flushing, and of some more. -/
theorem Tidy.sendCap (h : i.Tidy) (flush dirtyCaps : Caps.Mask) (seq : ℕ) :
    (Inode.sendCap { i with
      flushingCaps := i.flushingCaps ∪ flush, dirtyCaps := dirtyCaps, flushingCapSeq := seq } flush).Tidy := by
  by_cases hf : flush = ∅
  · subst hf
    rw [sendCap_empty, Finset.union_empty]
    exact ⟨h.tid, h.sent, h.acked, h.newest, h.sent_le, h.acked_le⟩
  · rw [sendCap_eq hf]
    have hold : ∀ b ∈ i.flushingCaps ∪ flush, b ∉ flush → b ∈ i.flushingCaps := fun b hb hno =>
      (Finset.mem_union.mp hb).resolve_right hno
    have hle := fun b => Nat.le_succ_of_le (h.sent_le b)
    refine ⟨fun b hb => ?_, fun b hb => ?_, fun b hb => ?_, fun p hp b hb => ?_, fun b => ?_, fun b => ?_⟩
    · dsimp only
      split
      · rfl
      · next hno => exact h.tid b (hold b hb hno)
    · dsimp only
      split
      · next hin => exact ⟨_, List.mem_cons_self, rfl, hin⟩
      · next hno =>
        obtain ⟨p, hp, hbits⟩ := h.sent b (hold b hb hno)
        exact ⟨p, List.mem_cons_of_mem _ hp, hbits⟩
    · dsimp only
      split
      · exact Nat.lt_succ_of_le ((h.acked_le b).trans (h.sent_le b))
      · next hno => exact h.acked b (hold b hb hno)
    · dsimp only
      rcases List.mem_cons.mp hp with rfl | hp
      · rw [if_pos hb]
      · split
        · exact (h.newest p hp b hb).trans (hle b)
        · exact h.newest p hp b hb
    · dsimp only
      split
      · exact le_rfl
      · exact hle b
    · dsimp only
      split
      · exact (h.acked_le b).trans (hle b)
      · exact h.acked_le b

theorem Tidy.sendFlushing (h : i.Tidy) : (i.sendCap i.flushingCaps).Tidy := by
  have := h.sendCap i.flushingCaps i.dirtyCaps i.flushingCapSeq
  rwa [Finset.union_self] at this

theorem mem_cleaned {n : ℕ} {dirty : Caps.Mask} {b : Fin 22} :
    b ∈ i.cleaned n dirty ↔ b ∈ dirty ∧ i.flushingCapTid b = BitVec.ofNat 16 n := Finset.mem_filter

theorem Tidy.ack (h : i.Tidy) {n : ℕ} {dirty : Caps.Mask} (hn : ∃ p ∈ i.sent, p.1 = n ∧ dirty ⊆ p.2) :
    (i.ack n dirty).Tidy := by
  obtain ⟨p, hp, rfl, hdirty⟩ := hn
  have hold : ∀ b ∈ (i.ack p.1 dirty).flushingCaps, b ∈ i.flushingCaps := fun b hb => (Finset.mem_sdiff.mp hb).1
  refine ⟨fun b hb => h.tid b (hold b hb), fun b hb => h.sent b (hold b hb), fun b hb => ?_, h.newest, h.sent_le, fun b => ?_⟩
  · show (if b ∈ dirty then _ else _) < _
    split
    · next hin =>
      -- an ack of the last flush of `b` would have cleaned it
      refine max_lt (h.acked b (hold b hb)) (lt_of_le_of_ne (h.newest p hp b (hdirty hin)) fun heq => ?_)
      exact (Finset.mem_sdiff.mp hb).2 (mem_cleaned.mpr ⟨hin, heq ▸ h.tid b (hold b hb)⟩)
    · exact h.acked b (hold b hb)
  · show (if b ∈ dirty then _ else _) ≤ _
    split
    · next hin => exact max_le (h.acked_le b) (h.newest p hp b (hdirty hin))
    · exact h.acked_le b

/-! ### Flushes that are kept -/

theorem Keeps.of_caps {caps : Std.ExtTreeMap ℕ Caps.Mask} {authCap : Option ℕ} {dirtyCaps : Caps.Mask} {tid : ℕ} :
    i.Keeps { i with caps := caps, authCap := authCap, dirtyCaps := dirtyCaps, lastFlushTid := tid } :=
  ⟨rfl, le_rfl, fun _ => le_rfl, fun _ => le_rfl, fun _ h => .inl h⟩

theorem Tidy.keeps_sendCap (h : i.Tidy) (flush : Caps.Mask) : i.Keeps (i.sendCap flush) := by
  by_cases hf : flush = ∅
  · rw [hf, sendCap_empty]
    exact .of_caps
  · rw [sendCap_eq hf]
    refine ⟨rfl, le_rfl, fun _ => le_rfl, fun b => ?_, fun _ h => .inl h⟩
    dsimp only
    split
    · exact Nat.le_succ_of_le (h.sent_le b)
    · exact le_rfl

/-- Of tids that are less than `2 ^ 16` apart, the last sixteen bits tell which is which. -/
theorem eq_of_ofNat_eq {m n k : ℕ} (hmn : n ≤ m) (hmk : m ≤ k) (hk : k < n + 2 ^ 16)
    (h : BitVec.ofNat 16 m = BitVec.ofNat 16 n) : n = m := by
  have h := congrArg BitVec.toNat h
  rw [BitVec.toNat_ofNat, BitVec.toNat_ofNat] at h
  omega

theorem Tidy.keeps_ack (h : i.Tidy) {n : ℕ} {dirty : Caps.Mask} (hn : ∃ p ∈ i.sent, p.1 = n ∧ dirty ⊆ p.2)
    (hfresh : i.lastFlushTid < n + 2 ^ 16) : i.Keeps (i.ack n dirty) := by
  obtain ⟨p, hp, rfl, hdirty⟩ := hn
  refine ⟨rfl, le_rfl, fun b => ?_, fun _ => le_rfl, fun b hb => ?_⟩
  · show _ ≤ if b ∈ dirty then _ else _
    split
    · exact le_max_left _ _
    · exact le_rfl
  · by_cases hc : b ∈ i.cleaned p.1 dirty
    · obtain ⟨hin, htid⟩ := mem_cleaned.mp hc
      have heq : p.1 = i.sentTid b := eq_of_ofNat_eq (h.newest p hp b (hdirty hin)) (h.sent_le b) hfresh
        ((h.tid b hb).symm.trans htid)
      right
      show _ ≤ if b ∈ dirty then _ else _
      rw [if_pos hin, heq]
      exact le_max_right _ _
    · exact .inl (Finset.mem_sdiff.mpr ⟨hb, hc⟩)

/-- The flush is acknowledged for all of its bits, or the session of the auth cap was lost. -/
def Done (i : Inode) (F : Flush) : Prop := (∀ b ∈ F.bits, F.tid ≤ i.ackedTid b) ∨ F.losses < i.losses

/-- The flush has the number of the inode, and its unacknowledged bits are flushing. -/
structure Pending (i : Inode) (F : Flush) : Prop where
  seq : i.flushingCapSeq = F.seq
  losses : F.losses ≤ i.losses
  flushing : ∀ b ∈ F.bits, i.ackedTid b < F.tid → b ∈ i.flushingCaps ∧ F.tid ≤ i.sentTid b

variable {F : Flush}

theorem Keeps.done (h : i.Keeps j) (hd : i.Done F) : j.Done F :=
  hd.imp (fun ha b hb => (ha b hb).trans (h.acked b)) fun hl => hl.trans_le h.losses

theorem Keeps.pending (h : i.Keeps j) (hp : i.Pending F) : j.Pending F := by
  refine ⟨h.seq.trans hp.seq, hp.losses.trans h.losses, fun b hb hlt => ?_⟩
  obtain ⟨hin, hle⟩ := hp.flushing b hb ((h.acked b).trans_lt hlt)
  exact ⟨(h.flushing b hin).resolve_right fun ha => absurd hlt (not_lt.mpr (hle.trans ha)), hle.trans (h.sent b)⟩

theorem Pending.done (h : i.Pending F) (hf : i.flushingCaps = ∅) : i.Done F := by
  refine .inl fun b hb => not_lt.mp fun hlt => ?_
  have := (h.flushing b hb hlt).1
  rw [hf] at this
  exact Finset.notMem_empty _ this

end Inode

/-! ## Clients -/

/-- What holds of the caps and the lists of a client in every run. -/
structure Client.Sound (c : Client) : Prop where
  tidy : ∀ ino, (c.inodes ino).Tidy
  cap : ∀ ino mds, (c.inodes ino).authCap = some mds → mds ∈ (c.inodes ino).caps
  listed : ∀ mds, ∀ ino ∈ c.flushingCaps mds, (c.inodes ino).authCap = some mds ∧ (c.inodes ino).flushingCaps ≠ ∅
  session : ∀ mds, ∀ ino ∈ c.flushingCaps mds, mds ∈ c.mdsSessions
  nodup : ∀ mds, (c.flushingCaps mds).Nodup

namespace Client

theorem sound_initial : initial.Sound where
  tidy _ := Inode.tidy_new
  cap _ _ h := by cases h
  listed _ _ h := absurd h List.not_mem_nil
  session _ _ h := absurd h List.not_mem_nil
  nodup _ := List.nodup_nil

@[simp] theorem setInode_self (c : Client) (ino : ℕ) (i : Inode) : (c.setInode ino i).inodes ino = i :=
  Function.update_self ..

theorem setInode_of_ne {k : ℕ} (h : k ≠ ino) (c : Client) (i : Inode) : (c.setInode ino i).inodes k = c.inodes k :=
  Function.update_of_ne h ..

theorem isOnList_iff (h : c.Sound) : c.isOnList ino = true ↔ ∃ mds, ino ∈ c.flushingCaps mds := by
  rw [isOnList, decide_eq_true_eq]
  constructor
  · rintro ⟨mds, -, hin⟩
    exact ⟨mds, List.contains_iff_mem.mp hin⟩
  · rintro ⟨mds, hin⟩
    exact ⟨mds, h.session mds ino hin, List.contains_iff_mem.mpr hin⟩

theorem mem_removeMyself {k : ℕ} : k ∈ (c.removeMyself ino).flushingCaps mds ↔ k ∈ c.flushingCaps mds ∧ k ≠ ino := by
  simp [removeMyself]

theorem mem_pushBack {k m : ℕ} :
    k ∈ (c.pushBack m ino).flushingCaps mds ↔ k ∈ c.flushingCaps mds ∧ k ≠ ino ∨ mds = m ∧ k = ino := by
  simp only [pushBack, List.mem_append, List.mem_filter, bne_iff_ne]
  refine or_congr_right ?_
  split
  · next h => simp [h]
  · next h => simp [h]

/-! ### Changes to one inode -/

/-- The caps of the inode still have its auth cap. -/
def HasAuth (i : Inode) : Prop := ∀ mds, i.authCap = some mds → mds ∈ i.caps

theorem Sound.setInode (h : c.Sound) (htidy : i.Tidy) (hcap : HasAuth i)
    (hlisted : ∀ mds, ino ∈ c.flushingCaps mds → i.authCap = some mds ∧ i.flushingCaps ≠ ∅) :
    (c.setInode ino i).Sound where
  tidy k := by
    by_cases hk : k = ino
    · rwa [hk, setInode_self]
    · rw [setInode_of_ne hk]
      exact h.tidy k
  cap k mds := by
    by_cases hk : k = ino
    · rw [hk, setInode_self]
      exact hcap mds
    · rw [setInode_of_ne hk]
      exact h.cap k mds
  listed mds k hin := by
    by_cases hk : k = ino
    · subst hk
      rw [setInode_self]
      exact hlisted mds hin
    · rw [setInode_of_ne hk]
      exact h.listed mds k hin
  session := h.session
  nodup := h.nodup

theorem Sound.removeMyself (h : c.Sound) (ino : ℕ) : (c.removeMyself ino).Sound where
  tidy := h.tidy
  cap := h.cap
  listed mds k hin := h.listed mds k (mem_removeMyself.mp hin).1
  session mds k hin := h.session mds k (mem_removeMyself.mp hin).1
  nodup mds := (h.nodup mds).filter _

/-- The inode leaves its list. -/
theorem Sound.drop (h : c.Sound) (htidy : i.Tidy) (hcap : HasAuth i) :
    ((c.removeMyself ino).setInode ino i).Sound :=
  (h.removeMyself ino).setInode htidy hcap fun _ hin => absurd rfl (mem_removeMyself.mp hin).2

/-- The inode comes to the end of a list. -/
theorem Sound.push (h : c.Sound) (hmds : mds ∈ c.mdsSessions) (htidy : i.Tidy) (hcap : HasAuth i)
    (hauth : i.authCap = some mds) (hflushing : i.flushingCaps ≠ ∅) : ((c.pushBack mds ino).setInode ino i).Sound where
  tidy := (h.drop htidy hcap).tidy
  cap := (h.drop htidy hcap).cap
  listed m k hin := by
    rcases mem_pushBack.mp hin with ⟨hin, hk⟩ | ⟨rfl, rfl⟩
    · rw [setInode_of_ne hk]
      exact h.listed m k hin
    · rw [setInode_self]
      exact ⟨hauth, hflushing⟩
  session m k hin := by
    rcases mem_pushBack.mp hin with ⟨hin, -⟩ | ⟨rfl, -⟩
    · exact h.session m k hin
    · exact hmds
  nodup m := by
    show (List.filter _ _ ++ if m = mds then [ino] else []).Nodup
    refine List.nodup_append.mpr ⟨(h.nodup m).filter _, ?_, fun k hk l hl => ?_⟩
    · split
      · exact List.nodup_singleton _
      · exact List.nodup_nil
    · rw [List.mem_filter, bne_iff_ne] at hk
      split at hl
      · rw [List.mem_singleton.mp hl]
        exact hk.2
      · cases hl

/-! ### Changes of the caps -/

/-- An inode that is on a list comes behind smaller numbers on the list of `mds`. -/
def Follows (c : Client) (ino mds : ℕ) : Prop :=
  c.isOnList ino = true → ∀ k ∈ c.flushingCaps mds, k ≠ ino →
    (c.inodes k).flushingCapSeq < (c.inodes ino).flushingCapSeq

/-- The cap of `mds` is not the auth cap of an inode that is on a list. -/
def Spares (c : Client) (ino mds : ℕ) : Prop := (c.inodes ino).authCap = some mds → c.isOnList ino = false

/-- Another cap of an inode, or another auth cap. In an `orderly` change, no
inode goes before a smaller number, or off a list. -/
inductive Handover (orderly : Prop) (c : Client) (ino : ℕ) : Client → Prop
  | keep (caps : Std.ExtTreeMap ℕ Caps.Mask) (authCap : Option ℕ) (hcap : ∀ m, authCap = some m → m ∈ caps)
      (hauth : authCap = (c.inodes ino).authCap ∨ c.isOnList ino = false) :
      Handover orderly c ino (c.setInode ino { c.inodes ino with caps := caps, authCap := authCap })
  | move (caps : Std.ExtTreeMap ℕ Caps.Mask) (mds : ℕ) (hcap : mds ∈ caps) (hmds : mds ∈ c.mdsSessions)
      (hon : c.isOnList ino = true) (hfollows : orderly → c.Follows ino mds) :
      Handover orderly c ino ((c.pushBack mds ino).setInode ino { c.inodes ino with caps := caps, authCap := some mds })
  | drop (caps : Std.ExtTreeMap ℕ Caps.Mask) (hoff : orderly → c.isOnList ino = false) :
      Handover orderly c ino ((c.removeMyself ino).setInode ino { c.inodes ino with caps := caps, authCap := none })

variable {orderly : Prop}

theorem Handover.sound (h : Handover orderly c ino c') (hs : c.Sound) : c'.Sound := by
  cases h with
  | keep caps authCap hcap hauth =>
    refine hs.setInode (hs.tidy ino).of_caps hcap fun mds hin => ?_
    have hon := (isOnList_iff hs).mpr ⟨mds, hin⟩
    rcases hauth with rfl | hoff
    · exact hs.listed mds ino hin
    · rw [hon] at hoff
      cases hoff
  | move caps mds hcap hmds hon =>
    obtain ⟨m, hin⟩ := (isOnList_iff hs).mp hon
    refine hs.push hmds (hs.tidy ino).of_caps (fun m hm => ?_) rfl (hs.listed m ino hin).2
    cases hm
    exact hcap
  | drop caps => exact hs.drop (hs.tidy ino).of_caps fun m hm => by cases hm

/-- `add_update_cap` changes the auth cap. -/
def Takes (c : Client) (ino mds : ℕ) (auth newer : Bool) : Prop :=
  auth = true ∧ (c.inodes ino).authCap ≠ some mds ∧ ((c.inodes ino).authCap = none ∨ newer = true)

theorem handover_addUpdateCap (hs : c.Sound) (hmds : mds ∈ c.mdsSessions) (issued : Caps.Mask) (auth newer : Bool)
    (hf : orderly → Takes c ino mds auth newer → c.Follows ino mds) :
    Handover orderly c ino (c.addUpdateCap ino mds issued auth newer) := by
  rw [addUpdateCap]
  split
  · next htakes =>
    split
    · next hon =>
      exact .move _ mds (Std.ExtTreeMap.mem_insert_self) hmds hon.2 fun ho => hf ho htakes
    · next hoff =>
      refine .keep _ (some mds) (fun m hm => ?_) ?_
      · cases hm
        exact Std.ExtTreeMap.mem_insert_self
      · cases hon : c.isOnList ino with
        | false => exact .inr rfl
        | true =>
          obtain ⟨m, hin⟩ := (isOnList_iff hs).mp hon
          refine absurd ⟨?_, hon⟩ hoff
          rw [(hs.listed m ino hin).1]
          rfl
  · exact .keep _ _ (fun m hm => Std.ExtTreeMap.mem_insert.mpr (.inr (hs.cap ino m hm))) (.inl rfl)

theorem handover_removeCap (hs : c.Sound) (hsp : orderly → c.Spares ino mds) (h : c.removeCap ino mds = .ok c') :
    Handover orderly c ino c' := by
  rw [removeCap] at h
  dsimp only at h
  obtain ⟨-, -, h⟩ := bind_ok.mp h
  split at h
  · next hauth =>
    cases h
    exact .drop _ fun ho => hsp ho hauth
  · next hauth =>
    cases h
    refine .keep _ _ (fun m hm => Std.ExtTreeMap.mem_erase.mpr ⟨fun heq => ?_, hs.cap ino m hm⟩) (.inl rfl)
    rw [Nat.compare_eq_eq] at heq
    exact hauth (heq ▸ hm)

theorem Sound.openSession (hs : c.Sound) (mds : ℕ) : (c.openSession mds).Sound :=
  ⟨hs.tidy, hs.cap, hs.listed, fun m k hin => Finset.mem_insert_of_mem (hs.session m k hin), hs.nodup⟩

theorem isOnList_openSession (hs : c.Sound) (mds ino : ℕ) : (c.openSession mds).isOnList ino = c.isOnList ino :=
  Bool.eq_iff_iff.mpr ((isOnList_iff (hs.openSession mds)).trans (isOnList_iff hs).symm)

/-- The cap of the peer becomes the auth cap. -/
def Exports (c : Client) (ino mds peer : ℕ) (newer newerAuth : Bool) : Prop :=
  ((c.inodes ino).authCap = some mds ∨ (c.inodes ino).authCap = some peer) ∧
    (if (c.inodes ino).caps.contains peer then newer else newerAuth) = true

theorem handover_exportTo (hs : c.Sound) {peer : ℕ} {newer newerAuth : Bool}
    (hf : orderly → Exports c ino mds peer newer newerAuth → c.Follows ino peer) :
    c.exportTo ino mds peer newer newerAuth = c.openSession peer ∨
      Handover orderly (c.openSession peer) ino (c.exportTo ino mds peer newer newerAuth) := by
  have hon := isOnList_openSession hs peer ino
  have hso := hs.openSession peer
  have hmem : peer ∈ (c.openSession peer).mdsSessions := Finset.mem_insert_self _ _
  rw [exportTo]
  dsimp only
  split
  · next hpeer =>
    have hpeer : (c.inodes ino).caps.contains peer = true := hpeer
    split
    · next hnewer =>
      have hexports : (c.inodes ino).authCap = some mds ∨ (c.inodes ino).authCap = some peer →
          Exports c ino mds peer newer newerAuth := fun h => ⟨h, by rw [if_pos hpeer]; exact hnewer⟩
      right
      generalize ha : (if ((c.openSession peer).inodes ino).authCap = some mds then some peer
        else ((c.openSession peer).inodes ino).authCap) = a
      have ha : (if (c.inodes ino).authCap = some mds then some peer else (c.inodes ino).authCap) = a := ha
      split
      · next htake =>
        obtain ⟨rfl, hpush⟩ := htake
        refine .move _ peer Std.ExtTreeMap.mem_insert_self hmem hpush fun ho _ => ?_
        refine hf ho (hexports ?_) (hon.symm.trans hpush)
        by_cases hauth : (c.inodes ino).authCap = some mds
        · exact .inl hauth
        · exact .inr ((if_neg hauth).symm.trans ha)
      · next hno =>
        refine .keep _ a (fun m hm => ?_) ?_
        · rw [Std.ExtTreeMap.mem_insert]
          split at ha
          · cases ha.trans hm
            exact .inl (Nat.compare_eq_eq.mpr rfl)
          · exact .inr (hs.cap ino m (ha.trans hm))
        · split at ha
          · cases h : (c.openSession peer).isOnList ino with
            | false => exact .inr rfl
            | true => exact absurd ⟨ha.symm, h⟩ hno
          · exact .inl ha.symm
    · exact .inl rfl
  · next hpeer =>
    have hpeer : ¬ (c.inodes ino).caps.contains peer = true := hpeer
    refine .inr (handover_addUpdateCap hso hmem _ _ _ fun ho htakes _ => ?_)
    obtain ⟨hauth, -, hnewer⟩ := htakes
    have hauth : (c.inodes ino).authCap = some mds := beq_iff_eq.mp hauth
    rcases hnewer with hnone | hnewer
    · have hnone : (c.inodes ino).authCap = none := hnone
      rw [hauth] at hnone
      cases hnone
    · exact hf ho ⟨.inl hauth, by rw [if_neg hpeer]; exact hnewer⟩ (hon.symm.trans ‹_›)

/-! ### Flushes -/

theorem sendCap_caps (i : Inode) (flush : Caps.Mask) :
    (i.sendCap flush).caps = i.caps ∧ (i.sendCap flush).authCap = i.authCap ∧
      (i.sendCap flush).dirtyCaps = i.dirtyCaps ∧ (i.sendCap flush).flushingCaps = i.flushingCaps ∧
      (i.sendCap flush).flushingCapSeq = i.flushingCapSeq ∧ (i.sendCap flush).losses = i.losses ∧
      (i.sendCap flush).ackedTid = i.ackedTid := by
  by_cases hf : flush = ∅
  · rw [hf, Inode.sendCap_empty]
    exact ⟨rfl, rfl, rfl, rfl, rfl, rfl, rfl⟩
  · rw [Inode.sendCap_eq hf]
    exact ⟨rfl, rfl, rfl, rfl, rfl, rfl, rfl⟩

theorem flushCaps_ok : c.flushCaps ino mds = .ok c' ↔
    (c.inodes ino).authCap = some mds ∧ c' = c.setInode ino ((c.inodes ino).sendCap (c.inodes ino).flushingCaps) := by
  simp only [flushCaps, bind_ok, deref_ok, assert_ok, pure_ok, beq_iff_eq]
  constructor
  · rintro ⟨m, hm, -, rfl, rfl⟩
    exact ⟨hm, rfl⟩
  · rintro ⟨hm, rfl⟩
    exact ⟨mds, hm, (), rfl, rfl⟩

theorem Sound.flush (hs : c.Sound) (ino : ℕ) :
    (c.setInode ino ((c.inodes ino).sendCap (c.inodes ino).flushingCaps)).Sound := by
  obtain ⟨hcaps, hauth, -, hflushing, -⟩ := sendCap_caps (c.inodes ino) (c.inodes ino).flushingCaps
  refine hs.setInode (hs.tidy ino).sendFlushing (fun mds hm => ?_) fun mds hin => ?_
  · rw [hcaps]
    exact hs.cap ino mds (hauth ▸ hm)
  · rw [hauth, hflushing]
    exact hs.listed mds ino hin

/-- The inode after `check_caps` with dirty caps: a flush is started and sent. -/
def startedInode (i : Inode) (seq : ℕ) : Inode :=
  Inode.sendCap { i with
    flushingCaps := i.flushingCaps ∪ i.dirtyCaps
    dirtyCaps := ∅
    flushingCapSeq := seq } i.dirtyCaps

def started (c : Client) (ino mds : ℕ) : Client :=
  { (c.pushBack mds ino).setInode ino (startedInode (c.inodes ino) (c.lastFlushSeq + 1)) with
    lastFlushSeq := c.lastFlushSeq + 1
    flushes := ⟨c.lastFlushSeq + 1, ino, (c.inodes ino).dirtyCaps, (c.inodes ino).lastFlushTid + 1,
      (c.inodes ino).losses⟩ :: c.flushes }

theorem checkCaps_ok : c.checkCaps ino = .ok c' ↔ ∃ mds, (c.inodes ino).authCap = some mds ∧
    mds ∈ c.mdsSessions ∧ (c.inodes ino).dirtyCaps ≠ ∅ ∧ c' = c.started ino mds := by
  simp only [checkCaps, markCapsFlushing, bind_ok, deref_ok, assert_ok, pure_ok, decide_eq_true_eq]
  constructor
  · rintro ⟨mds, hauth, -, hmds, c₁, ⟨m, hm, -, hdirty, rfl⟩, rfl⟩
    cases hauth.symm.trans hm
    refine ⟨mds, hauth, hmds, hdirty, ?_⟩
    simp [started, startedInode, setInode, pushBack]
  · rintro ⟨mds, hauth, hmds, hdirty, rfl⟩
    refine ⟨mds, hauth, (), hmds, _, ⟨mds, hauth, (), hdirty, rfl⟩, ?_⟩
    simp [started, startedInode, setInode, pushBack]

theorem Sound.started (hs : c.Sound) (hauth : (c.inodes ino).authCap = some mds) (hmds : mds ∈ c.mdsSessions)
    (hdirty : (c.inodes ino).dirtyCaps ≠ ∅) : (c.started ino mds).Sound := by
  have hpush : ((c.pushBack mds ino).setInode ino (startedInode (c.inodes ino) (c.lastFlushSeq + 1))).Sound := by
    obtain ⟨hcaps', hauth', -, hflushing', -⟩ := sendCap_caps { c.inodes ino with
      flushingCaps := (c.inodes ino).flushingCaps ∪ (c.inodes ino).dirtyCaps
      dirtyCaps := ∅
      flushingCapSeq := c.lastFlushSeq + 1 } (c.inodes ino).dirtyCaps
    refine hs.push hmds ((hs.tidy ino).sendCap _ _ _) (fun m hm => ?_) (hauth'.trans hauth) ?_
    · rw [startedInode, hcaps']
      exact hs.cap ino m (hauth'.symm.trans hm)
    · rw [startedInode, hflushing']
      exact ((Finset.nonempty_iff_ne_empty.mpr hdirty).mono Finset.subset_union_right).ne_empty
  exact ⟨hpush.tidy, hpush.cap, hpush.listed, hpush.session, hpush.nodup⟩

/-- An ack: the inode leaves its list with the last bit. -/
theorem handleCapFlushAck_cases (hs : c.Sound) (ino n : ℕ) (dirty : Caps.Mask) :
    (c.handleCapFlushAck ino n dirty = c.setInode ino ((c.inodes ino).ack n dirty) ∧
      (c.isOnList ino = true → ((c.inodes ino).ack n dirty).flushingCaps ≠ ∅)) ∨
    (c.handleCapFlushAck ino n dirty = (c.removeMyself ino).setInode ino ((c.inodes ino).ack n dirty) ∧
      ((c.inodes ino).ack n dirty).flushingCaps = ∅) := by
  rw [handleCapFlushAck]
  split
  · next h => exact .inr ⟨rfl, h.2.2⟩
  · next h =>
    refine .inl ⟨rfl, fun hon hempty => h ⟨fun hno => ?_, ?_, hempty⟩⟩
    · obtain ⟨mds, hin⟩ := (isOnList_iff hs).mp hon
      refine (hs.listed mds ino hin).2 ?_
      rw [← hempty, Inode.ack, hno, Finset.sdiff_empty]
    · obtain ⟨mds, hin⟩ := (isOnList_iff hs).mp hon
      exact (hs.listed mds ino hin).2

theorem Sound.ack (hs : c.Sound) {n : ℕ} {dirty : Caps.Mask} (hn : ∃ p ∈ (c.inodes ino).sent, p.1 = n ∧ dirty ⊆ p.2) :
    (c.handleCapFlushAck ino n dirty).Sound := by
  have htidy := (hs.tidy ino).ack hn
  rcases handleCapFlushAck_cases hs ino n dirty with ⟨heq, hne⟩ | ⟨heq, -⟩
  · rw [heq]
    exact hs.setInode htidy (hs.cap ino) fun mds hin =>
      ⟨(hs.listed mds ino hin).1, hne ((isOnList_iff hs).mpr ⟨mds, hin⟩)⟩
  · rw [heq]
    exact hs.drop htidy (hs.cap ino)

/-! ### The end of a session -/

theorem removeSessionCap_cases (i : Inode) (mds : ℕ) :
    (i.authCap = some mds ∧ removeSessionCap i mds = { i with
      caps := i.caps.erase mds, authCap := none, dirtyCaps := ∅, flushingCaps := ∅, losses := i.losses + 1 }) ∨
    (i.authCap ≠ some mds ∧ removeSessionCap i mds = { i with caps := i.caps.erase mds }) := by
  rw [removeSessionCap]
  split
  · next h => exact .inl ⟨h, rfl⟩
  · next h => exact .inr ⟨h, rfl⟩

theorem mem_closedMdsSession {k m : ℕ} :
    k ∈ (c.closedMdsSession m).flushingCaps mds ↔ k ∈ c.flushingCaps mds ∧ (c.inodes k).authCap ≠ some m := by
  simp [closedMdsSession]

theorem Sound.closed (hs : c.Sound) (m : ℕ) : (c.closedMdsSession m).Sound where
  tidy k := by
    show (removeSessionCap (c.inodes k) m).Tidy
    rcases removeSessionCap_cases (c.inodes k) m with ⟨-, heq⟩ | ⟨-, heq⟩
    · rw [heq]
      exact (hs.tidy k).lost
    · rw [heq]
      exact (hs.tidy k).of_caps
  cap k mds := by
    show (removeSessionCap (c.inodes k) m).authCap = some mds → mds ∈ (removeSessionCap (c.inodes k) m).caps
    rcases removeSessionCap_cases (c.inodes k) m with ⟨-, heq⟩ | ⟨hne, heq⟩
    · rw [heq]
      exact fun h => by cases h
    · rw [heq]
      refine fun hm => Std.ExtTreeMap.mem_erase.mpr ⟨fun hmm => hne ?_, hs.cap k mds hm⟩
      rw [Nat.compare_eq_eq.mp hmm]
      exact hm
  listed mds k hin := by
    obtain ⟨hin, hne⟩ := mem_closedMdsSession.mp hin
    show (removeSessionCap (c.inodes k) m).authCap = some mds ∧ (removeSessionCap (c.inodes k) m).flushingCaps ≠ ∅
    rcases removeSessionCap_cases (c.inodes k) m with ⟨heq, -⟩ | ⟨-, heq⟩
    · exact absurd heq hne
    · rw [heq]
      exact hs.listed mds k hin
  session mds k hin := by
    obtain ⟨hin, hne⟩ := mem_closedMdsSession.mp hin
    refine Finset.mem_erase.mpr ⟨fun hm => hne ?_, hs.session mds k hin⟩
    rw [← hm]
    exact (hs.listed mds k hin).1
  nodup mds := (hs.nodup mds).filter _

/-! ### Steps -/

/-- What the steps of a client keep; with `orderly`, its orderly steps. -/
structure Stable (orderly : Prop) (P : Client → Prop) : Prop where
  sound : ∀ {c}, P c → c.Sound
  openSession : ∀ {c} mds, P c → P (c.openSession mds)
  closed : ∀ {c} mds, P c → P (c.closedMdsSession mds)
  handover : ∀ {c c' ino}, P c → Handover orderly c ino c' → P c'
  dirty : ∀ {c} ino caps, P c → P (c.markCapsDirty ino caps)
  flushSnap : ∀ {c} ino, P c → P (c.flushSnap ino)
  flush : ∀ {c} ino, P c → P (c.setInode ino ((c.inodes ino).sendCap (c.inodes ino).flushingCaps))
  started : ∀ {c ino mds}, P c → (c.inodes ino).authCap = some mds → mds ∈ c.mdsSessions →
    (c.inodes ino).dirtyCaps ≠ ∅ → (orderly → (c.inodes ino).flushingCaps = ∅) → P (c.started ino mds)
  ack : ∀ {c ino n dirty}, P c → (∃ p ∈ (c.inodes ino).sent, p.1 = n ∧ dirty ⊆ p.2) →
    (orderly → (c.inodes ino).lastFlushTid < n + 2 ^ 16) → P (c.handleCapFlushAck ino n dirty)

/-- The conditions on a step: a flush is started only where none is under way, an ack is less than
`2 ^ 16` flushes old, an inode comes to another list behind smaller numbers, and the auth cap of an
inode on a list is removed only with its session. -/
def Orderly (c : Client) : Action → Prop
  | .checkCaps ino => (c.inodes ino).flushingCaps = ∅
  | .flushAck ino _ n _ => (c.inodes ino).lastFlushTid < n + 2 ^ 16
  | .addUpdateCap ino mds _ auth newer => c.Takes ino mds auth newer → c.Follows ino mds
  | .handleCapImport ino mds issued newer peer => (c.Takes ino mds true newer → c.Follows ino mds) ∧
      ∀ p ∈ peer, (c.addUpdateCap ino mds issued true newer).Spares ino p
  | .handleCapExport ino mds none _ _ => c.Spares ino mds
  | .handleCapExport ino mds (some peer) newer newerAuth =>
      (c.Exports ino mds peer newer newerAuth → c.Follows ino peer) ∧
        (c.exportTo ino mds peer newer newerAuth).Spares ino mds
  | .removeCap ino mds => c.Spares ino mds
  | _ => True

instance : Decidable (Follows c ino mds) := inferInstanceAs (Decidable (_ → _))
instance : Decidable (Spares c ino mds) := inferInstanceAs (Decidable (_ → _))

instance {auth newer : Bool} : Decidable (Takes c ino mds auth newer) := inferInstanceAs (Decidable (_ ∧ _))

instance {peer : ℕ} {newer newerAuth : Bool} : Decidable (Exports c ino mds peer newer newerAuth) :=
  inferInstanceAs (Decidable (_ ∧ _))

instance decidableOrderly (c : Client) : ∀ a, Decidable (c.Orderly a)
  | .checkCaps ino => inferInstanceAs (Decidable ((c.inodes ino).flushingCaps = ∅))
  | .flushAck _ _ _ _ => inferInstanceAs (Decidable (_ < _))
  | .addUpdateCap _ _ _ _ _ => inferInstanceAs (Decidable (_ → _))
  | .handleCapImport _ _ _ _ _ => inferInstanceAs (Decidable (_ ∧ _))
  | .handleCapExport ino mds none _ _ => inferInstanceAs (Decidable (c.Spares ino mds))
  | .handleCapExport _ _ (some _) _ _ => inferInstanceAs (Decidable (_ ∧ _))
  | .removeCap ino mds => inferInstanceAs (Decidable (c.Spares ino mds))
  | .openSession _ | .closedMdsSession _ | .setImplemented _ _ _ | .markCapsDirty _ _ | .flushSnap _
  | .kickFlushingCaps _ => .isTrue trivial

variable {P : Client → Prop} {a : Action}

theorem Stable.removePeer (h : Stable orderly P) (hc : P c) {peer : Option ℕ}
    (hsp : orderly → ∀ p ∈ peer, c.Spares ino p) (hr : c.removePeer ino peer = .ok c') : P c' := by
  cases peer with
  | none =>
    cases hr
    exact hc
  | some p =>
    rcases ite_ok.mp hr with ⟨-, hr⟩ | ⟨-, hr⟩
    · exact h.handover hc (handover_removeCap (h.sound hc) (fun ho => hsp ho p rfl) hr)
    · cases hr
      exact hc

theorem Stable.flushCaps (h : Stable orderly P) (hc : P c) (hr : c.flushCaps ino mds = .ok c') : P c' := by
  obtain ⟨-, rfl⟩ := flushCaps_ok.mp hr
  exact h.flush ino hc

theorem Stable.handleCapImport (h : Stable orderly P) (hc : P c) (hmds : mds ∈ c.mdsSessions) {issued : Caps.Mask}
    {newer : Bool} {peer : Option ℕ} (ho : orderly → c.Orderly (.handleCapImport ino mds issued newer peer))
    (hr : c.handleCapImport ino mds issued newer peer = .ok c') : P c' := by
  obtain ⟨c₁, h₁, hr⟩ := bind_ok.mp hr
  have hadd := h.handover hc (handover_addUpdateCap (h.sound hc) hmds issued true newer fun o => (ho o).1)
  have hc₁ := h.removePeer hadd (fun o => (ho o).2) h₁
  rcases ite_ok.mp hr with ⟨-, hr⟩ | ⟨-, hr⟩
  · exact h.flushCaps hc₁ hr
  · cases hr
    exact hc₁

theorem Stable.handleCapExport (h : Stable orderly P) (hc : P c) {peer : Option ℕ} {newer newerAuth : Bool}
    (ho : orderly → c.Orderly (.handleCapExport ino mds peer newer newerAuth))
    (hr : c.handleCapExport ino mds peer newer newerAuth = .ok c') : P c' := by
  rcases ite_ok.mp hr with ⟨-, hr⟩ | ⟨-, hr⟩
  · cases peer with
    | none => exact h.handover hc (handover_removeCap (h.sound hc) ho hr)
    | some peer =>
      have hexport : P (c.exportTo ino mds peer newer newerAuth) := by
        rcases handover_exportTo (h.sound hc) fun o => (ho o).1 with heq | hover
        · rw [heq]
          exact h.openSession peer hc
        · exact h.handover (h.openSession peer hc) hover
      exact h.handover hexport (handover_removeCap (h.sound hexport) (fun o => (ho o).2) hr)
  · cases hr
    exact hc

theorem Stable.step (h : Stable orderly P) (hc : P c) (ho : orderly → c.Orderly a) (hr : c.step a = some c') : P c' := by
  cases a with
  | openSession mds =>
    cases hr
    exact h.openSession mds hc
  | closedMdsSession mds =>
    cases hr
    exact h.closed mds hc
  | setImplemented ino mds implemented =>
    rw [Client.step, Option.ite_none_right_eq_some] at hr
    obtain ⟨-, hr⟩ := hr
    cases hr
    exact h.handover hc (.keep _ _
      (fun m hm => Std.ExtTreeMap.mem_insert.mpr (.inr ((h.sound hc).cap ino m hm))) (.inl rfl))
  | markCapsDirty ino caps =>
    cases hr
    exact h.dirty ino caps hc
  | checkCaps ino =>
    obtain ⟨mds, hauth, hmds, hdirty, rfl⟩ := checkCaps_ok.mp (toOption_eq_some.mp hr)
    exact h.started hc hauth hmds hdirty ho
  | flushSnap ino =>
    cases hr
    exact h.flushSnap ino hc
  | flushAck ino mds n dirty =>
    rw [Client.step, Option.ite_none_right_eq_some] at hr
    obtain ⟨⟨-, hsent⟩, hr⟩ := hr
    cases hr
    exact h.ack hc hsent ho
  | addUpdateCap ino mds issued auth newer =>
    rw [Client.step, Option.ite_none_right_eq_some] at hr
    obtain ⟨hmds, hr⟩ := hr
    cases hr
    exact h.handover hc (handover_addUpdateCap (h.sound hc) hmds issued auth newer ho)
  | handleCapImport ino mds issued newer peer =>
    rw [Client.step, Option.ite_none_right_eq_some] at hr
    exact h.handleCapImport hc hr.1 ho (toOption_eq_some.mp hr.2)
  | handleCapExport ino mds peer newer newerAuth => exact h.handleCapExport hc ho (toOption_eq_some.mp hr)
  | removeCap ino mds => exact h.handover hc (handover_removeCap (h.sound hc) ho (toOption_eq_some.mp hr))
  | kickFlushingCaps mds =>
    refine foldlM_invariant (fun c k c' _ hc hk => ?_) hc (toOption_eq_some.mp hr)
    rcases ite_ok.mp hk with ⟨-, hk⟩ | ⟨-, hk⟩
    · exact h.flushCaps hc hk
    · cases hk
      exact hc

theorem stable_sound : Stable False Sound where
  sound hc := hc
  openSession mds hc := hc.openSession mds
  closed mds hc := hc.closed mds
  handover hc h := h.sound hc
  dirty ino _ hc := hc.setInode (hc.tidy ino).of_caps (hc.cap ino) fun mds => hc.listed mds ino
  flushSnap ino hc := hc.setInode (hc.tidy ino).flushSnap (hc.cap ino) fun mds => hc.listed mds ino
  flush ino hc := hc.flush ino
  started hc hauth hmds hdirty _ := hc.started hauth hmds hdirty
  ack hc hn _ := hc.ack hn

theorem step_sound (hc : c.Sound) (hr : c.step a = some c') : c'.Sound :=
  stable_sound.step hc (fun h => h.elim) hr

theorem sound_of_run {as : List Action} (hr : run Client.step .initial as = some c) : c.Sound :=
  run_invariant (fun _ _ _ hc hr => step_sound hc hr) sound_initial hr

/-! ## The order of the lists -/

/-- The flush is acknowledged, or its inode is on a list with its number. -/
def Awaits (c : Client) (F : Flush) : Prop :=
  (c.inodes F.ino).Done F ∨ (c.inodes F.ino).Pending F ∧ ∃ mds, F.ino ∈ c.flushingCaps mds

structure Ordered (c : Client) : Prop extends Sound c where
  sorted : ∀ mds, (c.flushingCaps mds).Pairwise fun j k =>
    (c.inodes j).flushingCapSeq < (c.inodes k).flushingCapSeq
  seq_le : ∀ ino, (c.inodes ino).flushingCapSeq ≤ c.lastFlushSeq
  awaits : ∀ F ∈ c.flushes, c.Awaits F

theorem ordered_initial : initial.Ordered where
  toSound := sound_initial
  sorted _ := List.Pairwise.nil
  seq_le _ := le_rfl
  awaits _ h := absurd h List.not_mem_nil

/-- A step that forgets no flush, and takes inodes only off a list if they have nothing to flush. -/
theorem Ordered.of_keeps (h : c.Ordered) (hs : c'.Sound) (hk : ∀ k, (c.inodes k).Keeps (c'.inodes k))
    (hlist : ∀ mds, ∀ k ∈ c.flushingCaps mds, (∃ mds, k ∈ c'.flushingCaps mds) ∨ (c'.inodes k).flushingCaps = ∅)
    (hsorted : ∀ mds, (c'.flushingCaps mds).Pairwise fun j k =>
      (c.inodes j).flushingCapSeq < (c.inodes k).flushingCapSeq)
    (hlast : c'.lastFlushSeq = c.lastFlushSeq) (hflushes : c'.flushes = c.flushes) : c'.Ordered where
  toSound := hs
  sorted mds := (hsorted mds).imp fun {j k} hjk => by rwa [(hk j).seq, (hk k).seq]
  seq_le k := by
    rw [(hk k).seq, hlast]
    exact h.seq_le k
  awaits F hF := by
    rcases h.awaits F (hflushes ▸ hF) with hd | ⟨hp, mds, hin⟩
    · exact .inl ((hk _).done hd)
    · have hp := (hk _).pending hp
      rcases hlist mds _ hin with hin | hempty
      · exact .inr ⟨hp, hin⟩
      · exact .inl (hp.done hempty)

theorem keeps_setInode (hk : (c.inodes ino).Keeps i) (k : ℕ) : (c.inodes k).Keeps ((c.setInode ino i).inodes k) := by
  by_cases h : k = ino
  · rwa [h, setInode_self]
  · rw [setInode_of_ne h]
    exact .of_caps

theorem Ordered.setInode (h : c.Ordered) (hs : (c.setInode ino i).Sound) (hk : (c.inodes ino).Keeps i) :
    (c.setInode ino i).Ordered :=
  h.of_keeps hs (keeps_setInode hk) (fun mds _ hin => .inl ⟨mds, hin⟩) h.sorted rfl rfl

theorem Ordered.drop (h : c.Ordered) (hs : ((c.removeMyself ino).setInode ino i).Sound) (hk : (c.inodes ino).Keeps i)
    (hoff : c.isOnList ino = true → i.flushingCaps = ∅) : ((c.removeMyself ino).setInode ino i).Ordered := by
  refine h.of_keeps hs (keeps_setInode hk) (fun mds k hin => ?_) (fun mds => (h.sorted mds).filter _) rfl rfl
  by_cases hkino : k = ino
  · subst hkino
    rw [setInode_self]
    exact .inr (hoff ((isOnList_iff h.toSound).mpr ⟨mds, hin⟩))
  · exact .inl ⟨mds, mem_removeMyself.mpr ⟨hin, hkino⟩⟩

theorem pairwise_pushBack {R : ℕ → ℕ → Prop} (h : ∀ m, (c.flushingCaps m).Pairwise R)
    (hR : ∀ k ∈ c.flushingCaps mds, k ≠ ino → R k ino) (m : ℕ) : ((c.pushBack mds ino).flushingCaps m).Pairwise R := by
  refine List.pairwise_append.mpr ⟨(h m).filter _, ?_, fun k hk l hl => ?_⟩
  · split
    · exact List.pairwise_singleton _ _
    · exact List.Pairwise.nil
  · rw [List.mem_filter, bne_iff_ne] at hk
    split at hl
    · next hm =>
      rw [List.mem_singleton.mp hl]
      exact hR k (hm ▸ hk.1) hk.2
    · cases hl

theorem Ordered.handover (h : c.Ordered) (hover : Handover True c ino c') : c'.Ordered := by
  have hs := hover.sound h.toSound
  cases hover with
  | keep caps authCap => exact h.setInode hs .of_caps
  | move caps mds hcap hmds hon hfollows =>
    refine h.of_keeps hs (keeps_setInode .of_caps) (fun m k hin => ?_)
      (pairwise_pushBack h.sorted (hfollows trivial hon)) rfl rfl
    by_cases hk : k = ino
    · exact .inl ⟨mds, mem_pushBack.mpr (.inr ⟨rfl, hk⟩)⟩
    · exact .inl ⟨m, mem_pushBack.mpr (.inl ⟨hin, hk⟩)⟩
  | drop caps hoff =>
    refine h.drop hs .of_caps fun hon => ?_
    rw [hoff trivial] at hon
    cases hon

theorem Ordered.closed (h : c.Ordered) (m : ℕ) : (c.closedMdsSession m).Ordered where
  toSound := h.toSound.closed m
  sorted mds := by
    refine ((h.sorted mds).filter _).imp fun {j k} hjk => ?_
    have hseq : ∀ k, (removeSessionCap (c.inodes k) m).flushingCapSeq = (c.inodes k).flushingCapSeq := fun k => by
      rw [removeSessionCap]
      split <;> rfl
    show (removeSessionCap _ m).flushingCapSeq < (removeSessionCap _ m).flushingCapSeq
    rwa [hseq, hseq]
  seq_le k := by
    show (removeSessionCap (c.inodes k) m).flushingCapSeq ≤ c.lastFlushSeq
    rw [removeSessionCap]
    split
    · exact h.seq_le k
    · exact h.seq_le k
  awaits F hF := by
    rcases removeSessionCap_cases (c.inodes F.ino) m with ⟨-, heq⟩ | ⟨hne, heq⟩
    · left
      show (removeSessionCap (c.inodes F.ino) m).Done F
      rw [heq]
      rcases h.awaits F hF with hd | ⟨hp, -⟩
      · exact hd.imp_right fun hl => Nat.lt_succ_of_lt hl
      · exact .inr (Nat.lt_succ_of_le hp.losses)
    · have hk : (c.inodes F.ino).Keeps (removeSessionCap (c.inodes F.ino) m) := by
        rw [heq]
        exact .of_caps
      exact (h.awaits F hF).imp (fun hd => hk.done hd) fun hp =>
        ⟨hk.pending hp.1, hp.2.imp fun mds hin => mem_closedMdsSession.mpr ⟨hin, hne⟩⟩

/-- A new flush has the greatest number, and goes to the end of a list. -/
theorem Ordered.started (h : c.Ordered) (hauth : (c.inodes ino).authCap = some mds) (hmds : mds ∈ c.mdsSessions)
    (hdirty : (c.inodes ino).dirtyCaps ≠ ∅) (hnone : (c.inodes ino).flushingCaps = ∅) : (c.started ino mds).Ordered := by
  have hs := h.toSound.started hauth hmds hdirty
  obtain ⟨-, -, -, hflushing, hseq, hlosses, hacked⟩ := sendCap_caps { c.inodes ino with
    flushingCaps := (c.inodes ino).flushingCaps ∪ (c.inodes ino).dirtyCaps
    dirtyCaps := ∅
    flushingCapSeq := c.lastFlushSeq + 1 } (c.inodes ino).dirtyCaps
  have hself : (c.started ino mds).inodes ino = startedInode (c.inodes ino) (c.lastFlushSeq + 1) := setInode_self _ _ _
  have hother : ∀ k, k ≠ ino → (c.started ino mds).inodes k = c.inodes k := fun k hk => setInode_of_ne hk _ _
  have hlist : ∀ m k, k ∈ c.flushingCaps m → k ≠ ino → k ∈ (c.started ino mds).flushingCaps m := fun m k hin hk =>
    mem_pushBack.mpr (.inl ⟨hin, hk⟩)
  refine ⟨hs, fun m => ?_, fun k => ?_, fun F hF => ?_⟩
  · refine pairwise_pushBack (fun m => ?_) (fun k _ hk => ?_) m
    · -- on the old lists the inode is nowhere, as it had nothing to flush
      refine (h.sorted m).imp_of_mem fun {j k} hj hk hjk => ?_
      have hne : ∀ k ∈ c.flushingCaps m, k ≠ ino := fun k hk heq => (h.listed m k hk).2 (heq ▸ hnone)
      rwa [hother j (hne j hj), hother k (hne k hk)]
    · rw [hother k hk, hself, startedInode, hseq]
      exact Nat.lt_succ_of_le (h.seq_le k)
  · by_cases hk : k = ino
    · rw [hk, hself, startedInode, hseq]
      exact le_rfl
    · rw [hother k hk]
      exact Nat.le_succ_of_le (h.seq_le k)
  · rcases List.mem_cons.mp hF with rfl | hF
    · refine .inr ⟨?_, mds, mem_pushBack.mpr (.inr ⟨rfl, rfl⟩)⟩
      rw [hself, startedInode]
      refine ⟨hseq, hlosses.ge, fun b hb _ => ⟨?_, ?_⟩⟩
      · rw [hflushing]
        exact Finset.mem_union_right _ hb
      · rw [Inode.sendCap_eq hdirty]
        dsimp only
        rw [if_pos hb]
    · by_cases hk : F.ino = ino
      · left
        have hd : (c.inodes ino).Done F := by
          rcases h.awaits F hF with hd | ⟨hp, -⟩
          · exact hk ▸ hd
          · exact (hk ▸ hp).done hnone
        rw [hk, hself, startedInode, Inode.Done, hacked, hlosses]
        exact hd
      · rw [Awaits, hother _ hk]
        exact (h.awaits F hF).imp_right fun hp => ⟨hp.1, hp.2.imp fun m hin => hlist m _ hin hk⟩

theorem stable_ordered : Stable True Ordered where
  sound hc := hc.toSound
  openSession mds hc := ⟨hc.toSound.openSession mds, hc.sorted, hc.seq_le, hc.awaits⟩
  closed mds hc := hc.closed mds
  handover hc h := hc.handover h
  dirty ino caps hc := hc.setInode (stable_sound.dirty ino caps hc.toSound) .of_caps
  flushSnap ino hc := hc.setInode (stable_sound.flushSnap ino hc.toSound) .of_caps
  flush ino hc := hc.setInode (hc.toSound.flush ino) ((hc.tidy ino).keeps_sendCap _)
  started hc hauth hmds hdirty hnone := hc.started hauth hmds hdirty (hnone trivial)
  ack {c ino n dirty} hc hn hfresh := by
    have hs := hc.toSound.ack hn
    have hk := (hc.tidy ino).keeps_ack hn (hfresh trivial)
    rcases handleCapFlushAck_cases hc.toSound ino n dirty with ⟨heq, -⟩ | ⟨heq, hempty⟩
    · rw [heq] at hs ⊢
      exact hc.setInode hs hk
    · rw [heq] at hs ⊢
      exact hc.drop hs hk fun _ => hempty

/-- Where the lists are ordered, the front of a list is enough. -/
theorem Ordered.done_of_wait (h : c.Ordered) {want : ℕ} (hw : c.waitSyncCaps want = true) {F : Flush} (hF : F ∈ c.flushes)
    (hseq : F.seq ≤ want) : (c.inodes F.ino).Done F := by
  rcases h.awaits F hF with hd | ⟨hp, mds, hin⟩
  · exact hd
  · rw [waitSyncCaps, decide_eq_true_eq] at hw
    have hw := hw mds (h.session mds _ hin)
    have hsorted := h.sorted mds
    cases hl : c.flushingCaps mds with
    | nil =>
      rw [hl] at hin
      cases hin
    | cons front l =>
      rw [hl] at hw hin hsorted
      have hfront : want < (c.inodes front).flushingCapSeq := hw front rfl
      have hle : (c.inodes front).flushingCapSeq ≤ (c.inodes F.ino).flushingCapSeq := by
        rcases List.mem_cons.mp hin with heq | hin
        · rw [heq]
        · exact ((List.pairwise_cons.mp hsorted).1 _ hin).le
      rw [hp.seq] at hle
      exact absurd (hfront.trans_le hle) (not_lt.mpr hseq)

end Client

/-- In a run of orderly steps, `wait_sync_caps` returns only after every flush
up to the number is acknowledged, or the session of its auth cap was lost. -/
theorem waits {as : List Action} {want : ℕ} (hr : run Client.step .initial as = some c)
    (ho : Meets Client.step Client.Orderly .initial as) (hw : c.waitSyncCaps want = true) :
    ∀ F ∈ c.flushes, F.seq ≤ want → (c.inodes F.ino).Done F := by
  have h : c.Ordered := run_invariant_of (fun _ _ _ hc hok hr => Client.stable_ordered.step hc (fun _ => hok) hr)
    Client.ordered_initial ho hr
  exact fun F hF hseq => h.done_of_wait hw hF hseq

/-- One session, and an inode whose bit 3 is flushed. -/
def oneFlush : List Action :=
  [.openSession 0, .addUpdateCap 5 0 {Caps.authExcl} true true, .markCapsDirty 5 {Caps.authExcl}, .checkCaps 5]

instance (i : Inode) (F : Flush) : Decidable (i.Done F) := inferInstanceAs (Decidable (_ ∨ _))

/-- Inodes 5 and 6 have their caps from rank 0, and 7 from rank 1. All are flushed, and the
flushes of 5 and 7 are acknowledged. -/
def threeFlushes : List Action :=
  [.openSession 0, .openSession 1, .addUpdateCap 5 0 {Caps.authExcl} true true,
    .addUpdateCap 6 0 {Caps.authExcl} true true, .addUpdateCap 7 1 {Caps.authExcl} true true,
    .markCapsDirty 5 {Caps.authExcl}, .checkCaps 5, .markCapsDirty 7 {Caps.authExcl}, .checkCaps 7,
    .markCapsDirty 6 {Caps.authExcl}, .checkCaps 6, .flushAck 7 1 1 {Caps.authExcl}, .flushAck 5 0 1 {Caps.authExcl}]

theorem waits_threeFlushes : ∃ c, run Client.step .initial threeFlushes = some c ∧ c.flushingCaps 0 = [6] ∧
    c.waitSyncCaps 2 = true ∧ ∀ F ∈ c.flushes, F.seq ≤ 2 → (c.inodes F.ino).Done F := by
  have hrun : (run Client.step .initial threeFlushes).map (fun c => (c.waitSyncCaps 2, c.flushingCaps 0)) =
      some (true, [6]) := by
    decide +kernel
  obtain ⟨c, hc, hw⟩ := Option.map_eq_some_iff.mp hrun
  obtain ⟨hw, hl⟩ := Prod.mk.inj hw
  exact ⟨c, hc, hl, hw, waits hc (by decide +kernel) hw⟩

/-- The inode is flushed again before the ack of its first flush. -/
theorem not_waits : ∃ c, run Client.step .initial (oneFlush ++ [.markCapsDirty 5 {3}, .checkCaps 5]) = some c ∧
    c.waitSyncCaps 1 = true ∧ ∃ F ∈ c.flushes, F.seq ≤ 1 ∧ ¬ (c.inodes F.ino).Done F := by
  have hrun : (run Client.step .initial (oneFlush ++ [.markCapsDirty 5 {3}, .checkCaps 5])).map
      (fun c => (c.waitSyncCaps 1, decide (∃ F ∈ c.flushes, F.seq ≤ 1 ∧ ¬ (c.inodes F.ino).Done F))) =
        some (true, true) := by
    decide +kernel
  obtain ⟨c, hc, heq⟩ := Option.map_eq_some_iff.mp hrun
  obtain ⟨hw, hF⟩ := Prod.mk.inj heq
  exact ⟨c, hc, hw, of_decide_eq_true hF⟩

end CephMds.SyncCaps
