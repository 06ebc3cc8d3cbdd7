import CephMds.Framework.Maxima
import CephMds.Model.FileBits
import Mathlib

/-!
# Attributes merge independently of their order

An update takes the maximum of `(truncate_seq, size)`, of `ctime` and of each
time under its `time_warp_seq`, so a list of updates does too
(`Maxima.isGreatest_foldl`). For the times this needs one of `timeCaps`: without
them the values of the message are taken, also those of `ctime` that are older.
-/

namespace CephMds.FileBits

open Caps Inode Maxima

variable {i : Inode} {u : Update} {issued : Mask} {us vs : List (Update × Mask)}

/-! ## Keys -/

def Inode.seqSize (i : Inode) : ℕ ×ₗ ℕ := toLex (i.truncateSeq, i.size)
def Inode.warpMtime (i : Inode) : ℕ ×ₗ Utime := toLex (i.timeWarpSeq, i.mtime)
def Inode.warpAtime (i : Inode) : ℕ ×ₗ Utime := toLex (i.timeWarpSeq, i.atime)

def Update.seqSize (u : Update) : ℕ ×ₗ ℕ := toLex (u.truncateSeq, u.size)
def Update.warpMtime (u : Update) : ℕ ×ₗ Utime := toLex (u.timeWarpSeq, u.mtime)
def Update.warpAtime (u : Update) : ℕ ×ₗ Utime := toLex (u.timeWarpSeq, u.atime)

/-- The times of an inode. -/
def Inode.times (i : Inode) : ℕ × Utime × Utime × Utime := (i.timeWarpSeq, i.ctime, i.mtime, i.atime)

/-- What only `updateTruncateSize` changes. -/
def Inode.truncated (i : Inode) : Bool × ℕ := (i.isFile, i.truncateSize)

/-! ## One update -/

theorem updateInline_keeps (i : Inode) (u : Update) : (i.updateInline u).times = i.times ∧
    (i.updateInline u).truncated = i.truncated ∧ (i.updateInline u).seqSize = i.seqSize := by
  rw [updateInline]
  split <;> exact ⟨rfl, rfl, rfl⟩

theorem truncateInline_keeps (i : Inode) (u : Update) : (i.truncateInline u).times = i.times ∧
    (i.truncateInline u).truncated = i.truncated ∧ (i.truncateInline u).seqSize = i.seqSize := by
  rw [truncateInline]
  split <;> exact ⟨rfl, rfl, rfl⟩

theorem updateSize_keeps (i : Inode) (u : Update) :
    (i.updateSize u).times = i.times ∧ (i.updateSize u).truncated = i.truncated := by
  rw [updateSize]
  split
  · obtain ⟨ht, hf, -⟩ := truncateInline_keeps
      (updateTruncateSeq { i with size := u.size, reportedSize := u.size } u i.size) u
    refine ⟨ht.trans ?_, hf.trans ?_⟩
    · rw [updateTruncateSeq]
      split <;> rfl
    · rw [updateTruncateSeq]
      split <;> rfl
  · exact ⟨rfl, rfl⟩

theorem updateSize_seqSize (i : Inode) (u : Update) : (i.updateSize u).seqSize = max i.seqSize u.seqSize := by
  have hlt : i.seqSize < u.seqSize ↔
      i.truncateSeq < u.truncateSeq ∨ u.truncateSeq = i.truncateSeq ∧ i.size < u.size := by
    rw [Inode.seqSize, Update.seqSize, Prod.Lex.toLex_lt_toLex, eq_comm (a := u.truncateSeq)]
  rw [updateSize]
  split
  · rename_i h
    rw [max_eq_right (hlt.mpr h).le, (truncateInline_keeps _ u).2.2, updateTruncateSeq]
    split
    · rfl
    · rename_i heq
      rw [ne_eq, not_not] at heq
      rw [Inode.seqSize, Update.seqSize, heq]
  · rename_i h
    rw [max_eq_left (not_lt.mp (mt hlt.mp h))]

theorem updateTruncateSize_keeps (i : Inode) (u : Update) : (i.updateTruncateSize u).times = i.times ∧
    (i.updateTruncateSize u).seqSize = i.seqSize ∧ (i.updateTruncateSize u).isFile = i.isFile := by
  rw [updateTruncateSize]
  split <;> exact ⟨rfl, rfl, rfl⟩

theorem takeCtime_eq (i : Inode) (u : Update) : i.takeCtime u = { i with ctime := max i.ctime u.ctime } := by
  rw [takeCtime]
  split
  · rename_i hlt
    rw [max_eq_right hlt.le]
  · rename_i hlt
    rw [max_eq_left (not_lt.mp hlt)]

theorem takeMtime_eq (i : Inode) (u : Update) : i.takeMtime u = { i with mtime := max i.mtime u.mtime } := by
  rw [takeMtime]
  split
  · rename_i hlt
    rw [max_eq_right hlt.le]
  · rename_i hlt
    rw [max_eq_left (not_lt.mp hlt)]

theorem takeAtime_eq (i : Inode) (u : Update) : i.takeAtime u = { i with atime := max i.atime u.atime } := by
  rw [takeAtime]
  split
  · rename_i hlt
    rw [max_eq_right hlt.le]
  · rename_i hlt
    rw [max_eq_left (not_lt.mp hlt)]

theorem updateTimes_keeps (i : Inode) (u : Update) (issued : Mask) :
    (i.updateTimes u issued).truncated = i.truncated ∧ (i.updateTimes u issued).seqSize = i.seqSize := by
  rw [updateTimes]
  split
  · simp only [takeCtime_eq, takeMtime_eq, takeAtime_eq]
    split
    · exact ⟨rfl, rfl⟩
    · split <;> exact ⟨rfl, rfl⟩
  · split <;> exact ⟨rfl, rfl⟩

/-- With one of the caps, each time is a maximum. -/
theorem updateTimes_max (h : (issued ∩ timeCaps).Nonempty) : (i.updateTimes u issued).ctime = max i.ctime u.ctime ∧
    (i.updateTimes u issued).warpMtime = max i.warpMtime u.warpMtime ∧
    (i.updateTimes u issued).warpAtime = max i.warpAtime u.warpAtime := by
  simp only [Inode.warpMtime, Inode.warpAtime, Update.warpMtime, Update.warpAtime, max_toLex]
  simp only [updateTimes, if_pos h, takeCtime_eq, takeMtime_eq, takeAtime_eq]
  rcases lt_trichotomy i.timeWarpSeq u.timeWarpSeq with hlt | heq | hgt
  · simp only [if_pos hlt, and_self]
  · simp only [heq, lt_irrefl, if_false, if_true, and_self]
  · simp only [if_neg hgt.not_gt, if_neg hgt.ne, and_self]

theorem update_seqSize (i : Inode) (u : Update) (issued : Mask) :
    (i.updateInodeFileBits u issued).seqSize = max i.seqSize u.seqSize := by
  rw [updateInodeFileBits, (updateTimes_keeps _ u issued).2, (updateTruncateSize_keeps _ u).2.1, updateSize_seqSize,
    (updateInline_keeps i u).2.2]

theorem update_times (h : (issued ∩ timeCaps).Nonempty) :
    (i.updateInodeFileBits u issued).ctime = max i.ctime u.ctime ∧
      (i.updateInodeFileBits u issued).warpMtime = max i.warpMtime u.warpMtime ∧
      (i.updateInodeFileBits u issued).warpAtime = max i.warpAtime u.warpAtime := by
  have ht : (((i.updateInline u).updateSize u).updateTruncateSize u).times = i.times := by
    rw [(updateTruncateSize_keeps _ u).1, (updateSize_keeps _ u).1, (updateInline_keeps i u).1]
  simp only [Inode.times, Prod.mk.injEq] at ht
  have hmax := updateTimes_max (i := ((i.updateInline u).updateSize u).updateTruncateSize u) (u := u) h
  simp only [Inode.warpMtime, Inode.warpAtime, ht] at hmax ⊢
  exact hmax

theorem update_isFile (i : Inode) (u : Update) (issued : Mask) :
    (i.updateInodeFileBits u issued).isFile = i.isFile := by
  have h₁ := congrArg Prod.fst (updateTimes_keeps (((i.updateInline u).updateSize u).updateTruncateSize u) u issued).1
  have h₂ := congrArg Prod.fst (updateSize_keeps (i.updateInline u) u).2
  have h₃ := congrArg Prod.fst (updateInline_keeps i u).2.1
  exact h₁.trans ((updateTruncateSize_keeps _ u).2.2.trans (h₂.trans h₃))

/-- The `truncate_size` of a file is taken with a `truncate_seq` that is not older. -/
theorem update_truncateSize (hf : i.isFile = true) (u : Update) (issued : Mask) :
    (i.updateInodeFileBits u issued).truncateSize =
      if i.truncateSeq ≤ u.truncateSeq then u.truncateSize else i.truncateSize := by
  set j := (i.updateInline u).updateSize u with hj
  have htrunc : j.truncated = i.truncated := (updateSize_keeps _ u).2.trans (updateInline_keeps i u).2.1
  simp only [Inode.truncated, Prod.mk.injEq] at htrunc
  have hseq : j.seqSize = max i.seqSize u.seqSize := by
    rw [hj, updateSize_seqSize, (updateInline_keeps i u).2.2]
  have hle : j.truncateSeq ≤ u.truncateSeq ↔ i.truncateSeq ≤ u.truncateSeq := by
    rw [Inode.seqSize, Inode.seqSize, Update.seqSize, max_toLex] at hseq
    split at hseq
    · rename_i hlt
      have hj₁ : j.truncateSeq = u.truncateSeq := congrArg (fun x => (ofLex x).1) hseq
      exact iff_of_true hj₁.le hlt.le
    · have hj₁ : j.truncateSeq = i.truncateSeq := by
        split at hseq <;> exact congrArg (fun x => (ofLex x).1) hseq
      rw [hj₁]
  have hlast : (i.updateInodeFileBits u issued).truncateSize = (j.updateTruncateSize u).truncateSize :=
    congrArg Prod.snd (updateTimes_keeps (j.updateTruncateSize u) u issued).1
  rw [hlast, updateTruncateSize]
  by_cases hseq : i.truncateSeq ≤ u.truncateSeq
  · rw [if_pos hseq]
    split
    · rfl
    · rename_i h
      have : ¬j.truncateSize ≠ u.truncateSize := fun hne => h ⟨hle.mpr hseq, hne, htrunc.1.trans hf⟩
      exact not_not.mp this
  · rw [if_neg hseq, if_neg fun h => hseq (hle.mp h.1)]
    exact htrunc.2

/-! ## Many updates -/

/-- `update_inode_file_bits` for each update, with the caps issued then. -/
def Inode.updateAll (i : Inode) (us : List (Update × Mask)) : Inode :=
  us.foldl (fun i u => i.updateInodeFileBits u.1 u.2) i

/-- One of the caps was issued at each update. -/
def Issued (us : List (Update × Mask)) : Prop := ∀ u ∈ us, (u.2 ∩ timeCaps).Nonempty

/-- `truncate_size` is a function of `truncate_seq`. -/
def Consistent (us : List Update) : Prop :=
  ∀ u ∈ us, ∀ v ∈ us, u.truncateSeq = v.truncateSeq → u.truncateSize = v.truncateSize

/-- `r` has the maxima of `i` and the updates. -/
structure Merged (i : Inode) (us : List Update) (r : Inode) : Prop where
  seqSize : IsGreatest (keys i.seqSize Update.seqSize us) r.seqSize
  truncateSize : ∀ u ∈ us, u.truncateSeq = r.truncateSeq → r.truncateSize = u.truncateSize
  initial : (∀ u ∈ us, u.truncateSeq ≠ r.truncateSeq) → r.truncateSize = i.truncateSize
  ctime : IsGreatest (keys i.ctime Update.ctime us) r.ctime
  timeWarpSeq : IsGreatest (keys i.timeWarpSeq Update.timeWarpSeq us) r.timeWarpSeq
  mtime : IsGreatest (seconds i.warpMtime Update.warpMtime us r.timeWarpSeq) r.mtime
  atime : IsGreatest (seconds i.warpAtime Update.warpAtime us r.timeWarpSeq) r.atime

theorem updateAll_append (i : Inode) (us : List (Update × Mask)) (u : Update × Mask) :
    i.updateAll (us ++ [u]) = (i.updateAll us).updateInodeFileBits u.1 u.2 := by
  rw [updateAll, List.foldl_append]
  rfl

theorem updateAll_isFile (i : Inode) (us : List (Update × Mask)) : (i.updateAll us).isFile = i.isFile := by
  induction us using List.reverseRecOn with
  | nil => rfl
  | append_singleton us u ih => rw [updateAll_append, update_isFile, ih]

/-- A value of which every update takes the maximum. -/
theorem isGreatest_updateAll {α : Type*} [LinearOrder α] (value : Inode → α) (key : Update → α)
    (h : ∀ i, ∀ u ∈ us, value (i.updateInodeFileBits u.1 u.2) = max (value i) (key u.1)) (i : Inode) :
    IsGreatest (keys (value i) key (us.map Prod.fst)) (value (i.updateAll us)) := by
  rw [keys_map]
  exact isGreatest_foldl (fun (i : Inode) (u : Update × Mask) => i.updateInodeFileBits u.1 u.2) value
    (fun u => key u.1) h i

theorem updateAll_seqSize (i : Inode) (us : List (Update × Mask)) :
    IsGreatest (keys i.seqSize Update.seqSize (us.map Prod.fst)) (i.updateAll us).seqSize :=
  isGreatest_updateAll Inode.seqSize Update.seqSize (fun i u _ => update_seqSize i u.1 u.2) i

theorem update_truncateSeq (i : Inode) (u : Update) (issued : Mask) :
    (i.updateInodeFileBits u issued).truncateSeq = max i.truncateSeq u.truncateSeq := by
  have h := update_seqSize i u issued
  rw [Inode.seqSize, Inode.seqSize, Update.seqSize, max_toLex] at h
  split at h
  · rename_i hlt
    rw [max_eq_right hlt.le]
    exact congrArg (fun x => (ofLex x).1) h
  · rename_i hlt
    rw [max_eq_left (not_lt.mp hlt)]
    split at h <;> exact congrArg (fun x => (ofLex x).1) h

/-- The `truncate_size` is that of the updates with the last `truncate_seq`. -/
theorem updateAll_truncateSize (hf : i.isFile = true) (hc : Consistent (us.map Prod.fst)) :
    (∀ u ∈ us.map Prod.fst, u.truncateSeq = (i.updateAll us).truncateSeq →
      (i.updateAll us).truncateSize = u.truncateSize) ∧
    ((∀ u ∈ us.map Prod.fst, u.truncateSeq ≠ (i.updateAll us).truncateSeq) →
      (i.updateAll us).truncateSize = i.truncateSize) := by
  induction us using List.reverseRecOn with
  | nil => exact ⟨fun u hu => (List.not_mem_nil hu).elim, fun _ => rfl⟩
  | append_singleton us v ih =>
    have hsub : ∀ u ∈ us.map Prod.fst, u ∈ (us ++ [v]).map Prod.fst := fun u hu => by
      rw [List.map_append]
      exact List.mem_append_left _ hu
    have hv : v.1 ∈ (us ++ [v]).map Prod.fst :=
      List.mem_map_of_mem (List.mem_append_right _ List.mem_cons_self)
    obtain ⟨ih₁, ih₂⟩ := ih fun u hu w hw => hc u (hsub u hu) w (hsub w hw)
    rw [updateAll_append, update_truncateSeq, update_truncateSize ((updateAll_isFile i us).trans hf)]
    by_cases hle : (i.updateAll us).truncateSeq ≤ v.1.truncateSeq
    · rw [if_pos hle, max_eq_right hle]
      exact ⟨fun u hu h => (hc u hu v.1 hv h).symm, fun h => absurd rfl (h v.1 hv)⟩
    · have hlt := not_le.mp hle
      rw [if_neg hle, max_eq_left hlt.le]
      refine ⟨fun u hu h => ?_, fun h => ih₂ fun u hu => h u (hsub u hu)⟩
      rw [List.map_append] at hu
      rcases List.mem_append.mp hu with hu | hu
      · exact ih₁ u hu h
      · obtain rfl := List.mem_singleton.mp hu
        exact absurd h hlt.ne

theorem updateAll_merged (hf : i.isFile = true) (hi : Issued us) (hc : Consistent (us.map Prod.fst)) :
    Merged i (us.map Prod.fst) (i.updateAll us) := by
  have hm := isGreatest_updateAll Inode.warpMtime Update.warpMtime (fun i u hu => (update_times (hi u hu)).2.1) i
  have ha := isGreatest_updateAll Inode.warpAtime Update.warpAtime (fun i u hu => (update_times (hi u hu)).2.2) i
  exact
    { seqSize := updateAll_seqSize i us
      truncateSize := (updateAll_truncateSize hf hc).1
      initial := (updateAll_truncateSize hf hc).2
      ctime := isGreatest_updateAll Inode.ctime Update.ctime (fun i u hu => (update_times (hi u hu)).1) i
      timeWarpSeq := isGreatest_fst hm
      mtime := isGreatest_snd hm
      atime := isGreatest_snd ha }

/-- The maxima are the same for the same updates in another order, or repeated. -/
theorem Merged.unique {us vs : List Update} {r r' : Inode} (h : Merged i us r) (h' : Merged i vs r')
    (hsame : ∀ u, u ∈ us ↔ u ∈ vs) :
    r.seqSize = r'.seqSize ∧ r.truncateSize = r'.truncateSize ∧ r.times = r'.times := by
  have hseq : r.seqSize = r'.seqSize := by
    have := h.seqSize
    rw [keys_congr hsame] at this
    exact this.unique h'.seqSize
  have hts : r.truncateSeq = r'.truncateSeq := congrArg (fun x => (ofLex x).1) hseq
  have hctime : r.ctime = r'.ctime := by
    have := h.ctime
    rw [keys_congr hsame] at this
    exact this.unique h'.ctime
  have hwarp : r.timeWarpSeq = r'.timeWarpSeq := by
    have := h.timeWarpSeq
    rw [keys_congr hsame] at this
    exact this.unique h'.timeWarpSeq
  have hmtime : r.mtime = r'.mtime := by
    have := h.mtime
    rw [seconds, keys_congr hsame, hwarp] at this
    exact this.unique h'.mtime
  have hatime : r.atime = r'.atime := by
    have := h.atime
    rw [seconds, keys_congr hsame, hwarp] at this
    exact this.unique h'.atime
  refine ⟨hseq, ?_, ?_⟩
  · by_cases hex : ∃ u ∈ us, u.truncateSeq = r.truncateSeq
    · obtain ⟨u, hu, hut⟩ := hex
      rw [h.truncateSize u hu hut, h'.truncateSize u ((hsame u).mp hu) (hut.trans hts)]
    · have hnone : ∀ u ∈ us, u.truncateSeq ≠ r.truncateSeq := fun u hu hut => hex ⟨u, hu, hut⟩
      rw [h.initial hnone, h'.initial fun u hu => by rw [← hts]; exact hnone u ((hsame u).mpr hu)]
  · rw [Inode.times, Inode.times, hctime, hwarp, hmtime, hatime]

theorem updateAll_seqSize_le (i : Inode) (us vs : List (Update × Mask)) :
    (i.updateAll us).seqSize ≤ (i.updateAll (us ++ vs)).seqSize := by
  have h := (updateAll_seqSize (i.updateAll us) vs).2 (.inl rfl)
  rw [updateAll, updateAll, ← List.foldl_append] at h
  exact h

/-- The updates merge to their maxima, in every order and however often repeated,
and the size does not fall while the `truncate_seq` stays the same. -/
theorem updateAll_merges (hf : i.isFile = true) (hi : Issued us) (hc : Consistent (us.map Prod.fst)) :
    Merged i (us.map Prod.fst) (i.updateAll us) ∧
    (∀ vs, Issued vs → (∀ u, u ∈ us.map Prod.fst ↔ u ∈ vs.map Prod.fst) →
      (i.updateAll us).seqSize = (i.updateAll vs).seqSize ∧
      (i.updateAll us).truncateSize = (i.updateAll vs).truncateSize ∧
      (i.updateAll us).times = (i.updateAll vs).times) ∧
    ∀ as bs, us = as ++ bs → (i.updateAll as).truncateSeq = (i.updateAll us).truncateSeq →
      (i.updateAll as).size ≤ (i.updateAll us).size := by
  have hmerged := updateAll_merged hf hi hc
  refine ⟨hmerged, fun vs hv hsame => ?_, ?_⟩
  · have hcv : Consistent (vs.map Prod.fst) := fun u hu w hw =>
      hc u ((hsame u).mpr hu) w ((hsame w).mpr hw)
    exact hmerged.unique (updateAll_merged hf hv hcv) hsame
  · rintro as bs rfl hts
    have hle := updateAll_seqSize_le i as bs
    rw [Inode.seqSize, Inode.seqSize, Prod.Lex.toLex_le_toLex] at hle
    rcases hle with hlt | ⟨-, hle⟩
    · exact absurd hts hlt.ne
    · exact hle

/-! ## Two messages -/

/-- An empty file. -/
def emptyFile : Inode :=
  ⟨true, 1, 0, 0, 0, 1, 0, 0, toLex (5, 0), toLex (5, 0), toLex (5, 0), cephInlineNone, [], []⟩

/-- The attributes with this `truncate_seq`, size and time. -/
def message (truncateSeq size sec : ℕ) : Update :=
  ⟨truncateSeq, 0, size, 0, toLex (sec, 0), toLex (sec, 0), toLex (sec, 0), 0, []⟩

/-- A truncation and an older size, while the client has `FILE_WR`. -/
theorem updateAll_merges_two :
    Merged emptyFile [message 2 10 7, message 1 20 6]
      (emptyFile.updateAll [(message 2 10 7, {fileWr}), (message 1 20 6, {fileWr})]) ∧
    (emptyFile.updateAll [(message 2 10 7, {fileWr}), (message 1 20 6, {fileWr})]).size = 10 := by
  have hissued : Issued [(message 2 10 7, {fileWr}), (message 1 20 6, {fileWr})] := by
    intro u hu
    refine ⟨fileWr, ?_⟩
    rcases List.mem_pair.mp hu with rfl | rfl <;> decide
  have hc : Consistent [message 2 10 7, message 1 20 6] := by
    intro u hu v hv _
    rcases List.mem_pair.mp hu with rfl | rfl <;> rcases List.mem_pair.mp hv with rfl | rfl <;> rfl
  exact ⟨(updateAll_merges rfl hissued hc).1, by decide⟩

/-- With `LINK_EXCL` alone, the older `ctime` of a message is taken. -/
theorem not_updateAll_merges : ¬∀ (i : Inode) (us : List (Update × Mask)), i.isFile = true →
    (∀ u ∈ us, (u.2 ∩ anyWr).Nonempty) → Consistent (us.map Prod.fst) →
    Merged i (us.map Prod.fst) (i.updateAll us) := by
  intro h
  have hm := h emptyFile [(message 1 0 4, {5})] rfl
    (fun u hu => by
      obtain rfl := List.mem_singleton.mp hu
      exact ⟨5, by decide⟩)
    (fun u hu v hv _ => by
      obtain rfl := List.mem_singleton.mp hu
      obtain rfl := List.mem_singleton.mp hv
      rfl)
  have hle := hm.ctime.2 (.inl rfl)
  exact absurd hle (by decide)

end CephMds.FileBits
