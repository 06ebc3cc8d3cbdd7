import CephMds.Model.InlineFile
import CephMds.Proof.ReadSync

/-!
# Files with inline data

The inline path of `_write` puts the data together from what is before the
write, the buffer, and the old data from `endoff` on (`splice_eq`), and makes
its checks with `endoff`. At an explicit offset that is the end of the write;
at -1 it is one less than the size of the buffer. So the write is as it should
be if and only if each check, as far as they are reached, decides the same for
both, and no old data is between them (`likeAFile_iff`). What is read back is
exact while the file is less than 2^32 bytes longer than its inline data
(`reads_exact_iff`).
-/

namespace CephMds.InlineFile

open ReadSync Padded

variable {env : Env} {f : Fh} {i : Inode} {offset o : ℤ} {buf : List Byte} {e p : ℕ}

/-- The inline data, with zeros up to the size. -/
def Inode.contents (i : Inode) : List Byte := padTo i.size i.inlineData

/-! ## Reads -/

/-- The range of the contents up to the size. -/
def Inode.range (i : Inode) (o size : ℕ) : List Byte := ((i.contents.take i.size).drop o).take size

/-- Every read returns its range. -/
def Reads (f : Fh) (i : Inode) : Prop :=
  ∀ (offset : ℤ) (size : ℕ), offset < 2 ^ 63 → size < 2 ^ 63 →
    read f i offset size = i.range (if offset < 0 then f.pos else offset).toNat size

theorem toUnsigned_sub {a b : ℕ} (h : b ≤ a) : toUnsigned ((a : ℤ) - b) = (a - b) % 2 ^ 32 := by
  rw [toUnsigned, ← Int.ofNat_sub h]
  exact Int.toNat_natCast ((a - b) % 2 ^ 32)

theorem range_eq (h : i.inlineData.length ≤ i.size) (o size : ℕ) :
    i.range o size = (i.inlineData.drop o).take size ++
      List.replicate (min (o + size) i.size - max o i.inlineData.length) 0 := by
  have hall : i.contents.take i.size = i.contents := List.take_of_length_le <| by
    rw [Inode.contents, length_padTo, Nat.max_eq_left h]
  rw [Inode.range, hall, Inode.contents, take_drop_padTo h]

/-- What `_read` returns at a resolved offset: the zeros are counted in an `unsigned`. -/
theorem read_eq (h : i.inlineData.length ≤ i.size) {o size : ℕ} (ho : o < 2 ^ 63) (hsize : size < 2 ^ 63)
    (heq : (if offset < 0 then f.pos else offset) = o) :
    read f i offset size = (i.inlineData.drop o).take size ++
      List.replicate ((min (o + size) i.size - max o i.inlineData.length) % 2 ^ 32) 0 := by
  have hend : toUInt64 ((o : ℤ) + size) = o + size := toUInt64_add (by omega)
  have hoff : toUInt64 (o : ℤ) = o := by rw [toUInt64_of_lt (by omega) (by omega), Int.toNat_natCast]
  rw [read, heq, hend, hoff, Int.toNat_natCast]
  generalize hendoff : min (o + size) i.size = endoff
  rcases Nat.lt_or_ge o i.inlineData.length with hlt | hge
  · rw [if_pos (Int.ofNat_lt.mpr hlt), Nat.max_eq_right hlt.le]
    rcases Nat.lt_or_ge i.inlineData.length endoff with hle | hle
    · rw [if_neg (not_le.mpr hle), toUnsigned_sub hle.le, List.take_of_length_le]
      rw [List.length_drop]
      omega
    · rw [if_pos hle, Nat.sub_eq_zero_of_le hle, Nat.zero_mod, List.replicate_zero, List.append_nil]
      rw [List.take_eq_take_iff, List.length_drop]
      omega
  · rw [if_neg (not_lt.mpr (Int.ofNat_le.mpr hge)), Nat.max_eq_left hge, List.drop_eq_nil_of_le hge, List.take_nil,
      List.nil_append]
    rcases Nat.lt_or_ge o endoff with hlt | hge
    · rw [if_pos hlt, toUnsigned_sub hlt.le]
    · rw [if_neg (not_lt.mpr hge), Nat.sub_eq_zero_of_le hge]
      rfl

/-- Reads are exact if and only if the run of zeros at the end has a length that is `unsigned`. -/
theorem reads_exact_iff (h : i.inlineData.length ≤ i.size) (hsize : i.size < 2 ^ 63) (hpos : 0 ≤ f.pos ∧ f.pos < 2 ^ 63) :
    Reads f i ↔ i.size < i.inlineData.length + 2 ^ 32 := by
  constructor
  · intro hreads
    by_contra hno
    -- a read of 2 ^ 32 zeros returns none
    have hread := hreads i.inlineData.length (2 ^ 32) (by omega) (by decide)
    have heq : (if (i.inlineData.length : ℤ) < 0 then f.pos else (i.inlineData.length : ℤ)) = i.inlineData.length :=
      if_neg (by omega)
    rw [read_eq h (by omega) (by decide) heq, heq, Int.toNat_natCast, range_eq h, List.append_cancel_left_eq,
      List.replicate_inj] at hread
    omega
  · intro hlt offset size hoffset hsize'
    obtain ⟨o, ho⟩ : ∃ o : ℕ, (if offset < 0 then f.pos else offset) = o := by
      refine ⟨_, (Int.toNat_of_nonneg ?_).symm⟩
      split
      · exact hpos.1
      · next hnn => exact not_lt.mp hnn
    have hlt' : o < 2 ^ 63 := by
      split at ho
      · omega
      · omega
    rw [read_eq h hlt' hsize' ho, ho, Int.toNat_natCast, range_eq h, Nat.mod_eq_of_lt (by omega)]

/-! ## What a write should do -/

inductive Verdict
  | error (e : Errno)
  | waits
  | uninlines
  | written
  deriving DecidableEq

def Outcome.verdict : Outcome → Verdict
  | .error e => .error e
  | .waits => .waits
  | .uninlines => .uninlines
  | .written _ _ => .written

/-- What becomes of a write that ends at `e`. -/
def due (env : Env) (f : Fh) (i : Inode) (e : ℕ) : Verdict :=
  if env.maxFilesize < e then .error .efbig
  else if env.osdmapFull then .error .enospc
  else if !f.writable then .error .ebadf
  else if i.size < e ∧ env.quotaBytesExceeded (e - i.size) then .error .edquot
  else if i.maxSize < e then .waits
  else if env.clientMaxInlineSize < e ∨ env.cephInlineMaxSize < e then .uninlines
  else .written

/-- The offset from which a write goes. -/
def target (f : Fh) (i : Inode) (offset : ℤ) (buf : List Byte) : ℕ := (f.resolve i offset buf.length).2.toNat

/-- A write of a file with inline data is one of a file, and so are the reads after it. -/
structure LikeAFile (env : Env) (f : Fh) (i : Inode) (offset : ℤ) (buf : List Byte) : Prop where
  verdict : (write env f i offset buf).verdict = due env f i (target f i offset buf + buf.length)
  written : ∀ i' f', write env f i offset buf = .written i' f' →
    i'.contents = overwrite i.contents (target f i offset buf) buf ∧ Reads f' i'

/-- No old data from `p` on is in the wrong place after `e`, and the file is not much longer than its data. -/
def Fits (i : Inode) (p e : ℕ) : Prop :=
  (p = e ∨ i.inlineData.length ≤ p ∨
    e + (i.inlineData.length - p) ≤ i.size ∧ ∀ b ∈ i.inlineData.drop p, b = 0) ∧
  i.size < e + (i.inlineData.length - p) + 2 ^ 32

/-- Up to the check that refuses, each decides for `p` as for the end `e`; and a write that no check
refuses leaves no old data in the wrong place. -/
def Kept (env : Env) (f : Fh) (i : Inode) (p e : ℕ) : Prop :=
  if env.maxFilesize < e then env.maxFilesize < p
  else ¬ env.maxFilesize < p ∧ (env.osdmapFull = true ∨ (!f.writable) = true ∨
    if i.size < e ∧ env.quotaBytesExceeded (e - i.size) then i.size < p ∧ env.quotaBytesExceeded (p - i.size) = true
    else ¬ (i.size < p ∧ env.quotaBytesExceeded (p - i.size) = true) ∧
      if i.maxSize < e then i.waitsForMaxSize (toInt64 p) = true
      else ¬ i.waitsForMaxSize (toInt64 p) = true ∧
        if env.clientMaxInlineSize < e ∨ env.cephInlineMaxSize < e then
          env.clientMaxInlineSize < p ∨ env.cephInlineMaxSize < p
        else ¬ (env.clientMaxInlineSize < p ∨ env.cephInlineMaxSize < p) ∧ Fits i p e)

/-- The checks of `_write`, made with `p`. -/
def taken (env : Env) (f : Fh) (i : Inode) (p : ℕ) : Verdict :=
  if env.maxFilesize < p then .error .efbig
  else if env.osdmapFull then .error .enospc
  else if !f.writable then .error .ebadf
  else if i.size < p ∧ env.quotaBytesExceeded (p - i.size) then .error .edquot
  else if i.waitsForMaxSize (toInt64 p) then .waits
  else if env.clientMaxInlineSize < p ∨ env.cephInlineMaxSize < p then .uninlines
  else .written

/-- One check, made with two numbers: `c'` for one and `c` for the other. -/
theorem iff_check {c c' K F : Prop} [Decidable c] [Decidable c'] {v t d : Verdict} (hv : v ≠ .written) (ht : t ≠ v)
    (hd : d ≠ v) (hK : K ↔ t = d ∧ (t = .written → F)) : (if c then c' else ¬ c' ∧ K) ↔
      (if c' then v else t) = (if c then v else d) ∧ ((if c' then v else t) = .written → F) := by
  by_cases h : c
  · by_cases h' : c'
    · simp [h, h', hv]
    · simp [h, h', ht]
  · by_cases h' : c'
    · simp [h, h', hd.symm]
    · simp [h, h', hK]

/-- A check that does not depend on the number. -/
theorem iff_or {c K F : Prop} [Decidable c] {v t d : Verdict} (hv : v ≠ .written)
    (hK : K ↔ t = d ∧ (t = .written → F)) : c ∨ K ↔
      (if c then v else t) = (if c then v else d) ∧ ((if c then v else t) = .written → F) := by
  by_cases h : c
  · simp [h, hv]
  · simp [h, hK]

theorem kept_iff : Kept env f i p e ↔
    taken env f i p = due env f i e ∧ (taken env f i p = .written → Fits i p e) := by
  rw [Kept, taken, due]
  refine iff_check (by decide) (by split_ifs <;> decide) (by split_ifs <;> decide) ?_
  refine iff_or (by decide) (iff_or (by decide) ?_)
  refine iff_check (by decide) (by split_ifs <;> decide) (by split_ifs <;> decide) ?_
  refine iff_check (by decide) (by split_ifs <;> decide) (by split_ifs <;> decide) ?_
  refine iff_check (by decide) (by decide) (by decide) ?_
  simp

theorem verdict_write : (write env f i offset buf).verdict = taken env f i (toUInt64 (offset + buf.length)) := by
  rw [write, taken]
  split_ifs <;> rfl

/-- What a write that no check refuses leaves. -/
def writtenInode (f : Fh) (i : Inode) (offset : ℤ) (buf : List Byte) : Inode :=
  { i with
    inlineData := splice i.inlineData (f.resolve i offset buf.length).2 (toUInt64 (offset + buf.length)) buf
    size :=
      if i.size < toUInt64 (buf.length + (f.resolve i offset buf.length).2) then
        toUInt64 (buf.length + (f.resolve i offset buf.length).2)
      else i.size }

theorem write_eq (h : taken env f i (toUInt64 (offset + buf.length)) = .written) :
    write env f i offset buf = .written (writtenInode f i offset buf) (f.resolve i offset buf.length).1 := by
  rw [taken] at h
  rw [write]
  split_ifs at h ⊢
  rfl

/-- The numbers have their types, and there is no inline data beyond the size. -/
structure WellFormed (env : Env) (f : Fh) (i : Inode) (offset : ℤ) (buf : List Byte) : Prop where
  inlineMax : env.cephInlineMaxSize < 2 ^ 32
  pos : 0 ≤ f.pos ∧ f.pos < 2 ^ 63
  data : i.inlineData.length ≤ i.size
  size : i.size < 2 ^ 63
  offset : -1 ≤ offset ∧ offset < 2 ^ 63
  buf : buf.length < 2 ^ 63

theorem WellFormed.resolve (h : WellFormed env f i offset buf) :
    (f.resolve i offset buf.length).2 = target f i offset buf ∧ target f i offset buf < 2 ^ 63 := by
  have hsize := h.size
  have hpos := h.pos
  have hoffset := h.offset
  rw [target, Fh.resolve]
  split
  · dsimp only
    split <;> omega
  · dsimp only
    omega

/-- Up to its limit, `endoff` is not beyond the end of the write. -/
theorem WellFormed.endoff_le (h : WellFormed env f i offset buf) (hp : toUInt64 (offset + buf.length) < 2 ^ 32) :
    toUInt64 (offset + buf.length) ≤ target f i offset buf + buf.length := by
  obtain ⟨ho, -⟩ := h.resolve
  have hoffset := h.offset
  have hbuf := h.buf
  rcases Int.lt_or_le offset 0 with hneg | hnn
  · have hone : offset = -1 := by omega
    rcases Nat.eq_zero_or_pos buf.length with hzero | hpos
    · rw [hone, hzero, toUInt64] at hp
      norm_num at hp
    · rw [toUInt64_of_lt (by omega) (by omega)]
      omega
  · rw [Fh.resolve, if_neg (not_lt.mpr hnn)] at ho
    have ho : offset = target f i offset buf := ho
    rw [toUInt64_of_lt (by omega) (by omega)]
    omega

theorem splice_eq {data : List Byte} {o : ℕ} (ho : o < 2 ^ 32) (p : ℕ) (buf : List Byte) :
    splice data o p buf = padTo o (data.take o) ++ buf ++ data.drop p := by
  have htail : (if p < data.length then buf ++ data.drop p else buf) = buf ++ data.drop p := by
    split
    · rfl
    · next hp => rw [List.drop_eq_nil_of_le (not_lt.mp hp), List.append_nil]
  rw [splice, htail, List.append_assoc]
  congr 1
  rcases Nat.lt_trichotomy o data.length with hlt | heq | hgt
  · rw [if_pos (Int.ofNat_lt.mpr hlt), Int.toNat_natCast, padTo_of_le]
    rw [List.length_take]
    omega
  · rw [if_neg (by omega), if_neg (by omega), List.take_of_length_le heq.ge, padTo_of_le heq.le]
  · rw [if_neg (by omega), if_pos (Int.ofNat_lt.mpr hgt), toUnsigned_sub hgt.le, Nat.mod_eq_of_lt (by omega),
      List.take_of_length_le hgt.le, padTo]

theorem fits_iff (h : WellFormed env f i offset buf) (hp : toUInt64 (offset + buf.length) < 2 ^ 32)
    (he : target f i offset buf + buf.length < 2 ^ 32) :
    (writtenInode f i offset buf).contents = overwrite i.contents (target f i offset buf) buf ∧
        Reads (f.resolve i offset buf.length).1 (writtenInode f i offset buf) ↔
      Fits i (toUInt64 (offset + buf.length)) (target f i offset buf + buf.length) := by
  obtain ⟨ho, hlt⟩ := h.resolve
  have hle := h.endoff_le hp
  have hdata : (writtenInode f i offset buf).inlineData =
      padTo (target f i offset buf) (i.inlineData.take (target f i offset buf)) ++ buf ++
        i.inlineData.drop (toUInt64 (offset + buf.length)) := by
    show splice _ _ _ _ = _
    rw [ho, splice_eq (by omega)]
  have hsize : (writtenInode f i offset buf).size = max i.size (target f i offset buf + buf.length) := by
    show (if i.size < toUInt64 _ then toUInt64 _ else i.size) = _
    rw [ho, toUInt64_add (by omega)]
    split <;> omega
  have hlength : (writtenInode f i offset buf).inlineData.length =
      target f i offset buf + buf.length + (i.inlineData.length - toUInt64 (offset + buf.length)) := by
    rw [hdata, List.length_append, List.length_append, length_padTo, List.length_take, List.length_drop]
    omega
  have hpos : 0 ≤ (f.resolve i offset buf.length).1.pos ∧ (f.resolve i offset buf.length).1.pos < 2 ^ 63 := by
    rw [Fh.resolve] at ho ⊢
    split at ho
    · next hneg =>
      have ho : (if f.append = true then (i.size : ℤ) else f.pos) = target f i offset buf := ho
      rw [if_pos hneg]
      show 0 ≤ toInt64 _ ∧ toInt64 _ < _
      rw [ho, toInt64_of_lt (by omega) (by omega)]
      omega
    · next hnn =>
      rw [if_neg hnn]
      exact h.pos
  have hcontents : (writtenInode f i offset buf).contents = overwrite i.contents (target f i offset buf) buf ↔
      padTo (max i.size (target f i offset buf + buf.length))
        (padTo (target f i offset buf) (i.inlineData.take (target f i offset buf)) ++ buf ++
          i.inlineData.drop (toUInt64 (offset + buf.length))) =
        overwrite (padTo i.size i.inlineData) (target f i offset buf) buf := by
    rw [Inode.contents, Inode.contents, hsize, hdata]
  rw [hcontents, padTo_splice_iff hle h.data, Fits]
  refine and_congr_right fun hfit => ?_
  have hdata' := h.data
  have hsize' := h.size
  rw [reads_exact_iff (by rw [hlength, hsize]; omega) (by rw [hsize]; omega) hpos, hlength, hsize]
  omega

/-- The write is as it should be exactly when the checks of `_write`, made with
`endoff`, decide as for the end, and no old data is left in the wrong place. -/
theorem likeAFile_iff (h : WellFormed env f i offset buf) : LikeAFile env f i offset buf ↔
    Kept env f i (toUInt64 (offset + buf.length)) (target f i offset buf + buf.length) := by
  rw [kept_iff]
  have hverdict : LikeAFile env f i offset buf ↔ taken env f i (toUInt64 (offset + buf.length)) =
      due env f i (target f i offset buf + buf.length) ∧ (taken env f i (toUInt64 (offset + buf.length)) = .written →
        (writtenInode f i offset buf).contents = overwrite i.contents (target f i offset buf) buf ∧
          Reads (f.resolve i offset buf.length).1 (writtenInode f i offset buf)) := by
    constructor
    · rintro ⟨hv, hw⟩
      exact ⟨verdict_write.symm.trans hv, fun ht => hw _ _ (write_eq ht)⟩
    · rintro ⟨hv, hw⟩
      refine ⟨verdict_write.trans hv, fun i' f' heq => ?_⟩
      have ht : taken env f i (toUInt64 (offset + buf.length)) = .written := by
        rw [← verdict_write, heq]
        rfl
      rw [write_eq ht] at heq
      cases heq
      exact hw ht
  rw [hverdict]
  refine and_congr_right fun hv => imp_congr_right fun ht => fits_iff h ?_ ?_
  · rw [taken] at ht
    split_ifs at ht with h₁ h₂ h₃ h₄ h₅ h₆
    exact (not_lt.mp (not_or.mp h₆).2).trans_lt h.inlineMax
  · rw [hv, due] at ht
    split_ifs at ht with h₁ h₂ h₃ h₄ h₅ h₆
    exact (not_lt.mp (not_or.mp h₆).2).trans_lt h.inlineMax

/-- At an explicit offset all checks are made with the end. -/
theorem kept_self (he : e < 2 ^ 63) (hmax : i.maxSize < 2 ^ 63)
    (hsize : i.size < e + (i.inlineData.length - e) + 2 ^ 32) : Kept env f i e e := by
  rw [kept_iff]
  have hwaits : i.waitsForMaxSize (toInt64 e) = decide (i.maxSize < e) := by
    rw [Inode.waitsForMaxSize, toInt64_of_lt (by omega) (by omega), toInt64_of_lt (by omega) (by omega)]
    exact decide_eq_decide.mpr (by omega)
  refine ⟨?_, fun _ => ⟨.inl rfl, hsize⟩⟩
  rw [taken, due, hwaits]
  simp only [decide_eq_true_eq]

/-- The usual limits, and no quota. -/
def someEnv : Env := ⟨2 ^ 40, false, fun _ => false, 4096, 65536⟩

/-- A file with the five bytes "abcde". -/
def five : Inode := ⟨5, 2 ^ 22, [97, 98, 99, 100, 101]⟩

theorem likeAFile_five : LikeAFile someEnv ⟨0, true, false⟩ five 2 [88, 89] := by
  refine (likeAFile_iff ⟨by decide, by decide, by decide, by decide, by decide, by decide⟩).mpr ?_
  have hend : toUInt64 ((2 : ℤ) + ([88, 89] : List Byte).length) = 4 := toUInt64_add (a := 2) (by decide)
  rw [hend]
  exact kept_self (by decide) (by decide) (by decide)

/-- "XY" at the file position leaves "XYbcde". -/
theorem not_likeAFile : write someEnv ⟨0, true, false⟩ five (-1) [88, 89] =
    .written ⟨5, 2 ^ 22, [88, 89, 98, 99, 100, 101]⟩ ⟨2, true, false⟩ ∧
      ¬ LikeAFile someEnv ⟨0, true, false⟩ five (-1) [88, 89] := by
  have hwrite : write someEnv ⟨0, true, false⟩ five (-1) [88, 89] =
      .written ⟨5, 2 ^ 22, [88, 89, 98, 99, 100, 101]⟩ ⟨2, true, false⟩ := by decide +kernel
  refine ⟨hwrite, fun h => ?_⟩
  have hcontents := (h.written _ _ hwrite).1
  revert hcontents
  decide +kernel

end CephMds.InlineFile
