import CephMds.Model.ReadSync
import Mathlib

/-!
# Synchronous reads of the client

A call of `_read_sync` gets bytes of the file, as many as were asked for or up
to the size that the client knows (`readSync_ok`). A second call, with the
size from `_getattr`, gets the rest, so that `_read` gets the bytes up to the
length as an `int` (`read_ok`). A length that is no positive `int` reads
nothing.
-/

namespace CephMds.ReadSync

open Checked

variable {filer : Filer} {file : List Byte} {inSize offset size n : ℕ}

/-! ## Conversions -/

theorem toInt_lt (x : ℤ) : toInt x < 2 ^ 31 := by
  have := Int.emod_lt_of_pos (x + 2 ^ 31) (show (0 : ℤ) < 2 ^ 32 by decide)
  rw [toInt]
  omega

theorem toInt_of_lt {x : ℤ} (h₀ : 0 ≤ x) (h : x < 2 ^ 31) : toInt x = x := by
  rw [toInt, Int.emod_eq_of_lt (by omega) (by omega)]
  omega

theorem toInt64_of_lt {x : ℤ} (h₀ : 0 ≤ x) (h : x < 2 ^ 63) : toInt64 x = x := by
  rw [toInt64, Int.emod_eq_of_lt (by omega) (by omega)]
  omega

theorem toUnsigned_of_lt {x : ℤ} (h₀ : 0 ≤ x) (h : x < 2 ^ 31) : toUnsigned x = x.toNat := by
  rw [toUnsigned, Int.emod_eq_of_lt h₀ (by omega)]

theorem toUInt64_of_lt {x : ℤ} (h₀ : 0 ≤ x) (h : x < 2 ^ 64) : toUInt64 x = x.toNat := by
  rw [toUInt64, Int.emod_eq_of_lt h₀ h]

theorem toUInt64_add {a b : ℕ} (h : a + b < 2 ^ 64) : toUInt64 ((a : ℤ) + b) = a + b := by
  rw [toUInt64_of_lt (by omega) (by omega)]
  omega

theorem toUInt64_sub {a b : ℕ} (h : b ≤ a) (ha : a < 2 ^ 64) : toUInt64 ((a : ℤ) - b) = a - b := by
  rw [toUInt64_of_lt (by omega) (by omega)]
  omega

/-- What is left of a length after some of its `int`. -/
theorem toInt_sub {r : ℕ} (h : (r : ℤ) ≤ toInt size) : r ≤ size ∧ toInt (size - r : ℕ) = toInt size - r := by
  rw [toInt] at h ⊢
  have hr : r ≤ size := by omega
  refine ⟨hr, ?_⟩
  rw [toInt]
  push_cast [hr]
  omega

/-! ## One call of `_read_sync` -/

/-- A short answer, with zeros after it, is a part of the file. -/
theorem answer_append_zeros {d rest : List Byte} {m j : ℕ} (h : (file.drop offset).take m = d ++ rest)
    (hz : ∀ b ∈ rest, b = 0) (hj : j ≤ rest.length) :
    d ++ List.replicate j 0 = (file.drop offset).take (d.length + j) := by
  have hlen : d.length + rest.length ≤ m := by
    have := List.length_take_le m (file.drop offset)
    rwa [h, List.length_append] at this
  have hrest : rest.take j = List.replicate j 0 := by
    refine List.eq_replicate_iff.mpr ⟨by rw [List.length_take, Nat.min_eq_left hj], fun b hb => ?_⟩
    exact hz b (List.mem_of_mem_take hb)
  rw [← hrest]
  calc d ++ rest.take j = (d ++ rest).take (d.length + j) := by rw [List.take_length_add_append]
    _ = ((file.drop offset).take m).take (d.length + j) := by rw [h]
    _ = (file.drop offset).take (d.length + j) := by
      rw [List.take_take, Nat.min_eq_left (by omega)]

theorem zeroFill_ok {s : Sync} {j left read : ℤ} (h : s.pos < inSize) (hj : min (toInt64 (inSize - s.pos)) s.left = j)
    (hleft : toInt (s.left - j) = left) (hread : toInt (s.read + j) = read) :
    zeroFill inSize s = (⟨toUInt64 (s.pos + j), left, read, s.bl ++ List.replicate (toUnsigned j) 0, s.reads⟩,
      decide (left ≠ 0)) := by
  subst hj hleft hread
  rw [zeroFill, if_pos h]

/-- What a call gets: as much as was asked for, or at least all up to the size
that the client knows. -/
theorem readSync_ok (bl : List Byte) (k n : ℕ) (hf : filer.Honest file) (hin : inSize ≤ file.length)
    (hfile : file.length < offset + 2 ^ 63) (hsize : 0 < toInt size) :
    ∃ (s : Sync) (checkeof : Bool) (r : ℕ), readSync filer inSize (n + 2) offset size bl k = .ok (s, checkeof) ∧
      s.read = r ∧ s.bl = bl ++ (file.drop offset).take r ∧ r ≤ file.length - offset ∧ (r : ℤ) ≤ toInt size ∧
      (checkeof = false → (r : ℤ) = toInt size) ∧ (checkeof = true → (r : ℤ) < toInt size ∧ inSize ≤ offset + r) := by
  obtain ⟨L, hL⟩ : ∃ L : ℕ, toInt size = L := ⟨(toInt size).toNat, by omega⟩
  have hlt : (L : ℤ) < 2 ^ 31 := hL ▸ toInt_lt size
  rw [hL] at hsize ⊢
  obtain ⟨rest, hd, hz⟩ := hf k offset L
  obtain ⟨d, hdef⟩ : ∃ d, (filer k offset L).getD [] = d := ⟨_, rfl⟩
  rw [hdef] at hd
  have hlen : d.length + rest.length = min L (file.length - offset) := by
    rw [← List.length_append, ← hd, List.length_take, List.length_drop]
  have hread : toInt (0 + (d.length : ℤ)) = d.length := by rw [zero_add, toInt_of_lt (by omega) (by omega)]
  have hleft : toInt ((L : ℤ) - d.length) = L - d.length := toInt_of_lt (by omega) (by omega)
  have htake : d = (file.drop offset).take d.length := by
    have := answer_append_zeros hd hz (Nat.zero_le _)
    simpa using this
  rw [readSync, readSyncLoop, hL]
  simp only [Int.toNat_natCast, hdef, hread, hleft]
  rw [if_neg (by omega)]
  by_cases hshort : (d.length : ℤ) < L
  · rw [if_pos hshort]
    by_cases hpos : offset + d.length < inSize
    · -- zeros up to the size that is known, or to what was asked for
      obtain ⟨j, hj⟩ : ∃ j, j = min (inSize - (offset + d.length)) (L - d.length) := ⟨_, rfl⟩
      have hjfile : d.length + j ≤ file.length - offset := by omega
      have hjle : ((d.length + j : ℕ) : ℤ) ≤ L := by omega
      have hjrest : j ≤ rest.length := by omega
      have hjint : (j : ℤ) < 2 ^ 31 := by omega
      have hdone : (L : ℤ) - d.length - j = 0 → ((d.length + j : ℕ) : ℤ) = L := by omega
      have hmore : (L : ℤ) - d.length - j ≠ 0 → ((d.length + j : ℕ) : ℤ) < L ∧ inSize ≤ offset + (d.length + j) := by
        omega
      have hsome : min (toInt64 ((inSize : ℤ) - (offset + d.length : ℕ))) ((L : ℤ) - d.length) = j := by
        rw [toInt64_of_lt (by omega) (by omega)]
        omega
      have hleft' : toInt ((L : ℤ) - d.length - j) = L - d.length - j := toInt_of_lt (by omega) (by omega)
      have hread' : toInt ((d.length : ℤ) + j) = (d.length + j : ℕ) := by
        rw [toInt_of_lt (by omega) (by omega)]
        push_cast
        rfl
      rw [zeroFill_ok (s := ⟨offset + d.length, L - d.length, d.length, bl ++ d, k + 1⟩) hpos hsome hleft' hread']
      refine ⟨_, _, d.length + j, pure_ok.mpr rfl, ?_, ?_, hjfile, hjle, ?_, ?_⟩
      · rfl
      · show bl ++ d ++ List.replicate (toUnsigned j) 0 = _
        rw [toUnsigned_of_lt (Int.natCast_nonneg j) hjint, Int.toNat_natCast, List.append_assoc,
          answer_append_zeros hd hz hjrest]
      · rw [decide_eq_false_iff_not, not_not]
        exact hdone
      · rw [decide_eq_true_eq]
        exact hmore
    · have hno : zeroFill inSize ⟨offset + d.length, L - d.length, d.length, bl ++ d, k + 1⟩ =
          (⟨offset + d.length, L - d.length, d.length, bl ++ d, k + 1⟩, true) := if_neg hpos
      rw [hno]
      refine ⟨_, true, d.length, pure_ok.mpr rfl, ?_, ?_, by omega, by omega, ?_, ?_⟩
      · rfl
      · rw [← htake]
      · exact fun h => absurd h (by decide)
      · exact fun _ => ⟨hshort, by omega⟩
  · have hfull : d.length = L := by omega
    have hzero : (L : ℤ) - d.length ≤ 0 := by omega
    rw [if_neg hshort, readSyncLoop]
    rw [if_pos hzero]
    refine ⟨_, false, d.length, pure_ok.mpr rfl, ?_, ?_, by omega, by omega, fun _ => by omega, ?_⟩
    · rfl
    · rw [← htake]
    · exact fun h => absurd h (by decide)

/-! ## A call of `_read` -/

/-- Where the length is no positive `int`, nothing is read. -/
theorem read_empty {trueSize : ℕ} (n : ℕ) (h : toInt size ≤ 0) :
    read filer trueSize (n + 2) inSize offset size = .ok (some []) := by
  have hs : readSync filer inSize (n + 3) offset size [] 0 = .ok (⟨offset, toInt size, 0, [], 0⟩, false) := by
    rw [readSync, readSyncLoop]
    exact if_pos h
  rw [read, readLoop, hs]
  simp only [bind, Except.bind]
  rw [if_neg (lt_irrefl 0), if_neg Bool.false_ne_true]
  rfl

theorem add_lt_of_le {r l : ℕ} (hr : r ≤ l - offset) (hl : l < 2 ^ 64) (hoff : offset < 2 ^ 64) : offset + r < 2 ^ 64 := by
  omega

/-- What a read gets that is done after one more call. -/
theorem readLoop_ok (bl : List Byte) (k n : ℕ) (hf : filer.Honest file) (hin : inSize ≤ file.length)
    (hfile : file.length < offset + 2 ^ 63) (hl : file.length < 2 ^ 64) (hoff : offset < 2 ^ 64) (hsize : 0 < toInt size) (hlt : size < 2 ^ 64) :
    readLoop filer file.length (n + 1) inSize offset size bl k =
      .ok (some (bl ++ (file.drop offset).take (toInt size).toNat)) ∨
    ∃ (r k' : ℕ), (r : ℤ) < toInt size ∧ inSize ≤ offset + r ∧ offset + r < file.length ∧
      readLoop filer file.length (n + 1) inSize offset size bl k =
        readLoop filer file.length n file.length (offset + r) (size - r) (bl ++ (file.drop offset).take r) k' := by
  obtain ⟨s, checkeof, r, hs, hread, hbl, hr, hle, hdone, hcheck⟩ :=
    readSync_ok bl k n hf hin hfile hsize
  rw [readLoop, hs]
  simp only [hread, bind, Except.bind]
  rw [if_neg (not_lt.mpr (Int.natCast_nonneg r))]
  cases checkeof with
  | false =>
    left
    rw [← hdone rfl, Int.toNat_natCast, hbl]
    rfl
  | true =>
    obtain ⟨hlt', hin'⟩ := hcheck rfl
    have hend : offset + r < 2 ^ 64 := add_lt_of_le hr hl hoff
    rw [if_pos rfl, toUInt64_add hend, toUInt64_sub (toInt_sub hle).1 hlt]
    by_cases hmore : offset + r < file.length
    · right
      exact ⟨r, s.reads, hlt', hin', hmore, by rw [if_pos hmore, hbl]⟩
    · left
      -- all bytes of the file were read
      have hlen : (file.drop offset).length ≤ r := by
        rw [List.length_drop]
        exact Nat.sub_le_of_le_add (Nat.add_comm offset r ▸ not_lt.mp hmore)
      have hr' : r ≤ (toInt size).toNat := (Int.le_toNat hsize.le).mpr hle
      rw [if_neg hmore, hbl, List.take_of_length_le hlen, List.take_of_length_le (hlen.trans hr')]
      rfl

theorem add_toNat_sub {r : ℕ} {l : ℤ} (h : (r : ℤ) ≤ l) : r + (l - r).toNat = l.toNat := by
  omega

/-- A read gets the bytes of the file up to the length as an `int`. -/
theorem read_ok (hf : filer.Honest file) (hin : inSize ≤ file.length) (hfile : file.length < offset + 2 ^ 63)
    (hl : file.length < 2 ^ 64) (hoff : offset < 2 ^ 64) (hsize : 0 < toInt size) (hlt : size < 2 ^ 64) :
    read filer file.length (n + 2) inSize offset size = .ok (some ((file.drop offset).take (toInt size).toNat)) := by
  rw [read]
  rcases readLoop_ok [] 0 (n + 1) hf hin hfile hl hoff hsize hlt with h | ⟨r, k', hr, -, hmore, h⟩
  · rw [h, List.nil_append]
  · obtain ⟨hle, hsub⟩ := toInt_sub hr.le
    have hpos : 0 < toInt (size - r : ℕ) := by
      rw [hsub]
      exact sub_pos.mpr hr
    have hfile' : file.length < offset + r + 2 ^ 63 :=
      hfile.trans_le (Nat.add_le_add_right (Nat.le_add_right offset r) _)
    have hnext := readLoop_ok ((file.drop offset).take r) k' n hf le_rfl hfile' hl (hmore.trans hl) hpos
      ((Nat.sub_le size r).trans_lt hlt)
    rw [h, List.nil_append]
    rcases hnext with h' | ⟨r', k'', -, hin', hmore', -⟩
    · rw [h', hsub, ← List.drop_drop, ← List.take_add, add_toNat_sub hr.le]
    · exact absurd hmore' (not_lt.mpr hin')

/-! ## The result of a read -/

/-- A read ends with bytes of the file from the offset on: some, unless none
are asked for or there are none, and all that were asked for below 2^31. -/
def Reads (file : List Byte) (inSize offset size : ℕ) : Prop :=
  ∀ filer, Filer.Honest filer file → ∃ out, (∀ n, read filer file.length (n + 2) inSize offset size = .ok (some out)) ∧
    out <+: file.drop offset ∧ (out = [] → size = 0 ∨ file.length ≤ offset) ∧
    (size < 2 ^ 31 → out.length = min size (file.length - offset))

/-- Nothing is asked for, or there is nothing, or the length is a positive `int`. -/
def Positive (file : List Byte) (offset size : ℕ) : Prop := size = 0 ∨ file.length ≤ offset ∨ 0 < toInt size

/-- The filer that returns all it is asked for. -/
def full (file : List Byte) : Filer := fun _ pos n => some ((file.drop pos).take n)

theorem honest_full (file : List Byte) : (full file).Honest file :=
  fun _ _ _ => ⟨[], (List.append_nil _).symm, by simp⟩

theorem toInt_of_small (h : size < 2 ^ 31) : toInt size = size := toInt_of_lt (by omega) (by omega)

/-- A read that returns the file's bytes has a positive length; and such a
read does, if the file ends less than 2^63 bytes after the offset. -/
theorem reads_iff (hin : inSize ≤ file.length) (hoff : offset < 2 ^ 63) (hlt : size < 2 ^ 64) :
    (Reads file inSize offset size → Positive file offset size) ∧
      (file.length < offset + 2 ^ 63 → Positive file offset size → Reads file inSize offset size) := by
  constructor
  · intro h
    by_cases hpos : 0 < toInt size
    · exact .inr (.inr hpos)
    · obtain ⟨out, hout, -, hempty, -⟩ := h (full file) (honest_full file)
      have hnil := hout 0
      rw [read_empty 0 (not_lt.mp hpos)] at hnil
      cases hnil
      exact (hempty rfl).imp_right .inl
  · intro hfile h filer hf
    have hl : file.length < 2 ^ 64 := by omega
    have hoff' : offset < 2 ^ 64 := by omega
    by_cases hpos : 0 < toInt size
    · refine ⟨(file.drop offset).take (toInt size).toNat, fun n => ?_, List.take_prefix _ _, fun hnil => ?_, fun hsmall => ?_⟩
      · rw [read_ok hf hin hfile hl hoff' hpos hlt]
      · rw [List.take_eq_nil_iff, List.drop_eq_nil_iff] at hnil
        refine .inr (hnil.resolve_left fun hz => ?_)
        exact absurd (Int.toNat_eq_zero.mp hz) (not_le.mpr hpos)
      · rw [List.length_take, List.length_drop, toInt_of_small hsmall, Int.toNat_natCast]
    · refine ⟨[], fun n => ?_, List.nil_prefix, fun _ => ?_, fun hsmall => ?_⟩
      · rw [read_empty n (not_lt.mp hpos)]
      · rcases h with h | h | h
        · exact .inl h
        · exact .inr h
        · exact absurd h hpos
      · rw [toInt_of_small hsmall] at hpos
        have hzero : size = 0 := by omega
        rw [hzero, Nat.zero_min, List.length_nil]

/-- The client knows one byte of a file of three, of which it reads eight. -/
theorem reads_iff_three : Reads [1, 2, 0] 1 0 8 := by
  have hpos : 0 < toInt ((8 : ℕ) : ℤ) := by
    rw [toInt_of_small (by decide)]
    decide
  exact (reads_iff (by decide) (by decide) (by decide)).2 (by decide) (.inr (.inr hpos))

/-- Of 2^32 bytes of a file of one, none is read. -/
theorem not_reads :
    (∀ n, read (full [7]) 1 (n + 2) 1 0 (2 ^ 32) = .ok (some [])) ∧ ¬ Reads [7] 1 0 (2 ^ 32) := by
  have hle : toInt ((2 ^ 32 : ℕ) : ℤ) ≤ 0 := by
    rw [toInt]
    decide
  refine ⟨fun n => read_empty n hle, fun h => ?_⟩
  obtain ⟨out, hout, -, hempty, -⟩ := h (full [7]) (honest_full [7])
  have hnil := hout 0
  rw [read_empty 0 hle] at hnil
  cases hnil
  exact absurd (hempty rfl) (by decide)

end CephMds.ReadSync
