import CephMds.Model.DentryKey

/-!
# Keys can be read back

`decode_helper` inverts the encoding of a key: the part behind the last
underscore is written in characters other than the underscore, and `head` is
not a number. So the keys of different dentries differ on disk.
-/

namespace CephMds.Dentries

open Checked

instance : Std.LawfulEqOrd Key := ⟨fun h => compare_eq_iff_eq.mp h⟩

/-! ## Numbers -/

theorem digitValue_hexDigit : ∀ d < 16, digitValue (hexDigit d) = some d := by decide

theorem isSpace_hexDigit : ∀ d < 16, isSpace (hexDigit d) = false := by decide

theorem hexDigit_ne : ∀ d < 16, hexDigit d ≠ underscore ∧ hexDigit d ≠ 43 ∧ hexDigit d ≠ 45 ∧
    hexDigit d ≠ 120 ∧ hexDigit d ≠ 88 ∧ hexDigit d ≠ 104 := by decide

/-- The digits that `hex` writes, the most significant one first. -/
def hexDigits (n : ℕ) : List ℕ := if n = 0 then [0] else (Nat.digits 16 n).reverse

theorem hex_eq (n : ℕ) : hex n = (hexDigits n).map hexDigit := by
  rw [hex, hexDigits]
  split <;> rfl

theorem hexDigits_lt {n d : ℕ} (h : d ∈ hexDigits n) : d < 16 := by
  rw [hexDigits] at h
  split at h
  · rw [List.mem_singleton] at h
    omega
  · exact Nat.digits_lt_base (by decide) (List.mem_reverse.mp h)

theorem hexDigits_ne_nil (n : ℕ) : hexDigits n ≠ [] := by
  rw [hexDigits]
  split
  · simp
  · rename_i h
    simpa [Nat.digits_eq_nil_iff_eq_zero] using h

theorem scanDigits_map {ds : List ℕ} (h : ∀ d ∈ ds, d < 16) (acc : ℕ) :
    scanDigits acc (ds.map hexDigit) = 16 ^ ds.length * acc + Nat.ofDigits 16 ds.reverse := by
  induction ds generalizing acc with
  | nil => simp [scanDigits]
  | cons d ds ih =>
    have hd : d < 16 := h d List.mem_cons_self
    rw [List.map_cons, scanDigits, digitValue_hexDigit d hd]
    dsimp only
    rw [ih (fun x hx => h x (List.mem_cons_of_mem d hx)), List.reverse_cons, Nat.ofDigits_append,
      List.length_reverse, Nat.ofDigits_singleton, List.length_cons, pow_succ]
    ring

theorem scanDigits_hex (n : ℕ) : scanDigits 0 (hex n) = n := by
  rw [hex_eq, scanDigits_map (fun d hd => hexDigits_lt hd), mul_zero, zero_add, hexDigits]
  split
  · rename_i h
    rw [h]
    rfl
  · rw [List.reverse_reverse, Nat.ofDigits_digits]

/-- No `0x` stands before the digits of a number. -/
theorem skipPrefix_map {ds : List ℕ} (h : ∀ d ∈ ds, d < 16) : skipPrefix (ds.map hexDigit) = ds.map hexDigit := by
  match ds with
  | [] => rfl
  | [d] =>
    rw [List.map_singleton, skipPrefix]
    intro b bs hb
    simp at hb
  | d :: e :: ds =>
    have he := hexDigit_ne e (h e (by simp))
    rw [List.map_cons, List.map_cons]
    by_cases h0 : hexDigit d = 48
    · rw [h0, skipPrefix, if_neg (by simp [he.2.2.2.1, he.2.2.2.2.1])]
    · rw [skipPrefix]
      intro b bs hb
      exact absurd (List.cons_eq_cons.mp hb).1 h0

theorem scanHex_hex (s : Snapid) : scanHex (hex s) = s := by
  obtain ⟨d, ds, hds⟩ : ∃ d ds, hexDigits s = d :: ds := List.exists_cons_of_ne_nil (hexDigits_ne_nil s)
  have hd : d < 16 := hexDigits_lt (n := s) (by rw [hds]; exact List.mem_cons_self)
  have hne := hexDigit_ne d hd
  have hhex : hex s = hexDigit d :: ds.map hexDigit := by rw [hex_eq, hds, List.map_cons]
  have hspace : (hex s).dropWhile isSpace = hex s := by
    rw [hhex, List.dropWhile_cons_of_neg]
    simp [isSpace_hexDigit d hd]
  have hskip : skipPrefix (hex s) = hex s := by
    rw [hex_eq]
    exact skipPrefix_map fun d hd => hexDigits_lt hd
  have hvalue : (⟨min (scanDigits 0 (skipPrefix (hex s))) (2 ^ 64 - 1), by omega⟩ : Snapid) = s := by
    apply Fin.ext
    show min (scanDigits 0 (skipPrefix (hex s))) (2 ^ 64 - 1) = s
    rw [hskip, scanDigits_hex]
    have := s.isLt
    omega
  rw [scanHex, hspace]
  dsimp only
  split
  · rename_i bs heq
    rw [hhex] at heq
    exact absurd (List.cons_eq_cons.mp heq).1 hne.2.1
  · rename_i bs heq
    rw [hhex] at heq
    exact absurd (List.cons_eq_cons.mp heq).1 hne.2.2.1
  · exact hvalue

/-! ## Keys -/

/-- What stands behind the last underscore of a key. -/
def Key.ending (k : Key) : List Byte := if k.snapid ≠ cephNosnap then hex k.snapid else head

theorem underscore_not_mem_hex (n : ℕ) : underscore ∉ hex n := by
  rw [hex_eq, List.mem_map]
  rintro ⟨d, hd, he⟩
  exact (hexDigit_ne d (hexDigits_lt hd)).1 he

theorem hex_ne_head (n : ℕ) : hex n ≠ head := by
  intro h
  have hmem : (104 : Byte) ∈ hex n := by
    rw [h]
    decide
  rw [hex_eq, List.mem_map] at hmem
  obtain ⟨d, hd, he⟩ := hmem
  exact (hexDigit_ne d (hexDigits_lt hd)).2.2.2.2.2 he

theorem underscore_not_mem_ending (k : Key) : underscore ∉ k.ending := by
  rw [Key.ending]
  split
  · exact underscore_not_mem_hex _
  · decide

/-- A key can be read back from the directory object. -/
theorem decodeHelper_encode (k : Key) : decodeHelper k.encode = .ok k := by
  have hrev : k.encode.reverse = k.ending.reverse ++ underscore :: k.name.reverse := by
    rw [Key.encode, ← Key.ending]
    simp
  have hall : ∀ b ∈ k.ending.reverse, decide (b ≠ underscore) = true := by
    intro b hb
    rw [decide_eq_true_eq]
    rintro rfl
    exact underscore_not_mem_ending k (List.mem_reverse.mp hb)
  have htake : (k.encode.reverse.takeWhile (· ≠ underscore)).reverse = k.ending := by
    rw [hrev, List.takeWhile_append_of_pos hall, List.takeWhile_cons_of_neg (by simp), List.append_nil,
      List.reverse_reverse]
  have hdrop : k.encode.reverse.dropWhile (· ≠ underscore) = underscore :: k.name.reverse := by
    rw [hrev, List.dropWhile_append_of_pos hall, List.dropWhile_cons_of_neg (by simp)]
  rw [decodeHelper, htake, hdrop]
  dsimp only
  rw [pure_ok, List.reverse_reverse, Key.ending]
  by_cases h : k.snapid = cephNosnap
  · rw [if_neg (not_not.mpr h), if_pos rfl, ← h]
  · rw [if_pos h, if_neg (hex_ne_head _), scanHex_hex]

theorem encode_injective : Function.Injective Key.encode := by
  intro k k' h
  have h' := decodeHelper_encode k
  rw [h, decodeHelper_encode k', Except.ok.injEq] at h'
  exact h'.symm

/-! ## The buffer -/

theorem length_hex_le (s : Snapid) : (hex s).length ≤ 16 := by
  rw [hex]
  split
  · exact Nat.le_of_ble_eq_true rfl
  · rename_i h
    rw [List.length_map, List.length_reverse]
    exact Nat.digits_length_le_iff (by decide) _ |>.mpr s.isLt

/-- The longest text has 16 digits. -/
theorem length_ending_lt (k : Key) : k.ending.length < 20 := by
  rw [Key.ending]
  split
  · exact lt_of_le_of_lt (length_hex_le _) (by decide)
  · decide

theorem cString_eq {s : List Byte} (h : 0 ∉ s) : cString s = s := by
  rw [cString, List.takeWhile_eq_self_iff]
  intro b hb
  rw [decide_eq_true_eq]
  rintro rfl
  exact h hb

/-- The buffer is large enough. -/
theorem encodeBuffered_eq {k : Key} (h : 0 ∉ k.name) : k.encodeBuffered = k.encode := by
  have hfits : snprintf 20 k.ending = k.ending := List.take_of_length_le (Nat.le_sub_one_of_lt (length_ending_lt k))
  rw [Key.encodeBuffered, Key.encode, ← Key.ending, cString_eq h, hfits]

/-- The key of a name without a 0 is read back as it was, it is that of no other dentry, and it
is read as the head only if it is. -/
theorem decodeHelper_encodeBuffered {name : List Byte} (hname : 0 ∉ name) (snapid : Snapid) :
    decodeHelper (Key.mk name snapid).encodeBuffered = .ok ⟨name, snapid⟩ ∧
    (∀ name' snapid', 0 ∉ name' →
      (Key.mk name snapid).encodeBuffered = (Key.mk name' snapid').encodeBuffered → name = name' ∧ snapid = snapid') ∧
    ∀ k, decodeHelper (Key.mk name snapid).encodeBuffered = .ok k → (k.snapid = cephNosnap ↔ snapid = cephNosnap) := by
  have hkey := encodeBuffered_eq (k := ⟨name, snapid⟩) hname
  have hround := decodeHelper_encode ⟨name, snapid⟩
  rw [hkey]
  refine ⟨hround, fun name' snapid' hname' he => ?_, fun k hk => ?_⟩
  · rw [encodeBuffered_eq (k := ⟨name', snapid'⟩) hname'] at he
    exact Key.mk.inj (encode_injective he)
  · rw [hround, Except.ok.injEq] at hk
    rw [← hk]

/-- A name that looks like the key of another dentry. -/
theorem decodeHelper_encodeBuffered_head :
    decodeHelper (Key.mk [97, 95, 104, 101, 97, 100] 0xff).encodeBuffered = .ok ⟨[97, 95, 104, 101, 97, 100], 0xff⟩ :=
  (decodeHelper_encodeBuffered (by decide) 0xff).1

/-- No key of a dentry is the key of another one: that of `a` at a snapshot, say,
and that of `a_ff` at the head. -/
example : (Key.mk [97] 0xff).encode ≠ (Key.mk [97, 95, 102, 102] cephNosnap).encode := by decide

end CephMds.Dentries
