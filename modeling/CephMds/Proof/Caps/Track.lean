import CephMds.Model.CapMigrate
import CephMds.Proof.Caps.View

/-!
# What the client knows of a chain of migrations

How far the messages of each rank have been received (`Progress`), and what the
view of the caps is then (`Track`, with one `Fits` for each rank). A note, an import
and an export keep it (`Track.note`, `Track.importCap`, `Track.exportCap`), where the
two exceptions do not apply: a trace that was sent before the import and is received
after a later import, and an export that is received after the next one has been
settled.
-/

namespace CephMds.Caps

open Checked

/-! ## Sequence numbers -/

theorem cephSeqCmp_ofNat {a b : ℕ} (ha : a < 2 ^ 31) (hb : b < 2 ^ 31) :
    cephSeqCmp (BitVec.ofNat 32 a) (BitVec.ofNat 32 b) = (a : ℤ) - b := by
  rw [cephSeqCmp, BitVec.toInt_sub, BitVec.toInt_ofNat', BitVec.toInt_ofNat']
  simp only [Int.bmod_def]
  omega

theorem ofNat_sub_one {a : ℕ} (ha : 0 < a) : BitVec.ofNat 32 a - 1 = BitVec.ofNat 32 (a - 1) := by
  obtain ⟨b, rfl⟩ : ∃ b, a = b + 1 := ⟨a - 1, by omega⟩
  rw [BitVec.ofNat_add]
  simp

/-! ## Progress -/

/-- What has been received: the ranks whose import and whose export has arrived, and the sequence
number and the caps of the last message of each rank. -/
structure Progress where
  imported : Set ℕ
  exported : Set ℕ
  seq : ℕ → ℕ
  caps : ℕ → Mask

namespace Progress

/-- The export to `k` has arrived. -/
def after (p : Progress) (k : ℕ) : Prop := ∃ j ∈ p.exported, k = j + 1

def note (p : Progress) (k : ℕ) (note : Note) : Progress :=
  { p with seq := Function.update p.seq k note.seq, caps := Function.update p.caps k note.caps }

def importCap (p : Progress) (ch : Chain) (k : ℕ) : Progress :=
  { p.note k ⟨false, ch.seq k, ch.caps k⟩ with imported := insert k p.imported }

def exportCap (p : Progress) (k : ℕ) : Progress := { p with exported := insert k p.exported }

end Progress

/-! ## The invariant -/

/-- The cap of rank `k`. -/
structure Fits (ch : Chain) (p : Progress) (top : ℕ) (auth : Option ℕ) (k : ℕ) (c : Option Core) : Prop where
  ids : ∀ x ∈ c, x.capId = ch.capId k ∧ (x.mseq = 0 ∨ x.mseq = BitVec.ofNat 32 k ∧ k ≤ top + 1)
  early : k ∉ p.imported → ∀ x ∈ c, ∃ s < ch.seq k, x.seq = BitVec.ofNat 32 s ∧
    (s = p.seq k ∨ p.after k ∧ (k = top + 1 → auth = some (ch.rank k) ∧ x.mseq = BitVec.ofNat 32 k))
  own : k ∈ p.imported → k ∉ p.exported → ∀ x ∈ c, x.mseq = BitVec.ofNat 32 k ∧
    (∃ s ≤ p.seq k, x.seq = BitVec.ofNat 32 s ∧ (¬ p.after k → s = p.seq k)) ∧ (k = ch.n → x.issued = p.caps k)
  present : k ∈ p.imported → k ∉ p.exported → (k < ch.n → k + 1 ∉ p.imported) → c ≠ none
  gone : k ∈ p.exported → k + 1 ∈ p.imported ∨ ¬ p.after k → c = none

/-- The caps, when `top` is the last rank whose import has arrived. -/
structure Track (ch : Chain) (p : Progress) (top : ℕ) (v : View) : Prop where
  top_le : top ≤ ch.n
  top_mem : top ∈ p.imported
  later : ∀ j ≤ ch.n, top < j → j ∉ p.imported
  zero : 0 ∈ p.imported
  exported : ∀ k ∈ p.exported, k ∈ p.imported ∧ k < ch.n
  early : ∀ k ≤ ch.n, k ∉ p.imported → p.seq k < ch.seq k
  own : ∀ k ≤ ch.n, k ∈ p.imported → ch.seq k ≤ p.seq k
  bound : ∀ k ≤ ch.n, p.seq k < 2 ^ 31
  fits : ∀ k ≤ ch.n, Fits ch p top v.auth k (v.caps (ch.rank k))
  lead : ∀ r, v.auth = some r → ∃ a ≤ ch.n, r = ch.rank a ∧ v.caps r ≠ none
  front : top ∉ p.exported → v.auth = some (ch.rank top)

/-- The chain, as far as the proofs need it. -/
structure Chain.Ranked (ch : Chain) : Prop where
  rank : ∀ i ≤ ch.n, ∀ j ≤ ch.n, ch.rank i = ch.rank j → i = j
  capId : ∀ k ≤ ch.n, ch.capId k ≠ 0
  pos : ∀ k ≤ ch.n, 0 < ch.seq k
  seq : ∀ k ≤ ch.n, ch.seq k < 2 ^ 31
  length : ch.n < 2 ^ 31

variable {ch : Chain} {p p' : Progress} {top top' j k : ℕ} {v v' : View} {auth auth' : Option ℕ} {c : Option Core}
  {note : Note}

theorem Chain.Ranked.update (hr : ch.Ranked) (hj : j ≤ ch.n) (hk : k ≤ ch.n) (hne : j ≠ k) {α : Type} (f : ℕ → α)
    (x : α) : Function.update f (ch.rank k) x (ch.rank j) = f (ch.rank j) :=
  Function.update_of_ne (fun he => hne (hr.rank j hj k hk he)) x f

theorem Fits.none (h : k ∈ p.imported → k ∉ p.exported → k < ch.n ∧ k + 1 ∈ p.imported) :
    Fits ch p top auth k none := by
  refine ⟨fun x hx => ?_, fun _ x hx => ?_, fun _ _ x hx => ?_, fun hi he hn _ => ?_, fun _ _ => rfl⟩
  · cases hx
  · cases hx
  · cases hx
  · obtain ⟨hlt, hnext⟩ := h hi he
    exact hn hlt hnext

/-- What concerns the other ranks only keeps the cap of `j` as it is. -/
theorem Fits.frame (h : Fits ch p top auth j c) (hi : j ∈ p'.imported ↔ j ∈ p.imported)
    (hn : j + 1 ∈ p'.imported ↔ j + 1 ∈ p.imported) (he : j ∈ p'.exported ↔ j ∈ p.exported)
    (ha : p'.after j ↔ p.after j) (hs : p'.seq j = p.seq j) (hc : p'.caps j = p.caps j) (ht : top ≤ top')
    (hauth : p.after j → j = top' + 1 → j = top + 1 ∧
      ∀ x ∈ c, auth = some (ch.rank j) → x.mseq = BitVec.ofNat 32 j → auth' = auth) :
    Fits ch p' top' auth' j c := by
  refine ⟨fun x hx => ?_, fun hi' x hx => ?_, fun hi' he' x hx => ?_, fun hi' he' hn' => ?_, fun he' hg => ?_⟩
  · obtain ⟨hid, hm⟩ := h.ids x hx
    exact ⟨hid, hm.imp_right fun hm => ⟨hm.1, by omega⟩⟩
  · obtain ⟨s, hlt, hseq, hcase⟩ := h.early (fun hm => hi' (hi.mpr hm)) x hx
    refine ⟨s, hlt, hseq, ?_⟩
    rw [hs, ha]
    refine hcase.imp_right fun hd => ⟨hd.1, fun htop => ?_⟩
    obtain ⟨htop', hsame⟩ := hauth hd.1 htop
    obtain ⟨hlead, hm⟩ := hd.2 htop'
    exact ⟨(hsame x hx hlead hm).trans hlead, hm⟩
  · rw [ha, hs, hc]
    exact h.own (hi.mp hi') (fun hm => he' (he.mpr hm)) x hx
  · exact h.present (hi.mp hi') (fun hm => he' (he.mpr hm)) fun hlt hm => hn' hlt (hn.mpr hm)
  · rw [hn, ha] at hg
    exact h.gone (he.mp he') hg

/-- The cap stays the auth cap, when it is not older. -/
theorem View.add_auth {g : Grant} {mds r : ℕ} {x : Core} (hr : v.auth = some r) (hx : v.caps r = some x)
    (hge : ¬ cephSeqCmp x.mseq g.mseq < 0) : (v.add mds g).auth = v.auth := by
  refine if_neg fun h => ?_
  rcases h.2.2 with hnone | ⟨y, hy, hlt⟩
  · rw [hr] at hnone
    cases hnone
  · rw [hr] at hy
    have hxy : v.caps r = some y := hy
    rw [hx] at hxy
    cases hxy
    exact hge hlt

theorem View.add_auth_of_not {g : Grant} {mds : ℕ} (h : ¬ (g.auth = true ∧ v.auth ≠ some mds)) :
    (v.add mds g).auth = v.auth := if_neg fun hc => h ⟨hc.1, hc.2.1⟩

theorem View.add_auth_cases (v : View) (mds : ℕ) (g : Grant) :
    (v.add mds g).auth = v.auth ∨ (v.add mds g).auth = some mds := by
  show (if _ then some mds else v.auth) = v.auth ∨ (if _ then some mds else v.auth) = some mds
  split
  · exact .inr rfl
  · exact .inl rfl

/-! ## Notes -/

/-- A note changes the cap of its rank, and may make it the auth cap. -/
theorem Track.replace (t : Track ch p top v) (hk : k ≤ ch.n)
    (hearly : k ∉ p.imported → note.seq < ch.seq k) (hown : k ∈ p.imported → ch.seq k ≤ note.seq)
    (hbound : note.seq < 2 ^ 31) (hcaps : ∀ j ≤ ch.n, j ≠ k → v'.caps (ch.rank j) = v.caps (ch.rank j))
    (hfits : Fits ch (p.note k note) top v'.auth k (v'.caps (ch.rank k)))
    (hauth : v'.auth = v.auth ∨ v'.auth = some (ch.rank k) ∧ v'.caps (ch.rank k) ≠ none)
    (hkeep : ∀ a ≤ ch.n, top ≤ a → ∀ x, v.auth = some (ch.rank a) → v.caps (ch.rank a) = some x →
      x.mseq = BitVec.ofNat 32 a → v'.auth = v.auth)
    (hsome : v.caps (ch.rank k) ≠ none → v'.caps (ch.rank k) ≠ none) : Track ch (p.note k note) top v' := by
  have hseq : ∀ j, j ≠ k → (p.note k note).seq j = p.seq j := fun j hne => Function.update_of_ne hne _ _
  have hself : (p.note k note).seq k = note.seq := Function.update_self _ _ _
  refine ⟨t.top_le, t.top_mem, t.later, t.zero, t.exported, fun j hj hi => ?_, fun j hj hi => ?_, fun j hj => ?_,
    fun j hj => ?_, fun r hlead => ?_, fun hx => ?_⟩
  · rcases eq_or_ne j k with rfl | hne
    · rw [hself]
      exact hearly hi
    · rw [hseq j hne]
      exact t.early j hj hi
  · rcases eq_or_ne j k with rfl | hne
    · rw [hself]
      exact hown hi
    · rw [hseq j hne]
      exact t.own j hj hi
  · rcases eq_or_ne j k with rfl | hne
    · rw [hself]
      exact hbound
    · rw [hseq j hne]
      exact t.bound j hj
  · rcases eq_or_ne j k with rfl | hne
    · exact hfits
    · rw [hcaps j hj hne]
      refine (t.fits j hj).frame .rfl .rfl .rfl .rfl (hseq j hne) (Function.update_of_ne hne _ _) le_rfl
        fun _ htop => ⟨htop, fun x hx hlead hm => ?_⟩
      exact hkeep j hj (by omega) x hlead hx hm
  · rcases hauth with hsame | ⟨hself, hne⟩
    · rw [hsame] at hlead
      obtain ⟨a, ha, rfl, hcap⟩ := t.lead r hlead
      refine ⟨a, ha, rfl, ?_⟩
      rcases eq_or_ne a k with rfl | hak
      · exact hsome hcap
      · rw [hcaps a ha hak]
        exact hcap
    · rw [hself] at hlead
      cases hlead
      exact ⟨k, hk, rfl, hne⟩
  · have hlead := t.front hx
    obtain ⟨-, -, -, hcap⟩ := t.lead _ hlead
    obtain ⟨x, hcap⟩ := Option.ne_none_iff_exists'.mp hcap
    have hm := ((t.fits top t.top_le).own t.top_mem hx x hcap).1
    exact (hkeep top t.top_le le_rfl x hlead hcap hm).trans hlead

/-- The cap of a rank whose import has not arrived. -/
theorem Fits.of_early {x : Core} {s : ℕ} (hi : k ∉ p.imported) (hx : k ∉ p.exported) (hid : x.capId = ch.capId k)
    (hm : x.mseq = 0 ∨ x.mseq = BitVec.ofNat 32 k ∧ k ≤ top + 1) (hlt : s < ch.seq k) (hs : x.seq = BitVec.ofNat 32 s)
    (hcase : s = p.seq k ∨
      p.after k ∧ (k = top + 1 → auth = some (ch.rank k) ∧ x.mseq = BitVec.ofNat 32 k)) :
    Fits ch p top auth k (some x) := by
  refine ⟨fun y hy => ?_, fun _ y hy => ?_, fun hi' => absurd hi' hi, fun hi' => absurd hi' hi,
    fun hx' => absurd hx' hx⟩
  · cases hy
    exact ⟨hid, hm⟩
  · cases hy
    exact ⟨s, hlt, hs, hcase⟩

/-- The cap of a rank whose import has arrived. -/
theorem Fits.of_own {x : Core} {s : ℕ} (hi : k ∈ p.imported) (hx : k ∉ p.exported) (hid : x.capId = ch.capId k)
    (hm : x.mseq = BitVec.ofNat 32 k) (hle : k ≤ top + 1) (hs : x.seq = BitVec.ofNat 32 s) (hlt : s ≤ p.seq k)
    (hsame : ¬ p.after k → s = p.seq k) (hissued : k = ch.n → x.issued = p.caps k) :
    Fits ch p top auth k (some x) := by
  refine ⟨fun y hy => ?_, fun hi' => absurd hi hi', fun _ _ y hy => ?_, fun _ _ _ hnone => ?_,
    fun hx' => absurd hx' hx⟩
  · cases hy
    exact ⟨hid, .inr ⟨hm, hle⟩⟩
  · cases hy
    exact ⟨hm, ⟨s, hlt, hs, hsame⟩, hissued⟩
  · cases hnone

theorem Track.le_top (t : Track ch p top v) (hk : k ≤ ch.n) (hi : k ∈ p.imported) : k ≤ top := by
  by_contra hlt
  exact t.later k hk (by omega) hi

/-- The export to `k` comes from a rank whose import has arrived. -/
theorem Track.le_of_after (t : Track ch p top v) (hk : k ≤ ch.n) (ha : p.after k) : k ≤ top + 1 := by
  obtain ⟨i, hx, rfl⟩ := ha
  have hle := t.le_top (by omega) (t.exported i hx).1
  omega

theorem Track.not_exported (t : Track ch p top v) (hi : k ∉ p.imported) : k ∉ p.exported :=
  fun hx => hi (t.exported k hx).1

/-- A trace that was sent before the import. -/
theorem Track.preTrace (t : Track ch p top v) (hr : ch.Ranked) (hk : k ≤ ch.n) (hi : k ∉ p.imported)
    (hnew : p.seq k < note.seq) (hlt : note.seq < ch.seq k)
    (hok : p.after k → (∃ j ≤ ch.n, k < j ∧ j ∈ p.imported) →
      ∀ x ∈ v.caps (ch.rank k), ¬ cephSeqCmp (BitVec.ofNat 32 note.seq) x.seq ≤ 0) :
    ∃ g, v.merge (ch.rank k) ⟨ch.capId k, note.caps, BitVec.ofNat 32 note.seq, BitVec.ofNat 32 0, false⟩ = .ok g ∧
      Track ch (p.note k note) top (v.add (ch.rank k) g) := by
  have hseq := hr.seq k hk
  have hx := t.not_exported hi
  have hself : (p.note k note).seq k = note.seq := Function.update_self _ _ _
  -- The cap of the rank itself becomes `x`, and the auth cap stays.
  have htrack : ∀ g : Grant, (v.add (ch.rank k) g).auth = v.auth →
      Fits ch (p.note k note) top v.auth k ((v.add (ch.rank k) g).caps (ch.rank k)) →
      Track ch (p.note k note) top (v.add (ch.rank k) g) := by
    intro g hauth hfits
    refine t.replace hk (fun _ => hlt) (fun hi' => absurd hi' hi) (by omega)
      (fun j hj hne => hr.update hj hk hne _ _) (hauth ▸ hfits) (.inl hauth) (fun _ _ _ _ _ _ _ => hauth) fun _ hnone => ?_
    cases (Function.update_self _ _ _).symm.trans hnone
  have hfresh : Track ch (p.note k note) top (v.add (ch.rank k)
      ⟨ch.capId k, note.caps, BitVec.ofNat 32 note.seq, BitVec.ofNat 32 0, false⟩) := by
    refine htrack _ (View.add_auth_of_not fun h => Bool.false_ne_true h.1) ?_
    refine (congrArg _ (Function.update_self _ _ _)).mpr ?_
    exact .of_early hi hx rfl (.inl rfl) hlt rfl (.inl hself.symm)
  rcases Option.eq_none_or_eq_some (v.caps (ch.rank k)) with hcap | ⟨x, hcap⟩
  · refine ⟨_, ?_, hfresh⟩
    rw [View.merge, hcap]
    rfl
  obtain ⟨s, hs, hxs, hcase⟩ := (t.fits k hk).early hi x hcap
  obtain ⟨hid, hm⟩ := (t.fits k hk).ids x hcap
  have hcmp := cephSeqCmp_ofNat (show note.seq < 2 ^ 31 by omega) (show s < 2 ^ 31 by omega)
  by_cases hle : cephSeqCmp (BitVec.ofNat 32 note.seq) x.seq ≤ 0
  · have hcmp' := hxs ▸ hle
    rw [hcmp] at hcmp'
    obtain ⟨ha, htop⟩ := hcase.resolve_left (by omega)
    have hktop : k = top + 1 := by
      have hsucc := t.le_of_after hk ha
      have hlt : ¬ k < top := fun hlt => hok ha ⟨top, t.top_le, hlt, t.top_mem⟩ x hcap hle
      have hne : k ≠ top := fun he => hi (he ▸ t.top_mem)
      omega
    obtain ⟨hlead, hmk⟩ := htop hktop
    refine ⟨⟨ch.capId k, note.caps ∪ x.issued, x.seq, x.mseq, true⟩, ?_, ?_⟩
    · rw [View.merge, hcap]
      show (if cephSeqCmp (BitVec.ofNat 32 note.seq) x.seq ≤ 0 then _ else _) = _
      rw [if_pos hle, hlead, hid]
      simp [Checked.assert]
    · refine htrack _ (View.add_auth_of_not fun h => h.2 hlead) ?_
      refine (congrArg _ (Function.update_self _ _ _)).mpr ?_
      exact .of_early hi hx rfl hm hs hxs (.inr ⟨ha, fun _ => ⟨hlead, hmk⟩⟩)
  · refine ⟨_, ?_, hfresh⟩
    rw [View.merge, hcap]
    exact if_neg hle

/-- A trace that was sent after the import. -/
theorem Track.postTrace (t : Track ch p top v) (hr : ch.Ranked) (hk : k ≤ ch.n) (hi : k ∈ p.imported)
    (hx : k ∉ p.exported) (hnew : p.seq k < note.seq) (hbound : note.seq < 2 ^ 31) (hgrow : p.caps k ⊆ note.caps) :
    v.merge (ch.rank k) ⟨ch.capId k, note.caps, BitVec.ofNat 32 note.seq, BitVec.ofNat 32 k, true⟩ =
      .ok ⟨ch.capId k, note.caps, BitVec.ofNat 32 note.seq, BitVec.ofNat 32 k, true⟩ ∧
    Track ch (p.note k note) top
      (v.add (ch.rank k) ⟨ch.capId k, note.caps, BitVec.ofNat 32 note.seq, BitVec.ofNat 32 k, true⟩) := by
  have hown := t.own k hk hi
  have hktop := t.le_top hk hi
  have hlength := hr.length
  have hself : (p.note k note).seq k = note.seq := Function.update_self _ _ _
  constructor
  · rw [View.merge]
    rcases Option.eq_none_or_eq_some (v.caps (ch.rank k)) with hcap | ⟨x, hcap⟩
    · rw [hcap]
      rfl
    · obtain ⟨-, ⟨s, hs, hxs, -⟩, -⟩ := (t.fits k hk).own hi hx x hcap
      rw [hcap]
      refine if_neg ?_
      show ¬ cephSeqCmp (BitVec.ofNat 32 note.seq) x.seq ≤ 0
      rw [hxs, cephSeqCmp_ofNat hbound (by omega)]
      omega
  · refine t.replace hk (fun hi' => absurd hi hi') (fun _ => by omega) hbound
      (fun j hj hne => hr.update hj hk hne _ _) ?_ ?_ (fun a ha hle x hlead hcap hm => ?_) fun _ hnone => ?_
    · refine (congrArg _ (Function.update_self _ _ _)).mpr ?_
      refine .of_own hi hx rfl rfl (by omega) rfl (le_of_eq hself.symm) (fun _ => hself.symm) fun hn => ?_
      have hcaps : (p.note k note).caps k = note.caps := Function.update_self _ _ _
      rw [hcaps]
      obtain ⟨x, hcap⟩ := Option.ne_none_iff_exists'.mp ((t.fits k hk).present hi hx fun hlt => absurd hn (by omega))
      obtain ⟨-, -, hissued⟩ := (t.fits k hk).own hi hx x hcap
      show (v.caps (ch.rank k)).elim ∅ Core.issued ∪ note.caps = note.caps
      rw [hcap]
      show x.issued ∪ note.caps = note.caps
      rw [hissued hn]
      exact Finset.union_eq_right.mpr hgrow
    · refine (View.add_auth_cases v _ _).imp_right fun hauth => ⟨hauth, fun hnone => ?_⟩
      cases (Function.update_self _ _ _).symm.trans hnone
    · refine View.add_auth hlead hcap ?_
      show ¬ cephSeqCmp x.mseq (BitVec.ofNat 32 k) < 0
      rw [hm, cephSeqCmp_ofNat (by omega) (by omega)]
      omega
    · cases (Function.update_self _ _ _).symm.trans hnone

/-- A grant for the cap that is there. -/
theorem Track.grant {x : Core} (t : Track ch p top v) (hr : ch.Ranked) (hk : k ≤ ch.n) (hx : k ∉ p.exported)
    (hnew : p.seq k < note.seq) (hbound : note.seq < 2 ^ 31) (hearly : k ∉ p.imported → note.seq < ch.seq k)
    (hcap : v.caps (ch.rank k) = some x) :
    Track ch (p.note k note) top (v.grant (ch.rank k) (BitVec.ofNat 32 note.seq) note.caps) := by
  have hself : (p.note k note).seq k = note.seq := Function.update_self _ _ _
  have hcaps : (p.note k note).caps k = note.caps := Function.update_self _ _ _
  have hv : (v.grant (ch.rank k) (BitVec.ofNat 32 note.seq) note.caps).caps (ch.rank k) =
      some { x with seq := BitVec.ofNat 32 note.seq, issued := note.caps } := by
    refine (Function.update_self _ _ _).trans ?_
    rw [hcap]
    rfl
  refine t.replace hk hearly (fun hi => ?_) hbound (fun j hj hne => hr.update hj hk hne _ _) ?_ (.inl rfl)
    (fun _ _ _ _ _ _ _ => rfl) fun _ hnone => ?_
  · have hown := t.own k hk hi
    omega
  · rw [hv]
    obtain ⟨hid, hm⟩ := (t.fits k hk).ids x hcap
    by_cases hi : k ∈ p.imported
    · have hle := t.le_top hk hi
      obtain ⟨hmk, -, -⟩ := (t.fits k hk).own hi hx x hcap
      exact .of_own hi hx hid hmk (by omega) rfl (le_of_eq hself.symm) (fun _ => hself.symm) fun _ => hcaps.symm
    · exact .of_early hi hx hid hm (hearly hi) rfl (.inl hself.symm)
  · rw [hv] at hnone
    cases hnone

/-- A grant for a cap that is not there is ignored. -/
theorem Track.missed (t : Track ch p top v) (hk : k ≤ ch.n) (hnew : p.seq k < note.seq) (hbound : note.seq < 2 ^ 31)
    (hearly : k ∉ p.imported → note.seq < ch.seq k) (hcap : v.caps (ch.rank k) = none) :
    Track ch (p.note k note) top v := by
  refine t.replace hk hearly (fun hi => ?_) hbound (fun _ _ _ => rfl) ?_ (.inl rfl) (fun _ _ _ _ _ _ _ => rfl) id
  · have hown := t.own k hk hi
    omega
  · rw [hcap]
    refine .none fun hi hx => ?_
    by_contra hn
    exact (t.fits k hk).present hi hx (fun hlt hnext => hn ⟨hlt, hnext⟩) hcap

/-! ## Imports -/

theorem View.dropPeer_spec (v : View) (peer : Peer) (hzero : peer.capId ≠ 0)
    (hid : ∀ x ∈ v.caps peer.mds, x.capId = peer.capId) :
    (v.dropPeer peer).caps = Function.update v.caps peer.mds none ∧
    ((v.dropPeer peer).auth = v.auth ∧ (v.auth = some peer.mds → v.caps peer.mds = none) ∨
      v.auth = some peer.mds ∧ (v.dropPeer peer).auth = none) := by
  rw [View.dropPeer]
  rcases Option.eq_none_or_eq_some (v.caps peer.mds) with hcap | ⟨x, hcap⟩
  · rw [hcap, if_neg (by simp)]
    refine ⟨?_, .inl ⟨rfl, fun _ => rfl⟩⟩
    rw [← hcap, Function.update_eq_self]
  · rw [hcap, if_pos ⟨hzero, congrArg some (hid x hcap)⟩]
    refine ⟨rfl, ?_⟩
    by_cases hauth : v.auth = some peer.mds
    · exact .inr ⟨hauth, if_pos hauth⟩
    · exact .inl ⟨if_neg hauth, fun he => absurd he hauth⟩

/-- The grant of an import. -/
def Chain.taken (ch : Chain) (k : ℕ) : Grant :=
  ⟨ch.capId k, ch.caps k, BitVec.ofNat 32 (ch.seq k), BitVec.ofNat 32 k, true⟩

/-- The view after the import of `k`. -/
def View.importCap (v : View) (ch : Chain) (k : ℕ) : View :=
  ((v.add (ch.rank k) (ch.taken k)).dropPeer (ch.peer (k - 1))).grant (ch.rank k) (BitVec.ofNat 32 (ch.seq k)) (ch.caps k)

/-- The import gives the cap of its rank, and takes away that of the rank before. -/
theorem Track.importCap_caps {i : ℕ} (t : Track ch p top v) (hr : ch.Ranked) (hk : i + 1 ≤ ch.n) :
    (v.importCap ch (i + 1)).caps (ch.rank (i + 1)) =
      some ⟨ch.capId (i + 1), BitVec.ofNat 32 (ch.seq (i + 1)), BitVec.ofNat 32 (i + 1), ch.caps (i + 1)⟩ ∧
    (v.importCap ch (i + 1)).caps (ch.rank i) = none ∧
    (∀ j ≤ ch.n, j ≠ i + 1 → j ≠ i → (v.importCap ch (i + 1)).caps (ch.rank j) = v.caps (ch.rank j)) ∧
    ((v.importCap ch (i + 1)).auth = (v.add (ch.rank (i + 1)) (ch.taken (i + 1))).auth ∧
        (v.importCap ch (i + 1)).auth ≠ some (ch.rank i) ∨
      (v.add (ch.rank (i + 1)) (ch.taken (i + 1))).auth = some (ch.rank i) ∧
        (v.importCap ch (i + 1)).auth = none) := by
  set w := v.add (ch.rank (i + 1)) (ch.taken (i + 1)) with hw
  have hwi : w.caps (ch.rank i) = v.caps (ch.rank i) := hr.update (by omega) hk (by omega) _ _
  obtain ⟨hcaps, hauth⟩ := w.dropPeer_spec (ch.peer i) (hr.capId i (by omega)) fun x hx => by
    rw [show (ch.peer i).mds = ch.rank i from rfl, hwi] at hx
    exact ((t.fits i (by omega)).ids x hx).1
  have hgrant : ∀ j ≤ ch.n, j ≠ i + 1 →
      (v.importCap ch (i + 1)).caps (ch.rank j) = (w.dropPeer (ch.peer i)).caps (ch.rank j) :=
    fun j hj hne => hr.update hj hk hne _ _
  refine ⟨?_, ?_, fun j hj hne hni => ?_, ?_⟩
  · have hself : (w.dropPeer (ch.peer i)).caps (ch.rank (i + 1)) = w.caps (ch.rank (i + 1)) := by
      rw [hcaps]
      exact hr.update hk (by omega) (by omega) _ _
    refine (Function.update_self _ _ _).trans ?_
    rw [show i + 1 - 1 = i from rfl, hself, hw]
    refine (congrArg _ (Function.update_self _ _ _)).trans ?_
    rfl
  · rw [hgrant i (by omega) (by omega), hcaps]
    exact Function.update_self _ _ _
  · rw [hgrant j hj hne, hcaps]
    refine (hr.update hj (by omega) hni _ _).trans ?_
    exact hr.update hj hk hne _ _
  · refine hauth.imp_left fun h => ⟨h.1, fun he => ?_⟩
    have hwauth : w.auth = some (ch.rank i) := h.1.symm.trans he
    have hnone := h.2 hwauth
    -- The auth cap is there: it is the new one, or the one that was the auth cap before.
    rcases View.add_auth_cases v (ch.rank (i + 1)) (ch.taken (i + 1)) with hsame | hnew
    · rw [← hw, hwauth] at hsame
      obtain ⟨-, -, -, hsome⟩ := t.lead _ hsame.symm
      exact hsome (hwi.symm.trans hnone)
    · rw [← hw, hwauth, Option.some.injEq] at hnew
      have heq := hr.rank i (by omega) (i + 1) hk hnew
      omega

/-- A later import makes its cap the auth cap. -/
theorem Track.importCap_lead {i : ℕ} (t : Track ch p top v) (hr : ch.Ranked) (hk : i + 1 ≤ ch.n) (hlt : top < i + 1) :
    (v.importCap ch (i + 1)).auth = some (ch.rank (i + 1)) := by
  have hlength := hr.length
  have hadd : (v.add (ch.rank (i + 1)) (ch.taken (i + 1))).auth = some (ch.rank (i + 1)) := by
    rcases Option.eq_none_or_eq_some v.auth with hnone | ⟨r, hlead⟩
    · refine if_pos ⟨rfl, fun he => ?_, .inl hnone⟩
      rw [hnone] at he
      cases he
    obtain ⟨a, ha, rfl, hcap⟩ := t.lead r hlead
    obtain ⟨x, hcap⟩ := Option.ne_none_iff_exists'.mp hcap
    rcases eq_or_ne a (i + 1) with rfl | hne
    · exact (View.add_auth_of_not fun h => h.2 hlead).trans hlead
    refine if_pos ⟨rfl, fun he => ?_, .inr ⟨x, ?_, ?_⟩⟩
    · rw [hlead, Option.some.injEq] at he
      exact hne (hr.rank a ha (i + 1) hk he)
    · rw [hlead]
      exact hcap
    · show cephSeqCmp x.mseq (BitVec.ofNat 32 (i + 1)) < 0
      rcases ((t.fits a ha).ids x hcap).2 with hm | ⟨hm, hle⟩
      · rw [hm, show (0 : BitVec 32) = BitVec.ofNat 32 0 from rfl, cephSeqCmp_ofNat (by omega) (by omega)]
        omega
      · rw [hm, cephSeqCmp_ofNat (by omega) (by omega)]
        omega
  obtain ⟨-, -, -, hauth | ⟨hold, -⟩⟩ := t.importCap_caps hr hk
  · exact hauth.1.trans hadd
  · rw [hadd, Option.some.injEq] at hold
    have heq := hr.rank (i + 1) hk i (by omega) hold
    omega

/-- An earlier import leaves the auth cap. -/
theorem Track.importCap_keep {i a : ℕ} {x : Core} (t : Track ch p top v) (hr : ch.Ranked) (hk : i + 1 ≤ ch.n)
    (hle : i + 1 ≤ top) (ha : a ≤ ch.n) (hta : top ≤ a) (hlead : v.auth = some (ch.rank a))
    (hcap : v.caps (ch.rank a) = some x) (hm : x.mseq = BitVec.ofNat 32 a) :
    (v.importCap ch (i + 1)).auth = v.auth := by
  have hlength := hr.length
  have hadd : (v.add (ch.rank (i + 1)) (ch.taken (i + 1))).auth = v.auth := by
    refine View.add_auth hlead hcap ?_
    show ¬ cephSeqCmp x.mseq (BitVec.ofNat 32 (i + 1)) < 0
    rw [hm, cephSeqCmp_ofNat (by omega) (by omega)]
    omega
  obtain ⟨-, -, -, hauth | ⟨hold, -⟩⟩ := t.importCap_caps hr hk
  · exact hauth.1.trans hadd
  · rw [hadd, hlead, Option.some.injEq] at hold
    have heq := hr.rank a ha i (by omega) hold
    omega

theorem Track.importCap {i : ℕ} (t : Track ch p top v) (hr : ch.Ranked) (hk : i + 1 ≤ ch.n) (hi : i + 1 ∉ p.imported) :
    v.merge (ch.rank (i + 1)) (ch.taken (i + 1)) = .ok (ch.taken (i + 1)) ∧
    Track ch (p.importCap ch (i + 1)) (max top (i + 1)) (v.importCap ch (i + 1)) := by
  obtain ⟨hself, hgone, hother, -⟩ := t.importCap_caps hr hk
  have hseq : ∀ j, j ≠ i + 1 → (p.importCap ch (i + 1)).seq j = p.seq j := fun j hne => Function.update_of_ne hne _ _
  have hseqk : (p.importCap ch (i + 1)).seq (i + 1) = ch.seq (i + 1) := Function.update_self _ _ _
  have hcapsk : (p.importCap ch (i + 1)).caps (i + 1) = ch.caps (i + 1) := Function.update_self _ _ _
  have hmem : ∀ j, j ≠ i + 1 → (j ∈ (p.importCap ch (i + 1)).imported ↔ j ∈ p.imported) :=
    fun j hne => Set.mem_insert_iff.trans (or_iff_right hne)
  have hx := t.not_exported hi
  constructor
  · rw [View.merge]
    rcases Option.eq_none_or_eq_some (v.caps (ch.rank (i + 1))) with hcap | ⟨x, hcap⟩
    · rw [hcap]
      rfl
    · obtain ⟨s, hs, hxs, -⟩ := (t.fits (i + 1) hk).early hi x hcap
      have hbound := hr.seq (i + 1) hk
      rw [hcap]
      refine if_neg ?_
      show ¬ cephSeqCmp (BitVec.ofNat 32 (ch.seq (i + 1))) x.seq ≤ 0
      rw [hxs, cephSeqCmp_ofNat hbound (by omega)]
      omega
  refine ⟨max_le t.top_le hk, ?_, fun j hj hlt => ?_, Set.mem_insert_of_mem _ t.zero, fun j hj => ?_, fun j hj hji => ?_,
    fun j hj hji => ?_, fun j hj => ?_, fun j hj => ?_, fun r hlead => ?_, fun hfront => ?_⟩
  · rcases le_total top (i + 1) with hle | hle
    · rw [max_eq_right hle]
      exact Set.mem_insert _ _
    · rw [max_eq_left hle]
      exact Set.mem_insert_of_mem _ t.top_mem
  · rw [hmem j (by omega)]
    exact t.later j hj (by omega)
  · exact ⟨Set.mem_insert_of_mem _ (t.exported j hj).1, (t.exported j hj).2⟩
  · have hne : j ≠ i + 1 := fun he => hji (he ▸ Set.mem_insert _ _)
    rw [hseq j hne]
    exact t.early j hj fun hm => hji (Set.mem_insert_of_mem _ hm)
  · rcases eq_or_ne j (i + 1) with rfl | hne
    · rw [hseqk]
    · rw [hseq j hne]
      exact t.own j hj ((hmem j hne).mp hji)
  · rcases eq_or_ne j (i + 1) with rfl | hne
    · rw [hseqk]
      exact hr.seq _ hk
    · rw [hseq j hne]
      exact t.bound j hj
  · -- The cap of the import, the one it replaces, and the others.
    rcases eq_or_ne j (i + 1) with rfl | hne
    · rw [hself]
      exact .of_own (Set.mem_insert _ _) hx rfl rfl (by omega) rfl (le_of_eq hseqk.symm) (fun _ => hseqk.symm)
        fun _ => hcapsk.symm
    rcases eq_or_ne j i with rfl | hni
    · rw [hgone]
      exact .none fun _ _ => ⟨by omega, Set.mem_insert _ _⟩
    rw [hother j hj hne hni]
    refine (t.fits j hj).frame (hmem j hne) (hmem (j + 1) (by omega)) .rfl .rfl (hseq j hne)
      (Function.update_of_ne hne _ _) (le_max_left _ _) fun ha htop => ?_
    have hle := t.le_of_after hj ha
    refine ⟨by omega, fun x hxj hlead hm => ?_⟩
    exact t.importCap_keep hr hk (by omega) hj (by omega) hlead hxj hm
  · rcases le_or_gt (i + 1) top with hle | hlt
    · have hsome : ∀ a ≤ ch.n, v.caps (ch.rank a) ≠ none → ch.rank a ≠ ch.rank i →
          (v.importCap ch (i + 1)).caps (ch.rank a) ≠ none := by
        intro a ha hcap hne
        rcases eq_or_ne a (i + 1) with rfl | hak
        · rw [hself]
          exact Option.some_ne_none _
        · rw [hother a ha hak fun he => hne (congrArg _ he)]
          exact hcap
      obtain ⟨-, -, -, ⟨hauth, hne⟩ | ⟨-, hnone⟩⟩ := t.importCap_caps hr hk
      · rcases View.add_auth_cases v (ch.rank (i + 1)) (ch.taken (i + 1)) with hsame | hnew
        · obtain ⟨a, ha, rfl, hcap⟩ := t.lead r (hsame.symm.trans (hauth.symm.trans hlead))
          refine ⟨a, ha, rfl, hsome a ha hcap fun he => hne ?_⟩
          rw [hlead, he]
        · rw [hauth, hnew] at hlead
          cases hlead
          refine ⟨i + 1, hk, rfl, ?_⟩
          rw [hself]
          exact Option.some_ne_none _
      · rw [hnone] at hlead
        cases hlead
    · rw [t.importCap_lead hr hk hlt] at hlead
      cases hlead
      refine ⟨i + 1, hk, rfl, ?_⟩
      rw [hself]
      exact Option.some_ne_none _
  · rcases le_or_gt (i + 1) top with hle | hlt
    · rw [max_eq_left hle] at hfront ⊢
      have hlead := t.front hfront
      obtain ⟨-, -, -, hcap⟩ := t.lead _ hlead
      obtain ⟨x, hcap⟩ := Option.ne_none_iff_exists'.mp hcap
      have hm := ((t.fits top t.top_le).own t.top_mem hfront x hcap).1
      exact (t.importCap_keep hr hk hle t.top_le le_rfl hlead hcap hm).trans hlead
    · rw [max_eq_right hlt.le]
      exact t.importCap_lead hr hk hlt

/-! ## Exports -/

/-- An export removes the cap of its rank, and may change that of the next one. -/
theorem Track.depart (t : Track ch p top v) (hr : ch.Ranked) (hk : k < ch.n) (hi : k ∈ p.imported)
    (hnone : v'.caps (ch.rank k) = none)
    (hother : ∀ j ≤ ch.n, j ≠ k → j ≠ k + 1 → v'.caps (ch.rank j) = v.caps (ch.rank j))
    (hfits : Fits ch (p.exportCap k) top v'.auth (k + 1) (v'.caps (ch.rank (k + 1))))
    (hsome : v.caps (ch.rank (k + 1)) ≠ none → v'.caps (ch.rank (k + 1)) ≠ none)
    (hauth : v'.auth = v.auth ∧ v.auth ≠ some (ch.rank k) ∨ v.auth = some (ch.rank k) ∧
      (v'.auth = none ∨ v'.auth = some (ch.rank (k + 1)) ∧ v'.caps (ch.rank (k + 1)) ≠ none)) :
    Track ch (p.exportCap k) top v' := by
  have hmem : ∀ j, j ≠ k → (j ∈ (p.exportCap k).exported ↔ j ∈ p.exported) :=
    fun j hne => Set.mem_insert_iff.trans (or_iff_right hne)
  -- The authority of another rank stays.
  have hkeep : ∀ a ≤ ch.n, a ≠ k → v.auth = some (ch.rank a) → v'.auth = v.auth := by
    intro a ha hne hlead
    rcases hauth with hsame | ⟨hold, -⟩
    · exact hsame.1
    · rw [hlead, Option.some.injEq] at hold
      exact absurd (hr.rank a ha k hk.le hold) hne
  refine ⟨t.top_le, t.top_mem, t.later, t.zero, fun j hj => ?_, t.early, t.own, t.bound, fun j hj => ?_,
    fun r hlead => ?_, fun hfront => ?_⟩
  · rcases Set.mem_insert_iff.mp hj with rfl | hj
    · exact ⟨hi, hk⟩
    · exact t.exported j hj
  · rcases eq_or_ne j k with rfl | hne
    · rw [hnone]
      exact .none fun _ hx => absurd (Set.mem_insert _ _) hx
    rcases eq_or_ne j (k + 1) with rfl | hnext
    · exact hfits
    rw [hother j hj hne hnext]
    have hafter : (p.exportCap k).after j ↔ p.after j := by
      refine exists_congr fun i => ?_
      rcases eq_or_ne i k with rfl | hik
      · exact ⟨fun h => absurd h.2 hnext, fun h => absurd h.2 hnext⟩
      · rw [hmem i hik]
    refine (t.fits j hj).frame .rfl .rfl (hmem j hne) hafter rfl rfl le_rfl fun _ htop => ⟨htop, fun _ _ hlead _ => ?_⟩
    exact hkeep j hj hne hlead
  · rcases hauth with ⟨hsame, hne⟩ | ⟨-, hgone | ⟨hnext, hcap⟩⟩
    · rw [hsame] at hlead
      obtain ⟨a, ha, rfl, hcap⟩ := t.lead r hlead
      refine ⟨a, ha, rfl, ?_⟩
      have hak : a ≠ k := fun he => hne (he ▸ hlead)
      rcases eq_or_ne a (k + 1) with rfl | han
      · exact hsome hcap
      · rw [hother a ha hak han]
        exact hcap
    · rw [hgone] at hlead
      cases hlead
    · rw [hnext] at hlead
      cases hlead
      exact ⟨k + 1, hk, rfl, hcap⟩
  · have hne : top ≠ k := fun he => hfront (he ▸ Set.mem_insert _ _)
    have hlead := t.front fun hx => hfront (Set.mem_insert_of_mem _ hx)
    exact (hkeep top t.top_le hne hlead).trans hlead

/-- The cap of the next rank is newer than the export, or becomes what the export names. -/
theorem Track.exportTo_cases {c : Core} (t : Track ch p top v) (hr : ch.Ranked) (hk : k < ch.n) (hi : k ∈ p.imported)
    (hx : k ∉ p.exported) (hcap : v.caps (ch.rank k) = some c) :
    v.exportTo (ch.rank k) c (ch.peer (k + 1)) = v ∧ k + 1 ∈ p.imported ∧ v.caps (ch.rank (k + 1)) ≠ none ∨
    ∃ issued, (v.exportTo (ch.rank k) c (ch.peer (k + 1))).caps = Function.update v.caps (ch.rank (k + 1))
        (some ⟨ch.capId (k + 1), BitVec.ofNat 32 (ch.seq (k + 1)) - 1, BitVec.ofNat 32 (k + 1), issued⟩) ∧
      (v.exportTo (ch.rank k) c (ch.peer (k + 1))).auth =
        (if v.auth = some (ch.rank k) then some (ch.rank (k + 1)) else v.auth) ∧
      (k + 1 ∈ p.imported → v.caps (ch.rank (k + 1)) = none) := by
  have hlength := hr.length
  have hafter : ¬ p.after (k + 1) := by
    rintro ⟨j, hj, he⟩
    cases he
    exact hx hj
  rw [View.exportTo, if_neg (show ¬ (ch.peer (k + 1)).capId = 0 from hr.capId (k + 1) hk),
    show (ch.peer (k + 1)).mds = ch.rank (k + 1) from rfl]
  rcases Option.eq_none_or_eq_some (v.caps (ch.rank (k + 1))) with hnone | ⟨x, hsome⟩
  · -- A new cap, which takes over the authority.
    right
    simp only [hnone]
    refine ⟨_, rfl, ?_, fun _ => trivial⟩
    by_cases hlead : v.auth = some (ch.rank k)
    · rw [if_pos hlead]
      refine if_pos ⟨beq_iff_eq.mpr hlead, fun he => ?_, .inr ⟨c, ?_, ?_⟩⟩
      · rw [hlead, Option.some.injEq] at he
        have heq := hr.rank k hk.le (k + 1) hk he
        omega
      · rw [hlead]
        exact hcap
      · show cephSeqCmp c.mseq (BitVec.ofNat 32 (k + 1)) < 0
        rw [((t.fits k hk.le).own hi hx c hcap).1, cephSeqCmp_ofNat (by omega) (by omega)]
        omega
    · rw [if_neg hlead]
      exact View.add_auth_of_not fun h => hlead (beq_iff_eq.mp h.1)
  · obtain ⟨hid, -⟩ := (t.fits (k + 1) hk).ids x hsome
    have hseq := hr.seq (k + 1) hk
    simp only [hsome]
    by_cases hnext : k + 1 ∈ p.imported
    · left
      have hxn : k + 1 ∉ p.exported := by
        intro hxn
        cases hsome.symm.trans ((t.fits (k + 1) hk).gone hxn (.inr hafter))
      obtain ⟨-, ⟨s, -, hxs, hs⟩, -⟩ := (t.fits (k + 1) hk).own hnext hxn x hsome
      have hown := t.own (k + 1) hk hnext
      have hbound := t.bound (k + 1) hk
      refine ⟨if_neg ?_, hnext, Option.some_ne_none _⟩
      rintro (hne | hlt)
      · exact hne hid
      · have hlt' : cephSeqCmp x.seq (BitVec.ofNat 32 (ch.seq (k + 1))) < 0 := hlt
        rw [hxs, hs hafter, cephSeqCmp_ofNat hbound hseq] at hlt'
        omega
    · right
      obtain ⟨s, hs, hxs, -⟩ := (t.fits (k + 1) hk).early hnext x hsome
      have hlt : cephSeqCmp x.seq (BitVec.ofNat 32 (ch.seq (k + 1))) < 0 := by
        rw [hxs, cephSeqCmp_ofNat (by omega) hseq]
        omega
      have hupdate : v.updatePeer (ch.rank k) c x (ch.peer (k + 1)) = _ := if_pos (.inr hlt)
      rw [hupdate]
      exact ⟨_, rfl, rfl, fun h => absurd h hnext⟩

theorem Progress.mem_exportCap : k + 1 ∈ (p.exportCap k).exported ↔ k + 1 ∈ p.exported :=
  Set.mem_insert_iff.trans (or_iff_right (Nat.succ_ne_self k))

/-- Where the next cap stays as it is, the arrival of the export only weakens what is known of it. -/
theorem Track.fits_stay (t : Track ch p top v) (hk : k < ch.n)
    (hcase : v.caps (ch.rank (k + 1)) = none ∨ k + 1 ∈ p.imported) (auth : Option ℕ) :
    Fits ch (p.exportCap k) top auth (k + 1) (v.caps (ch.rank (k + 1))) := by
  have hafter : (p.exportCap k).after (k + 1) := ⟨k, Set.mem_insert _ _, rfl⟩
  have hold := t.fits (k + 1) hk
  refine ⟨hold.ids, fun hi' x hxc => ?_, fun hi' hx' x hxc => ?_, fun hi' hx' hn => ?_, fun hx' hg => ?_⟩
  · rcases hcase with hnone | hmem
    · rw [hnone] at hxc
      cases hxc
    · exact absurd hmem hi'
  · obtain ⟨hm, ⟨s, hs, hxs, -⟩, hissued⟩ := hold.own hi' (fun h => hx' (Progress.mem_exportCap.mpr h)) x hxc
    exact ⟨hm, ⟨s, hs, hxs, fun h => absurd hafter h⟩, hissued⟩
  · exact hold.present hi' (fun h => hx' (Progress.mem_exportCap.mpr h)) hn
  · exact hold.gone (Progress.mem_exportCap.mp hx') (.inl (hg.resolve_right fun h => h hafter))

/-- The export finds no cap of its rank. -/
theorem Track.exportCap_none (t : Track ch p top v) (hr : ch.Ranked) (hk : k < ch.n) (hi : k ∈ p.imported)
    (hx : k ∉ p.exported) (hcap : v.caps (ch.rank k) = none) : Track ch (p.exportCap k) top v := by
  have hlead : v.auth ≠ some (ch.rank k) := by
    intro hlead
    obtain ⟨-, -, -, hsome⟩ := t.lead _ hlead
    exact hsome hcap
  refine t.depart hr hk hi hcap (fun _ _ _ _ => rfl) (t.fits_stay hk ?_ _) id (.inl ⟨rfl, hlead⟩)
  right
  -- The cap of the last rank that has not exported is there.
  by_contra hnext
  exact (t.fits k hk.le).present hi hx (fun _ => hnext) hcap

theorem View.remove_caps (hr : ch.Ranked) (hk : k < ch.n) (w : View) (hj : j ≤ ch.n) (hjk : j ≠ k) :
    (w.remove (ch.rank k)).caps (ch.rank j) = w.caps (ch.rank j) := hr.update hj hk.le hjk _ _

/-- The cap of the next rank is newer than the export. -/
theorem Track.exportCap_kept (t : Track ch p top v) (hr : ch.Ranked) (hk : k < ch.n) (hi : k ∈ p.imported)
    (hnext : k + 1 ∈ p.imported) : Track ch (p.exportCap k) top (v.remove (ch.rank k)) := by
  have hsame := View.remove_caps hr hk v hk (Nat.succ_ne_self k)
  refine t.depart hr hk hi (Function.update_self _ _ _) (fun j hj hjk _ => View.remove_caps hr hk v hj hjk) ?_
    (fun h => ?_) ?_
  · rw [hsame]
    exact t.fits_stay hk (.inr hnext) _
  · rw [hsame]
    exact h
  · by_cases hlead : v.auth = some (ch.rank k)
    · exact .inr ⟨hlead, .inl (if_pos hlead)⟩
    · exact .inl ⟨if_neg hlead, hlead⟩

/-- What the export names fits as the cap of the next rank, unless that rank has exported it already. -/
theorem Track.fits_named (t : Track ch p top v) (hr : ch.Ranked) (hk : k < ch.n) (hi : k ∈ p.imported)
    (hx : k ∉ p.exported) (issued : Mask) (hnone : k + 1 ∈ p.imported → v.caps (ch.rank (k + 1)) = none)
    (hok : k + 1 ∈ p.exported → k + 1 + 1 ∉ p.imported)
    (hlead : v.auth = some (ch.rank k) → auth = some (ch.rank (k + 1))) :
    Fits ch (p.exportCap k) top auth (k + 1)
      (some ⟨ch.capId (k + 1), BitVec.ofNat 32 (ch.seq (k + 1)) - 1, BitVec.ofNat 32 (k + 1), issued⟩) := by
  have hafter : (p.exportCap k).after (k + 1) := ⟨k, Set.mem_insert _ _, rfl⟩
  have hold := t.fits (k + 1) hk
  have hktop := t.le_top hk.le hi
  by_cases hnext : k + 1 ∈ p.imported
  · have hown := t.own (k + 1) hk hnext
    by_cases hexp : k + 1 ∈ p.exported
    · refine ⟨fun x hxc => ?_, fun hi' => absurd hnext hi',
        fun _ hx' => absurd (Progress.mem_exportCap.mpr hexp) hx', fun _ _ _ h => ?_,
        fun _ hg => absurd (hg.resolve_right fun h => h hafter) (hok hexp)⟩
      · cases hxc
        exact ⟨rfl, .inr ⟨rfl, by omega⟩⟩
      · cases h
    · have hlt : k + 1 < ch.n := by
        by_contra hlast
        exact hold.present hnext hexp (fun h => absurd h hlast) (hnone hnext)
      exact .of_own hnext (fun h => hexp (Progress.mem_exportCap.mp h)) rfl rfl (by omega)
        (ofNat_sub_one (hr.pos (k + 1) hk)) (show ch.seq (k + 1) - 1 ≤ p.seq (k + 1) by omega)
        (fun h => absurd hafter h) fun h => by omega
  · have hpos := t.early (k + 1) hk hnext
    have hexp : k + 1 ∉ (p.exportCap k).exported := fun h => t.not_exported hnext (Progress.mem_exportCap.mp h)
    refine .of_early hnext hexp rfl (.inr ⟨rfl, by omega⟩) (show ch.seq (k + 1) - 1 < ch.seq (k + 1) by omega)
      (ofNat_sub_one (by omega)) (.inr ⟨hafter, fun htop => ⟨hlead ?_, rfl⟩⟩)
    have hkt : k = top := by omega
    rw [hkt] at hx ⊢
    exact t.front hx

/-- The cap of the next rank becomes what the export names. -/
theorem Track.exportCap_named {w : View} (t : Track ch p top v) (hr : ch.Ranked) (hk : k < ch.n) (hi : k ∈ p.imported)
    (hx : k ∉ p.exported) (issued : Mask) (hnone : k + 1 ∈ p.imported → v.caps (ch.rank (k + 1)) = none)
    (hok : k + 1 ∈ p.exported → k + 1 + 1 ∉ p.imported)
    (hcaps : w.caps = Function.update v.caps (ch.rank (k + 1))
      (some ⟨ch.capId (k + 1), BitVec.ofNat 32 (ch.seq (k + 1)) - 1, BitVec.ofNat 32 (k + 1), issued⟩))
    (hauth : w.auth = if v.auth = some (ch.rank k) then some (ch.rank (k + 1)) else v.auth) :
    Track ch (p.exportCap k) top (w.remove (ch.rank k)) := by
  have hne : ch.rank (k + 1) ≠ ch.rank k := by
    intro he
    have heq := hr.rank (k + 1) hk k hk.le he
    omega
  have hnextcap : (w.remove (ch.rank k)).caps (ch.rank (k + 1)) =
      some ⟨ch.capId (k + 1), BitVec.ofNat 32 (ch.seq (k + 1)) - 1, BitVec.ofNat 32 (k + 1), issued⟩ := by
    rw [View.remove_caps hr hk w hk (Nat.succ_ne_self k), hcaps]
    exact Function.update_self _ _ _
  have hlead : v.auth = some (ch.rank k) → (w.remove (ch.rank k)).auth = some (ch.rank (k + 1)) := by
    intro hlead
    rw [if_pos hlead] at hauth
    refine (if_neg ?_).trans hauth
    rw [hauth, Option.some.injEq]
    exact hne
  refine t.depart hr hk hi (Function.update_self _ _ _) (fun j hj hjk hjn => ?_) ?_ (fun _ => ?_) ?_
  · rw [View.remove_caps hr hk w hj hjk, hcaps]
    exact hr.update hj hk hjn _ _
  · rw [hnextcap]
    exact t.fits_named hr hk hi hx issued hnone hok hlead
  · rw [hnextcap]
    exact Option.some_ne_none _
  · by_cases hold : v.auth = some (ch.rank k)
    · refine .inr ⟨hold, .inr ⟨hlead hold, ?_⟩⟩
      rw [hnextcap]
      exact Option.some_ne_none _
    · rw [if_neg hold] at hauth
      refine .inl ⟨(if_neg ?_).trans hauth, hold⟩
      rw [hauth]
      exact hold

/-- The export from `k`, unless that from `k + 1` and the import after it have arrived before. -/
theorem Track.exportCap (t : Track ch p top v) (hr : ch.Ranked) (hk : k < ch.n) (hi : k ∈ p.imported)
    (hx : k ∉ p.exported)
    (hok : v.caps (ch.rank k) ≠ none → k + 1 ∈ p.exported → k + 1 + 1 ∉ p.imported) :
    Track ch (p.exportCap k) top
      (v.exportCap (ch.rank k) ⟨ch.capId k, ∅, 0, BitVec.ofNat 32 k, ∅, ch.peer (k + 1)⟩) := by
  rcases Option.eq_none_or_eq_some (v.caps (ch.rank k)) with hcap | ⟨c, hcap⟩
  · rw [View.exportCap, hcap]
    exact t.exportCap_none hr hk hi hx hcap
  obtain ⟨hid, -⟩ := (t.fits k hk.le).ids c hcap
  have hv : v.exportCap (ch.rank k) ⟨ch.capId k, ∅, 0, BitVec.ofNat 32 k, ∅, ch.peer (k + 1)⟩ =
      (v.exportTo (ch.rank k) c (ch.peer (k + 1))).remove (ch.rank k) := by
    rw [View.exportCap, hcap]
    exact if_neg fun h => h hid
  rw [hv]
  rcases t.exportTo_cases hr hk hi hx hcap with ⟨hsame, hnext, -⟩ | ⟨issued, hcaps, hauth, hnone⟩
  · rw [hsame]
    exact t.exportCap_kept hr hk hi hnext
  · refine t.exportCap_named hr hk hi hx issued hnone (hok ?_) hcaps hauth
    rw [hcap]
    exact Option.some_ne_none _

end CephMds.Caps
