import CephMds.Model.Truncate
import Mathlib

/-!
# Truncation of a file

An entry opens a truncation, closes the one that is open, or neither
(`after`), and every inode in the journal shows whether one is open
(`Chain`). What the server holds follows from the truncation that is open at
the end of what is logged (`Held`); a replay finds the same (`replay_log`).
The sizes of a request are not checked, and a truncation whose data is done does
not keep its segment while its end is not logged. So this holds as long as no
request truncates a file from 2^63 bytes or more, and no crash leaves the inode
truncating without the entry that says so (`Fits`).
-/

namespace CephMds.Truncate

open Checked Mds

variable {s s' : Mds} {o : Option ℕ} {e : Entry} {l m : List Entry} {a : Action} {as : List Action} {i : Inode}

/-! ## The truncation that is open -/

/-- The segment where the truncation started that is open after an entry. -/
def after (o : Option ℕ) (e : Entry) : Option ℕ :=
  match e.record with
  | .update true => some e.ls
  | .update false => o
  | .finish _ => none

def opening (o : Option ℕ) (l : List Entry) : Option ℕ := l.foldl after o

def Matches (o : Option ℕ) (i : Inode) : Prop :=
  match o with
  | none => i.truncatePending = 0
  | some _ => i.truncatePending = 1 ∧ i.truncateSize < i.truncateFrom ∧ i.truncateFrom < 2 ^ 63

/-- What an entry can be after the ones that left `o` open. -/
def Follows (o : Option ℕ) (e : Entry) : Prop :=
  (match e.record with
    | .update true => o = none
    | .update false => True
    | .finish ls => o = some ls) ∧
  Matches (after o e) e.inode

def Chain : Option ℕ → List Entry → Prop
  | _, [] => True
  | o, e :: l => Follows o e ∧ Chain (after o e) l

def finishes (l : List Entry) : ℕ :=
  l.countP fun e => match e.record with
    | .update _ => false
    | .finish _ => true

theorem opening_append : opening o (l ++ m) = opening (opening o l) m := List.foldl_append

theorem chain_append : Chain o (l ++ m) ↔ Chain o l ∧ Chain (opening o l) m := by
  induction l generalizing o with
  | nil => simp [Chain, opening]
  | cons e l ih => simp [Chain, ih, opening, and_assoc]

theorem matches_isTruncating (h : Matches o i) : i.isTruncating = o.isSome := by
  cases o with
  | none => simp [Inode.isTruncating, show i.truncatePending = 0 from h]
  | some x => simp [Inode.isTruncating, h.1]

theorem matches_last (hc : Chain o l) (h : Matches o i) :
    Matches (opening o l) ((l.getLast?.map Entry.inode).getD i) := by
  induction l generalizing o i with
  | nil => exact h
  | cons e l ih =>
    have hl := ih hc.2 hc.1.2
    rw [List.getLast?_cons]
    cases hm : l.getLast? with
    | none =>
      rw [hm] at hl
      exact hl
    | some x =>
      rw [hm] at hl
      exact hl

/-- An open truncation was open before, or an entry of its segment started it. -/
theorem opening_eq_some {x : ℕ} (h : opening o l = some x) : o = some x ∨ ∃ e ∈ l, e.ls = x := by
  induction l generalizing o with
  | nil => exact .inl h
  | cons e l ih =>
    rcases ih h with ho | ⟨e', he', hx⟩
    · rw [after] at ho
      split at ho
      · exact .inr ⟨e, List.mem_cons_self, Option.some.inj ho⟩
      · exact .inl ho
      · cases ho
    · exact .inr ⟨e', List.mem_cons_of_mem e he', hx⟩

/-- What a log shows by itself does not depend on what was open before. -/
theorem opening_of_isSome (h : (opening none l).isSome = true) : opening o l = opening none l := by
  induction l using List.reverseRecOn with
  | nil => cases h
  | append_singleton l e ih =>
    rw [opening_append] at h ⊢
    rw [opening_append]
    obtain ⟨ls, record, inode⟩ := e
    cases record with
    | update t =>
      cases t with
      | false => exact ih h
      | true => rfl
    | finish x => rfl

/-- As long as no entry closes it, a truncation stays open. -/
theorem opening_of_finishes {x : ℕ} (hc : Chain (some x) l) (h : finishes l = 0) : opening (some x) l = some x := by
  induction l with
  | nil => rfl
  | cons e l ih =>
    obtain ⟨ls, record, inode⟩ := e
    cases record with
    | update t =>
      cases t with
      | false => exact ih hc.2 (by simpa [finishes] using h)
      | true => exact absurd hc.1.1 (Option.some_ne_none x)
    | finish y => simp [finishes] at h

/-! ## The invariant -/

/-- What is held while the truncation `o` is open in what is logged. -/
def Held (o : Option ℕ) (s : Mds) : Prop :=
  match o with
  | none =>
    s.truncatingInodes = ∅ ∧ s.pinTruncating = 0 ∧ s.authPins = 0 ∧ s.outstanding = [] ∧ finishes s.queue = 0
  | some x =>
    s.pinTruncating = 1 ∧ s.authPins = 1 ∧
      ((∃ op, op.ls = x ∧ s.outstanding = [op] ∧ x ∈ s.segments ∧ s.truncatingInodes = {x} ∧ finishes s.queue = 0) ∨
        s.outstanding = [] ∧ s.truncatingInodes = ∅ ∧ finishes s.queue = 1)

/-- The journal, after segments that left `o` open. -/
structure Journal (o : Option ℕ) (s : Mds) : Prop where
  base : Matches o s.base
  chain : Chain o (s.logged ++ s.queue)
  inode : s.inode = (s.logged.getLast?.map Entry.inode).getD s.base
  sorted : s.segments.Pairwise (· < ·)
  ordered : ((s.logged ++ s.queue).map Entry.ls).Pairwise (· ≤ ·)
  mem : ∀ e ∈ s.logged ++ s.queue, e.ls ∈ s.segments
  old : ∀ x ∈ o, ∀ y ∈ s.segments, x < y

def Inv (s : Mds) : Prop := ∃ o, Journal o s ∧ Held (opening o s.logged) s

namespace Journal

theorem inode_matches (h : Journal o s) : Matches (opening o s.logged) s.inode := by
  rw [h.inode]
  exact matches_last (chain_append.mp h.chain).1 h.base

theorem projected (h : Journal o s) : Matches (opening o (s.logged ++ s.queue)) s.getProjectedInode := by
  rw [opening_append]
  exact matches_last (chain_append.mp h.chain).2 h.inode_matches

theorem le_current (h : Journal o s) {x : ℕ} (hx : x ∈ s.segments) : x ≤ s.current := by
  rcases List.mem_append.mp hx with hx | hx
  · exact le_of_lt ((List.pairwise_append.mp h.sorted).2.2 x hx s.current (List.mem_singleton_self _))
  · exact le_of_eq (List.mem_singleton.mp hx)

theorem current_mem (s : Mds) : s.current ∈ s.segments :=
  List.mem_append_right s.older (List.mem_singleton_self s.current)

theorem submit (h : Journal o s) {r : Record} (hf : Follows (opening o (s.logged ++ s.queue)) ⟨s.current, r, i⟩) :
    Journal o (s.submit r i) where
  base := h.base
  chain := by
    show Chain o (s.logged ++ (s.queue ++ [_]))
    rw [← List.append_assoc]
    exact chain_append.mpr ⟨h.chain, hf, trivial⟩
  inode := h.inode
  sorted := h.sorted
  ordered := by
    show ((s.logged ++ (s.queue ++ [_])).map Entry.ls).Pairwise (· ≤ ·)
    rw [← List.append_assoc, List.map_append]
    refine List.pairwise_append.mpr ⟨h.ordered, List.pairwise_singleton _ _, ?_⟩
    intro x hx y hy
    obtain ⟨e, he, rfl⟩ := List.mem_map.mp hx
    rw [List.mem_singleton.mp hy]
    exact h.le_current (h.mem e he)
  mem := by
    show ∀ e ∈ s.logged ++ (s.queue ++ [_]), e.ls ∈ s.segments
    rw [← List.append_assoc]
    intro e he
    rcases List.mem_append.mp he with he | he
    · exact h.mem e he
    · rw [List.mem_singleton.mp he]
      exact current_mem s
  old := h.old

end Journal

theorem held_submit {t : Bool} (h : Held o s) : Held o (s.submit (.update t) i) := by
  have hq : finishes (s.submit (.update t) i).queue = finishes s.queue := by
    simp [Mds.submit, finishes, List.countP_append]
  cases o with
  | none => exact ⟨h.1, h.2.1, h.2.2.1, h.2.2.2.1, hq.trans h.2.2.2.2⟩
  | some x =>
    obtain ⟨hp, ha, ⟨op, hop, ho, hx, ht, hn⟩ | ⟨ho, ht, hn⟩⟩ := h
    · exact ⟨hp, ha, .inl ⟨op, hop, ho, hx, ht, hq.trans hn⟩⟩
    · exact ⟨hp, ha, .inr ⟨ho, ht, hq.trans hn⟩⟩

/-! ## The requests -/

/-- The request truncates no file from 2^63 bytes or more, and the crash leaves the inode truncating only
if the start of the truncation is in what it leaves of the journal. -/
def Fits (s : Mds) : Action → Prop
  | .setattr size oldSize =>
    ∀ n ∈ size, n < max s.getProjectedInode.size oldSize → s.getProjectedInode.isTruncating = false →
      max s.getProjectedInode.size oldSize < 2 ^ 63
  | .openTruncate oldSize =>
    s.getProjectedInode.isTruncating = false → max s.getProjectedInode.size oldSize < 2 ^ 63
  | .crash n _ _ =>
    (((s.survivingLog n).getLast?.map Entry.inode).getD s.base).isTruncating = true →
      (opening none (s.survivingLog n)).isSome = true
  | _ => True

instance decidableFits (s : Mds) : ∀ a, Decidable (Fits s a)
  | .setattr size oldSize =>
    inferInstanceAs (Decidable (∀ n ∈ size, n < max s.getProjectedInode.size oldSize →
      s.getProjectedInode.isTruncating = false → max s.getProjectedInode.size oldSize < 2 ^ 63))
  | .openTruncate oldSize =>
    inferInstanceAs (Decidable
      (s.getProjectedInode.isTruncating = false → max s.getProjectedInode.size oldSize < 2 ^ 63))
  | .journaled => .isTrue trivial
  | .truncated _ => .isTrue trivial
  | .newSegment _ => .isTrue trivial
  | .trim => .isTrue trivial
  | .crash n _ _ =>
    inferInstanceAs (Decidable
      ((((s.survivingLog n).getLast?.map Entry.inode).getD s.base).isTruncating = true →
        (opening none (s.survivingLog n)).isSome = true))

/-- A request that changes no truncation. -/
theorem inv_update (h : Inv s) {n : ℕ} : Inv (s.submit (.update false) { s.getProjectedInode with size := n }) := by
  obtain ⟨o, hj, hh⟩ := h
  refine ⟨o, hj.submit ⟨trivial, ?_⟩, held_submit hh⟩
  have := hj.projected
  show Matches (opening o (s.logged ++ s.queue)) _
  cases hq : opening o (s.logged ++ s.queue) with
  | none =>
    rw [hq] at this
    exact this
  | some x =>
    rw [hq] at this
    exact this

theorem inv_truncate (h : Inv s) {new old : ℕ} (hlt : new < old) (hold : old < 2 ^ 63)
    (ht : s.getProjectedInode.isTruncating = false) :
    ∃ i, s.getProjectedInode.truncate old new = .ok i ∧ Inv (s.submit (.update true) i) := by
  obtain ⟨o, hj, hh⟩ := h
  have hp := hj.projected
  have hnone : opening o (s.logged ++ s.queue) = none := by
    rw [matches_isTruncating hp] at ht
    exact Option.isSome_eq_false_iff.mp ht |> Option.isNone_iff_eq_none.mp
  rw [hnone] at hp
  refine ⟨_, by rw [Inode.truncate, decide_eq_true hlt]; rfl, o, hj.submit ⟨hnone, ?_⟩, held_submit hh⟩
  refine ⟨?_, hlt, hold⟩
  show (s.getProjectedInode.truncatePending + 1) % 2 ^ 32 = 1
  rw [show s.getProjectedInode.truncatePending = 0 from hp]
  rfl

theorem inv_setattr {size : Option ℕ} {oldSize : ℕ} (h : Inv s) (hf : Fits s (.setattr size oldSize)) :
    ∃ s', s.setattr size oldSize = .ok s' ∧ Inv s' := by
  cases size with
  | none => exact ⟨_, rfl, inv_update h⟩
  | some n =>
    simp only [setattr]
    split
    · next hlt =>
      cases ht : s.getProjectedInode.isTruncating with
      | true => exact ⟨s, rfl, h⟩
      | false =>
        obtain ⟨i, hi, hinv⟩ := inv_truncate h hlt (hf n rfl hlt ht) ht
        exact ⟨_, by rw [hi]; rfl, hinv⟩
    · exact ⟨_, rfl, inv_update h⟩

theorem inv_openTruncate {oldSize : ℕ} (h : Inv s) (hf : Fits s (.openTruncate oldSize)) :
    ∃ s', s.openTruncate oldSize = .ok s' ∧ Inv s' := by
  simp only [openTruncate]
  cases ht : s.getProjectedInode.isTruncating with
  | true => exact ⟨s, rfl, h⟩
  | false =>
    simp only [Bool.false_eq_true, if_false]
    split
    · next hlt =>
      obtain ⟨i, hi, hinv⟩ := inv_truncate h hlt (hf ht) ht
      exact ⟨_, by rw [hi]; rfl, hinv⟩
    · exact ⟨_, rfl, inv_update h⟩

/-! ## The completions -/

/-- The checks of `_truncate_inode` pass while a truncation is open. -/
theorem startTruncate_ok {x : ℕ} (ls : ℕ) (h : Matches (some x) s.inode) : ∃ op, op.ls = ls ∧
    s.startTruncate ls = .ok { s with authPins := s.authPins + 1, outstanding := s.outstanding ++ [op] } := by
  obtain ⟨hp, hlt, hle⟩ := h
  have ht : s.inode.isTruncating = true := by simp [Inode.isTruncating, hp]
  refine ⟨⟨ls, s.inode.truncateSize, s.inode.truncateFrom - s.inode.truncateSize, s.inode.truncateSeq⟩, rfl, ?_⟩
  simp only [startTruncate, ht, decide_eq_true (hlt.trans hle), decide_eq_true hle, decide_eq_true hlt]
  rfl

/-- The journal once its oldest entry is logged, whatever its completion does. -/
theorem Journal.logged {q : List Entry} {ts : Finset ℕ} {p n : ℕ} {ops : List Op} (h : Journal o s)
    (hq : s.queue = e :: q) :
    Journal o { s with
      inode := e.inode, queue := q, logged := s.logged ++ [e], truncatingInodes := ts, pinTruncating := p,
      authPins := n, outstanding := ops } := by
  have happ : (s.logged ++ [e]) ++ q = s.logged ++ s.queue := by
    rw [hq, List.append_assoc]
    rfl
  refine ⟨h.base, ?_, ?_, h.sorted, ?_, ?_, h.old⟩
  · show Chain o ((s.logged ++ [e]) ++ q)
    rw [happ]
    exact h.chain
  · show e.inode = ((s.logged ++ [e]).getLast?.map Entry.inode).getD s.base
    rw [List.getLast?_concat]
    rfl
  · show (((s.logged ++ [e]) ++ q).map Entry.ls).Pairwise (· ≤ ·)
    rw [happ]
    exact h.ordered
  · show ∀ e' ∈ (s.logged ++ [e]) ++ q, e'.ls ∈ s.segments
    rw [happ]
    exact h.mem

theorem opening_concat : opening o (l ++ [e]) = after (opening o l) e := opening_append

theorem inv_logged_update {q : List Entry} {ls : ℕ} (hj : Journal o s) (hh : Held (opening o s.logged) s)
    (hq : s.queue = ⟨ls, .update false, i⟩ :: q) :
    Inv { s with inode := i, queue := q, logged := s.logged ++ [⟨ls, .update false, i⟩] } := by
  refine ⟨o, hj.logged hq, ?_⟩
  show Held (opening o (s.logged ++ _)) _
  rw [opening_concat]
  have hn : finishes s.queue = finishes q := by simp [hq, finishes]
  cases ho : opening o s.logged with
  | none =>
    rw [ho] at hh
    exact ⟨hh.1, hh.2.1, hh.2.2.1, hh.2.2.2.1, hn ▸ hh.2.2.2.2⟩
  | some x =>
    rw [ho] at hh
    obtain ⟨hp, ha, ⟨op, hop, hout, hx, ht, hf⟩ | ⟨hout, ht, hf⟩⟩ := hh
    · exact ⟨hp, ha, .inl ⟨op, hop, hout, hx, ht, hn ▸ hf⟩⟩
    · exact ⟨hp, ha, .inr ⟨hout, ht, hn ▸ hf⟩⟩

/-- The truncation of the data starts when the request is logged. -/
theorem inv_logged_start {q : List Entry} {ls : ℕ} (hj : Journal o s) (hh : Held (opening o s.logged) s)
    (hq : s.queue = ⟨ls, .update true, i⟩ :: q) :
    ∃ s', truncateInode { s with inode := i, queue := q, logged := s.logged ++ [⟨ls, .update true, i⟩] } ls = .ok s' ∧
      i.isTruncating = true ∧ Inv s' := by
  have hfol := (chain_append.mp hj.chain).2
  rw [hq] at hfol
  have hnone : opening o s.logged = none := hfol.1.1
  have hm : Matches (some ls) i := hfol.1.2
  rw [hnone] at hh
  obtain ⟨ht, hp, ha, hout, hf⟩ := hh
  obtain ⟨op, hop, hs'⟩ := startTruncate_ok ls
    (s := addTruncate { s with inode := i, queue := q, logged := s.logged ++ [⟨ls, .update true, i⟩] } ls) hm
  refine ⟨_, hs', matches_isTruncating hm, o, hj.logged hq, ?_⟩
  show Held (opening o (s.logged ++ _)) _
  rw [opening_concat]
  refine ⟨congrArg (· + 1) hp, congrArg (· + 1) ha,
    .inl ⟨op, hop, ?_, hj.mem ⟨ls, .update true, i⟩ (by simp [hq]), ?_, ?_⟩⟩
  · show s.outstanding ++ [op] = [op]
    rw [hout]
    rfl
  · show insert ls s.truncatingInodes = {ls}
    rw [ht]
    rfl
  · show finishes q = 0
    simpa [hq, finishes] using hf

theorem inv_logged_finish {q : List Entry} {ls x : ℕ} (hj : Journal o s) (hh : Held (opening o s.logged) s)
    (hq : s.queue = ⟨ls, .finish x, i⟩ :: q) :
    ∃ s', truncateInodeLogged { s with inode := i, queue := q, logged := s.logged ++ [⟨ls, .finish x, i⟩] } = .ok s' ∧
      Inv s' := by
  have hfol := (chain_append.mp hj.chain).2
  rw [hq] at hfol
  have hsome : opening o s.logged = some x := hfol.1.1
  rw [hsome] at hh
  obtain ⟨hp, ha, ⟨op, -, -, -, -, hf⟩ | ⟨hout, ht, hf⟩⟩ := hh
  · simp [hq, finishes] at hf
  · refine ⟨{ s with
        inode := i, queue := q, logged := s.logged ++ [⟨ls, .finish x, i⟩], pinTruncating := 0, authPins := 0 },
      ?_, o, hj.logged hq, ?_⟩
    · simp only [truncateInodeLogged, put, authUnpin, hp, ha]
      rfl
    · show Held (opening o (s.logged ++ _)) _
      rw [opening_concat]
      refine ⟨ht, rfl, rfl, hout, ?_⟩
      simpa [hq, finishes] using hf

theorem inv_journaled (h : Inv s) (hq : s.queue ≠ []) : ∃ s', s.journaled = .ok s' ∧ Inv s' := by
  obtain ⟨o, hj, hh⟩ := h
  obtain ⟨⟨ls, record, i⟩, q, hq⟩ := List.exists_cons_of_ne_nil hq
  rw [journaled, hq]
  cases record with
  | update t =>
    cases t with
    | false => exact ⟨_, rfl, inv_logged_update hj hh hq⟩
    | true =>
      obtain ⟨s', hs', ht, hinv⟩ := inv_logged_start hj hh hq
      refine ⟨s', ?_, hinv⟩
      simp only [complete, ht, Bool.true_and, if_true]
      exact hs'
  | finish x => exact inv_logged_finish hj hh hq

theorem inv_truncated {n : ℕ} (h : Inv s) (hn : n < s.outstanding.length) : ∃ s', s.truncated n = .ok s' ∧ Inv s' := by
  obtain ⟨o, hj, hh⟩ := h
  cases ho : opening o s.logged with
  | none =>
    rw [ho] at hh
    rw [hh.2.2.2.1] at hn
    exact absurd hn (Nat.not_lt_zero n)
  | some x =>
    rw [ho] at hh
    obtain ⟨hp, ha, ⟨op, hop, hout, -, ht, hf⟩ | ⟨hout, -⟩⟩ := hh
    · have hzero : n = 0 := by
        rw [hout] at hn
        exact Nat.lt_one_iff.mp hn
      have hopen : opening o (s.logged ++ s.queue) = some x := by
        have hc := (chain_append.mp hj.chain).2
        rw [ho] at hc
        rw [opening_append, ho]
        exact opening_of_finishes hc hf
      have hproj := hj.projected
      rw [hopen] at hproj
      let t : Mds := { s with outstanding := [], truncatingInodes := ∅ }
      have hjt : Journal o t := ⟨hj.base, hj.chain, hj.inode, hj.sorted, hj.ordered, hj.mem, hj.old⟩
      refine ⟨t.submit (.finish x) s.getProjectedInode.finish, ?_, o, hjt.submit ⟨hopen, ?_⟩, ?_⟩
      · subst hzero
        rw [truncated, hout]
        show truncateInodeFinish _ op.ls = _
        rw [truncateInodeFinish, hop, decide_eq_true (show x ∈ _ by rw [ht]; exact Finset.mem_singleton_self x)]
        show Except.ok (Mds.submit { s with outstanding := [], truncatingInodes := s.truncatingInodes.erase x } _ _) = _
        rw [ht, Finset.erase_singleton]
        rfl
      · show (s.getProjectedInode.truncatePending + (2 ^ 32 - 1)) % 2 ^ 32 = 0
        rw [hproj.1]
        rfl
      · show Held (opening o s.logged) _
        rw [ho]
        refine ⟨hp, ha, .inr ⟨rfl, rfl, ?_⟩⟩
        show finishes (s.queue ++ [_]) = 1
        rw [finishes, List.countP_append]
        rw [finishes] at hf
        rw [hf]
        rfl
    · rw [hout] at hn
      exact absurd hn (Nat.not_lt_zero n)

/-! ## Segments -/

/-- Whether the entries of a segment are a prefix of the log. -/
theorem ls_dropWhile {x : ℕ} (hs : (l.map Entry.ls).Pairwise (· ≤ ·)) (hx : ∀ e ∈ l, x ≤ e.ls) :
    ∀ e ∈ l.dropWhile (·.ls = x), e.ls ≠ x := by
  induction l with
  | nil => simp
  | cons e l ih =>
    rw [List.map_cons, List.pairwise_cons] at hs
    rw [List.dropWhile_cons]
    split
    · exact ih hs.2 fun e' he' => hx e' (List.mem_cons_of_mem e he')
    · next hne =>
      have hlt : x < e.ls := lt_of_le_of_ne (hx e List.mem_cons_self) fun h => hne (decide_eq_true h.symm)
      intro e' he'
      rcases List.mem_cons.mp he' with rfl | he'
      · exact ne_of_gt hlt
      · exact ne_of_gt (hlt.trans_le (hs.1 e'.ls (List.mem_map_of_mem he')))

theorem inv_newSegment {ls : ℕ} (h : Inv s) (hlt : s.current < ls) : Inv { s with older := s.segments, current := ls } := by
  obtain ⟨o, hj, hh⟩ := h
  have hmem : ∀ {x}, x ∈ s.segments → x ∈ s.segments ++ [ls] := List.mem_append_left [ls]
  have hall : ∀ x ∈ s.segments, x < ls := fun x hx => (hj.le_current hx).trans_lt hlt
  refine ⟨o, ⟨hj.base, hj.chain, hj.inode, ?_, hj.ordered, fun e he => hmem (hj.mem e he), ?_⟩, ?_⟩
  · refine List.pairwise_append.mpr ⟨hj.sorted, List.pairwise_singleton _ _, ?_⟩
    intro x hx y hy
    rw [List.mem_singleton.mp hy]
    exact hall x hx
  · intro x hx y hy
    rcases List.mem_append.mp hy with hy | hy
    · exact hj.old x hx y hy
    · rw [List.mem_singleton.mp hy]
      exact (hj.old x hx s.current (Journal.current_mem s)).trans hlt
  · show Held (opening o s.logged) _
    cases ho : opening o s.logged with
    | none =>
      rw [ho] at hh
      exact hh
    | some x =>
      rw [ho] at hh
      obtain ⟨hp, ha, ⟨op, hop, hout, hx, ht⟩ | hend⟩ := hh
      · exact ⟨hp, ha, .inl ⟨op, hop, hout, hmem hx, ht⟩⟩
      · exact ⟨hp, ha, .inr hend⟩

theorem inv_trim (h : Inv s) (hp : s.Possible .trim) : Inv s.trim := by
  obtain ⟨o, hj, hh⟩ := h
  obtain ⟨x, hx, hnt, hq⟩ := hp
  obtain ⟨older, hold⟩ : ∃ older, s.older = x :: older := by
    cases hs : s.older with
    | nil => simp [hs] at hx
    | cons y ys =>
      rw [hs] at hx
      cases hx
      exact ⟨ys, rfl⟩
  have hseg : s.segments = x :: (older ++ [s.current]) := by rw [segments, hold]; rfl
  have hsorted := hj.sorted
  rw [hseg, List.pairwise_cons] at hsorted
  obtain ⟨hmin, hsorted⟩ := hsorted
  have hlog : s.logged.takeWhile (·.ls = x) ++ s.logged.dropWhile (·.ls = x) = s.logged := List.takeWhile_append_dropWhile
  have hchain := hj.chain
  rw [← hlog, List.append_assoc] at hchain
  have happ := chain_append.mp hchain
  have hopen : opening (opening o (s.logged.takeWhile (·.ls = x))) (s.logged.dropWhile (·.ls = x)) = opening o s.logged := by
    rw [← opening_append, hlog]
  have hrest : ∀ e ∈ s.logged.dropWhile (·.ls = x) ++ s.queue, e.ls ∈ s.segments ∧ e.ls ≠ x := by
    intro e he
    rcases List.mem_append.mp he with he | he
    · have hsl := (List.pairwise_append.mp (List.map_append ▸ hj.ordered)).1
      refine ⟨hj.mem e (List.mem_append_left _ (List.dropWhile_subset _ he)), ls_dropWhile hsl (fun e' he' => ?_) e he⟩
      have := hj.mem e' (List.mem_append_left _ he')
      rw [hseg] at this
      rcases List.mem_cons.mp this with h | h
      · exact le_of_eq h.symm
      · exact le_of_lt (hmin _ h)
    · exact ⟨hj.mem e (List.mem_append_right _ he), hq e he⟩
  rw [trim, hold]
  refine ⟨opening o (s.logged.takeWhile (·.ls = x)), ⟨matches_last happ.1 hj.base, happ.2, ?_, hsorted, ?_, ?_, ?_⟩, ?_⟩
  · rw [hj.inode, ← hlog, List.getLast?_append]
    simp only [hlog]
    cases (s.logged.dropWhile (·.ls = x)).getLast? <;> rfl
  · have ho := hj.ordered
    rw [← hlog, List.append_assoc, List.map_append] at ho
    exact (List.pairwise_append.mp ho).2.1
  · intro e he
    obtain ⟨hm, hne⟩ := hrest e he
    rw [hseg] at hm
    exact (List.mem_cons.mp hm).resolve_left hne
  · intro y hy z hz
    rcases opening_eq_some hy with ho | ⟨e, he, rfl⟩
    · exact hj.old y ho z (hseg ▸ List.mem_cons_of_mem x hz)
    · have hls : e.ls = x := by simpa using List.mem_takeWhile_imp he
      rw [hls]
      exact hmin z hz
  · show Held (opening _ (s.logged.dropWhile _)) _
    rw [hopen]
    cases ho : opening o s.logged with
    | none =>
      rw [ho] at hh
      exact hh
    | some y =>
      rw [ho] at hh
      obtain ⟨hp, ha, ⟨op, hop, hout, hy, ht, hf⟩ | hend⟩ := hh
      · have hne : y ≠ x := fun he => hnt (he ▸ ht ▸ Finset.mem_singleton_self y)
        rw [hseg] at hy
        exact ⟨hp, ha, .inl ⟨op, hop, hout, (List.mem_cons.mp hy).resolve_left hne, ht, hf⟩⟩
      · exact ⟨hp, ha, .inr hend⟩

/-! ## Recovery -/

/-- The segments with the inode in `truncating_inodes` after a replay that leaves `o` open. -/
def started (segments : List ℕ) (o : Option ℕ) : Finset ℕ :=
  o.elim ∅ fun x => if x ∈ segments then {x} else ∅

theorem removeRecoveredTruncate_ok {x : ℕ} (ht : s.truncatingInodes = {x}) (hp : s.pinTruncating = 1) :
    s.removeRecoveredTruncate x = .ok { s with truncatingInodes := ∅, pinTruncating := 0 } := by
  have hx : x ∈ s.truncatingInodes := by rw [ht]; exact Finset.mem_singleton_self x
  rw [removeRecoveredTruncate, decide_eq_true hx, assert_true_bind, ht, Finset.erase_singleton, put]
  simp only [hp]
  rfl

/-- A replay leaves the inode with the segment of the truncation that is
open, if the segment is still there. -/
theorem replay_log (hc : Chain o l) (hmem : ∀ e ∈ l, e.ls ∈ s.segments) (ht : s.truncatingInodes = started s.segments o)
    (hp : s.pinTruncating = (started s.segments o).card) :
    l.foldlM replay s = .ok { s with
      inode := (l.getLast?.map Entry.inode).getD s.inode
      truncatingInodes := started s.segments (opening o l)
      pinTruncating := (started s.segments (opening o l)).card } := by
  induction l generalizing s o with
  | nil =>
    show Except.ok s = .ok { s with
      truncatingInodes := started s.segments o, pinTruncating := (started s.segments o).card }
    rw [← hp, ← ht]
  | cons e l ih =>
    have hstep : replay s e = .ok { s with
        inode := e.inode
        truncatingInodes := started s.segments (after o e)
        pinTruncating := (started s.segments (after o e)).card } := by
      obtain ⟨ls, record, i⟩ := e
      cases record with
      | update t =>
        cases t with
        | false =>
          show Except.ok { s with inode := i } = _
          rw [show after o ⟨ls, .update false, i⟩ = o from rfl, ← hp, ← ht]
        | true =>
          have hnone : o = none := hc.1.1
          subst hnone
          have hls : ls ∈ s.segments := hmem _ List.mem_cons_self
          have hst : started s.segments (after none ⟨ls, .update true, i⟩) = {ls} := if_pos hls
          rw [hst]
          show Except.ok (addTruncate { s with inode := i } ls) = _
          rw [addTruncate]
          simp only [ht, hp]
          rfl
      | finish x =>
        have hsome : o = some x := hc.1.1
        subst hsome
        have hst : started s.segments (after (some x) ⟨ls, .finish x, i⟩) = ∅ := rfl
        rw [hst]
        show (if x ∈ s.segments then removeRecoveredTruncate { s with inode := i } x
          else Except.ok { s with inode := i }) = _
        by_cases hx : x ∈ s.segments
        · have hs : started s.segments (some x) = {x} := if_pos hx
          rw [hs] at ht hp
          rw [if_pos hx]
          exact removeRecoveredTruncate_ok ht hp
        · have hs : started s.segments (some x) = ∅ := if_neg hx
          rw [hs] at ht hp
          rw [if_neg hx, Finset.card_empty, ← ht]
          rw [Finset.card_empty] at hp
          rw [← hp]
    rw [List.foldlM_cons, hstep]
    have hrest := ih (s := { s with
        inode := e.inode
        truncatingInodes := started s.segments (after o e)
        pinTruncating := (started s.segments (after o e)).card })
      hc.2 (fun e' he' => hmem e' (List.mem_cons_of_mem e he')) rfl rfl
    refine hrest.trans ?_
    rw [List.getLast?_cons]
    cases l.getLast? <;> rfl

/-- The loop over segments that are not truncating does nothing. -/
theorem foldlM_startTruncate_of_not_mem {xs : List ℕ} (h : ∀ x ∈ xs, x ∉ s.truncatingInodes) :
    xs.foldlM (fun s ls => if ls ∈ s.truncatingInodes then s.startTruncate ls else return s) s = .ok s := by
  induction xs with
  | nil => rfl
  | cons x xs ih =>
    rw [List.foldlM_cons, if_neg (h x List.mem_cons_self)]
    exact ih fun y hy => h y (List.mem_cons_of_mem x hy)

theorem startRecoveredTruncates_ok (hs : s.segments.Nodup) (h : Matches o s.inode) (ho : ∀ x ∈ o, x ∈ s.segments)
    (ht : s.truncatingInodes = started s.segments o) :
    ∃ ops, s.startRecoveredTruncates = .ok { s with
      authPins := s.authPins + (started s.segments o).card, outstanding := s.outstanding ++ ops } ∧
      ops.map Op.ls = o.toList := by
  cases o with
  | none =>
    refine ⟨[], ?_, rfl⟩
    rw [startRecoveredTruncates, foldlM_startTruncate_of_not_mem (by simp [ht, started]), List.append_nil]
    rfl
  | some x =>
    have hx := ho x rfl
    have hst : started s.segments (some x) = {x} := if_pos hx
    obtain ⟨xs, ys, hxy⟩ := List.append_of_mem hx
    obtain ⟨op, hop, hs'⟩ := startTruncate_ok x h
    have hnd := hs
    rw [hxy, List.nodup_append, List.nodup_cons] at hnd
    have hxs : ∀ z ∈ xs, z ∉ s.truncatingInodes := by
      intro z hz hm
      rw [ht, hst, Finset.mem_singleton] at hm
      exact hnd.2.2 z hz x List.mem_cons_self hm
    have hys : ∀ z ∈ ys, z ∉ s.truncatingInodes := by
      intro z hz hm
      rw [ht, hst, Finset.mem_singleton] at hm
      exact hnd.2.1.1 (hm ▸ hz)
    refine ⟨[op], ?_, by rw [List.map_singleton, hop]; rfl⟩
    have hin : x ∈ s.truncatingInodes := by rw [ht, hst]; exact Finset.mem_singleton_self x
    have hrest : (x :: ys).foldlM
        (fun s ls => if ls ∈ s.truncatingInodes then s.startTruncate ls else return s) s =
        Except.ok { s with authPins := s.authPins + 1, outstanding := s.outstanding ++ [op] } := by
      rw [List.foldlM_cons, if_pos hin, hs']
      exact foldlM_startTruncate_of_not_mem hys
    rw [hst, Finset.card_singleton, startRecoveredTruncates, hxy, List.foldlM_append,
      foldlM_startTruncate_of_not_mem hxs]
    exact hrest

theorem inv_crash {n k ls : ℕ} (h : Inv s) (hp : s.Possible (.crash n k ls)) (hf : Fits s (.crash n k ls)) :
    ∃ s', s.recover (s.survivingLog n) (s.survivingSegments k) ls = .ok s' ∧ Inv s' := by
  obtain ⟨o, hj, hh⟩ := h
  obtain ⟨hmem, hlt⟩ := hp
  have hpre : s.survivingLog n <+: s.logged ++ s.queue :=
    List.prefix_append_right_inj _ |>.mpr (List.take_prefix n s.queue)
  have hsub : (s.survivingSegments k).Sublist s.segments := List.take_sublist k s.segments
  have hchain : Chain o (s.survivingLog n) := by
    obtain ⟨t, ht⟩ := hpre
    have := hj.chain
    rw [← ht] at this
    exact (chain_append.mp this).1
  have hin : ∀ {x}, x ∈ s.survivingSegments k → x ∈ s.survivingSegments k ++ [ls] := List.mem_append_left [ls]
  have hm : Matches (opening o (s.survivingLog n)) (((s.survivingLog n).getLast?.map Entry.inode).getD s.base) :=
    matches_last hchain hj.base
  -- A truncation that is open now was started in a segment that is left.
  have hopen : ∀ x ∈ opening o (s.survivingLog n), x ∈ s.survivingSegments k := by
    intro x hx
    have hsome := hf (by rw [matches_isTruncating hm, Option.mem_def.mp hx]; rfl)
    rw [opening_of_isSome hsome] at hx
    obtain ⟨e, he, rfl⟩ := (opening_eq_some hx).resolve_left (Option.some_ne_none x).symm
    exact hmem e he
  have hsorted : (s.survivingSegments k ++ [ls]).Pairwise (· < ·) := by
    refine List.pairwise_append.mpr ⟨hj.sorted.sublist hsub, List.pairwise_singleton _ _, ?_⟩
    intro x hx y hy
    rw [List.mem_singleton.mp hy]
    exact hlt x hx
  have hold : ∀ x ∈ o, ∀ y ∈ s.survivingSegments k ++ [ls], x < y := by
    intro x hx y hy
    rcases List.mem_append.mp hy with hy | hy
    · exact hj.old x hx y (hsub.subset hy)
    · rw [List.mem_singleton.mp hy]
      cases hl : s.survivingLog n with
      | nil =>
        have : x ∈ s.survivingSegments k := hopen x (by rw [hl]; exact hx)
        exact hlt x this
      | cons e l =>
        have he := hmem e (by rw [hl]; exact List.mem_cons_self)
        exact (hj.old x hx e.ls (hsub.subset he)).trans (hlt e.ls he)
  let t : Mds :=
    { inode := s.base, base := s.base, logged := s.survivingLog n, queue := [], older := s.survivingSegments k,
      current := ls, truncatingInodes := ∅, pinTruncating := 0, authPins := 0, outstanding := [] }
  have hbase : started t.segments o = ∅ := by
    cases o with
    | none => rfl
    | some x => exact if_neg fun hx => lt_irrefl x (hold x rfl x hx)
  have hrep := replay_log (s := t) hchain (fun e he => hin (hmem e he)) hbase.symm (by rw [hbase]; rfl)
  obtain ⟨ops, hrec, hops⟩ := startRecoveredTruncates_ok (s := { t with
      inode := ((s.survivingLog n).getLast?.map Entry.inode).getD s.base
      truncatingInodes := started t.segments (opening o (s.survivingLog n))
      pinTruncating := (started t.segments (opening o (s.survivingLog n))).card })
    (hsorted.imp ne_of_lt) hm (fun x hx => hin (hopen x hx)) rfl
  have hrecover := (congrArg (· >>= startRecoveredTruncates) hrep).trans hrec
  refine ⟨_, hrecover, o, ⟨hj.base, ?_, rfl, hsorted, ?_, fun e he => hin (hmem e ?_), hold⟩, ?_⟩
  · show Chain o (s.survivingLog n ++ [])
    rwa [List.append_nil]
  · show ((s.survivingLog n ++ []).map Entry.ls).Pairwise (· ≤ ·)
    rw [List.append_nil]
    exact hj.ordered.sublist (hpre.sublist.map Entry.ls)
  · rwa [← List.append_nil (s.survivingLog n)]
  · show Held (opening o (s.survivingLog n)) _
    cases ho : opening o (s.survivingLog n) with
    | none =>
      rw [ho] at hops
      exact ⟨rfl, rfl, rfl, List.map_eq_nil_iff.mp hops, rfl⟩
    | some x =>
      rw [ho] at hops
      obtain ⟨op, hop, hx⟩ := List.map_eq_singleton_iff.mp hops
      have hxs : x ∈ t.segments := hin (hopen x ho)
      have hst : started t.segments (some x) = {x} := if_pos hxs
      refine ⟨?_, ?_, .inl ⟨op, hx, hop, hxs, hst, rfl⟩⟩
      · show (started t.segments (some x)).card = 1
        rw [hst]
        rfl
      · show 0 + (started t.segments _).card = 1
        rw [hst]
        rfl

/-! ## Runs -/

theorem inv_initial {ls : ℕ} (h : i.truncatePending = 0) : Inv (initial i ls) :=
  ⟨none, ⟨h, trivial, rfl, List.pairwise_singleton _ _, List.Pairwise.nil, by simp [initial], by simp⟩,
    rfl, rfl, rfl, rfl, rfl⟩

/-- A possible action whose request fits fails no assertion, and keeps the invariant. -/
theorem inv_perform (h : Inv s) (hp : s.Possible a) (hf : Fits s a) : ∃ s', s.perform a = .ok s' ∧ Inv s' := by
  cases a with
  | setattr size oldSize => exact inv_setattr h hf
  | openTruncate oldSize => exact inv_openTruncate h hf
  | journaled => exact inv_journaled h hp
  | truncated n => exact inv_truncated h hp
  | newSegment ls => exact ⟨_, rfl, inv_newSegment h hp⟩
  | trim => exact ⟨_, rfl, inv_trim h hp⟩
  | crash n k ls => exact inv_crash h hp hf

theorem step_eq_some : step s a = some s' ↔ s.Possible a ∧ s.perform a = .ok s' := by
  simp [step]

theorem inv_step (h : Inv s) (hf : Fits s a) (hs : step s a = some s') : Inv s' := by
  obtain ⟨hp, ha⟩ := step_eq_some.mp hs
  obtain ⟨t, ht, hinv⟩ := inv_perform h hp hf
  cases ht.symm.trans ha
  exact hinv

theorem inv_run {ls : ℕ} (hi : i.truncatePending = 0) (hok : Meets step Fits (initial i ls) as)
    (h : run step (initial i ls) as = some s) : Inv s :=
  run_invariant_of (fun _ _ _ => inv_step) (inv_initial hi) hok h

/-- What is held, by the truncations whose data is outstanding or whose end is
not yet logged. There is at most one. -/
structure Balanced (s : Mds) : Prop where
  one : s.outstanding.length + finishes s.queue ≤ 1
  pinTruncating : s.pinTruncating = s.outstanding.length + finishes s.queue
  authPins : s.authPins = s.outstanding.length + finishes s.queue
  truncatePending : s.inode.truncatePending = s.outstanding.length + finishes s.queue
  truncatingInodes : s.truncatingInodes = (s.outstanding.map Op.ls).toFinset
  segments : ∀ x ∈ s.truncatingInodes, x ∈ s.segments

theorem Inv.balanced (h : Inv s) : Balanced s := by
  obtain ⟨o, hj, hh⟩ := h
  have hm := hj.inode_matches
  cases ho : opening o s.logged with
  | none =>
    rw [ho] at hh hm
    obtain ⟨ht, hp, ha, hout, hf⟩ := hh
    have hzero : s.outstanding.length + finishes s.queue = 0 := by rw [hout, hf]; rfl
    exact ⟨by omega, hp.trans hzero.symm, ha.trans hzero.symm, Eq.trans hm hzero.symm, by rw [ht, hout]; rfl, by simp [ht]⟩
  | some x =>
    rw [ho] at hh hm
    obtain ⟨hp, ha, hs⟩ := hh
    have hone : s.outstanding.length + finishes s.queue = 1 := by
      rcases hs with ⟨op, -, hout, -, -, hf⟩ | ⟨hout, -, hf⟩
      · rw [hout, hf]
        rfl
      · rw [hout, hf]
        rfl
    refine ⟨hone.le, hp.trans hone.symm, ha.trans hone.symm, hm.1.trans hone.symm, ?_, ?_⟩
    · rcases hs with ⟨op, hop, hout, -, ht, -⟩ | ⟨hout, ht, -⟩
      · rw [ht, hout, ← hop]
        rfl
      · rw [ht, hout]
        rfl
    · intro y hy
      rcases hs with ⟨op, -, -, hx, ht, -⟩ | ⟨-, ht, -⟩
      · rw [ht, Finset.mem_singleton] at hy
        rwa [hy]
      · rw [ht] at hy
        exact absurd hy (Finset.notMem_empty y)

/-! ## Completions alone -/

def Action.isCompletion : Action → Bool
  | .journaled => true
  | .truncated _ => true
  | _ => false

/-- The completions that an entry still leads to, at most. -/
def Entry.weight (e : Entry) : ℕ :=
  match e.record with
  | .update true => 4
  | _ => 1

def todo (s : Mds) : ℕ := 2 * s.outstanding.length + (s.queue.map Entry.weight).sum

theorem startTruncate_todo {ls : ℕ} (h : s.startTruncate ls = .ok s') : todo s' = todo s + 2 := by
  simp only [startTruncate, bind_ok, assert_ok, pure_ok] at h
  obtain ⟨_, -, _, -, _, -, _, -, rfl⟩ := h
  simp only [todo, List.length_append, List.length_singleton]
  omega

theorem journaled_todo (hq : s.queue ≠ []) (h : s.journaled = .ok s') : todo s' < todo s := by
  obtain ⟨⟨ls, record, i⟩, q, hq⟩ := List.exists_cons_of_ne_nil hq
  rw [journaled, hq] at h
  have hs : todo s = todo { s with inode := i, queue := q, logged := s.logged ++ [⟨ls, record, i⟩] } +
      Entry.weight ⟨ls, record, i⟩ := by
    simp only [todo, hq, List.map_cons, List.sum_cons]
    omega
  cases record with
  | update t =>
    simp only [complete] at h
    split at h
    · next ht =>
      obtain ⟨rfl, -⟩ := Bool.and_eq_true_iff.mp ht
      rw [truncateInode] at h
      rw [hs, startTruncate_todo h]
      exact Nat.add_lt_add_left (show 2 < 4 by decide) _
    · cases h
      rw [hs]
      exact Nat.lt_add_of_pos_right (by cases t <;> exact Nat.succ_pos _)
  | finish x =>
    simp only [complete, truncateInodeLogged, put, authUnpin, bind_ok, assert_ok, pure_ok] at h
    obtain ⟨_, ⟨_, -, rfl⟩, _, -, rfl⟩ := h
    rw [hs]
    exact Nat.lt_add_of_pos_right Nat.one_pos

theorem truncated_todo {n : ℕ} (hn : n < s.outstanding.length) (h : s.truncated n = .ok s') : todo s' < todo s := by
  simp only [truncated, truncateInodeFinish, bind_ok, assert_ok, pure_ok] at h
  obtain ⟨_, -, _, -, rfl⟩ := h
  simp only [todo, Mds.submit, List.map_append, List.sum_append, List.length_eraseIdx_of_lt hn]
  show 2 * (s.outstanding.length - 1) + ((s.queue.map Entry.weight).sum + 1) < _
  omega

theorem step_todo (ha : a.isCompletion = true) (h : step s a = some s') : todo s' < todo s := by
  obtain ⟨hp, h⟩ := step_eq_some.mp h
  cases a with
  | journaled => exact journaled_todo hp h
  | truncated n => exact truncated_todo hp h
  | _ => cases ha

theorem run_todo (has : ∀ a ∈ as, a.isCompletion = true) (h : run step s as = some s') : as.length + todo s' ≤ todo s := by
  induction as generalizing s with
  | nil =>
    cases h
    exact (Nat.zero_add _).le
  | cons a as ih =>
    obtain ⟨t, ht, hr⟩ := run_cons.mp h
    have := step_todo (has a List.mem_cons_self) ht
    have := ih (fun b hb => has b (List.mem_cons_of_mem a hb)) hr
    rw [List.length_cons]
    omega

/-- Nothing is left to do. -/
def Idle (s : Mds) : Prop :=
  s.queue = [] ∧ s.outstanding = [] ∧ s.inode.truncatePending = 0 ∧ s.pinTruncating = 0 ∧ s.authPins = 0 ∧
    s.truncatingInodes = ∅

theorem Balanced.idle (h : Balanced s) (hq : s.queue = []) (ho : s.outstanding = []) : Idle s := by
  have hzero : s.outstanding.length + finishes s.queue = 0 := by rw [hq, ho]; rfl
  refine ⟨hq, ho, h.truncatePending.trans hzero, h.pinTruncating.trans hzero, h.authPins.trans hzero, ?_⟩
  rw [h.truncatingInodes, ho]
  rfl

theorem exists_idle (h : Inv s) :
    ∃ bs s', (∀ b ∈ bs, Action.isCompletion b = true) ∧ run step s bs = some s' ∧ Idle s' := by
  induction hn : todo s using Nat.strong_induction_on generalizing s with
  | _ n ih =>
    have hgo : ∀ b, b.isCompletion = true → s.Possible b → Fits s b →
        ∃ bs s', (∀ b ∈ bs, Action.isCompletion b = true) ∧ run step s bs = some s' ∧ Idle s' := by
      intro b hb hp hf
      obtain ⟨t, ht, hinv⟩ := inv_perform h hp hf
      have hstep := step_eq_some.mpr ⟨hp, ht⟩
      obtain ⟨bs, s', hbs, hr, hi⟩ := ih (todo t) (hn ▸ step_todo hb hstep) hinv rfl
      refine ⟨b :: bs, s', ?_, run_cons.mpr ⟨t, hstep, hr⟩, hi⟩
      intro c hc
      rcases List.mem_cons.mp hc with rfl | hc
      · exact hb
      · exact hbs c hc
    by_cases hq : s.queue = []
    · by_cases ho : s.outstanding = []
      · exact ⟨[], s, by simp, rfl, h.balanced.idle hq ho⟩
      · exact hgo (.truncated 0) rfl (List.length_pos_iff.mpr ho) trivial
    · exact hgo .journaled rfl hq trivial

/-- In every run whose requests truncate files below 2^63 bytes and whose crashes leave the start of
a truncation that they leave open, what a truncation holds is held from its start until its end is
logged, no possible step fails an assertion, and completions alone lead to an inode without
truncations. -/
theorem truncates_balance {ls : ℕ} (hi : i.truncatePending = 0) (hok : Meets step Fits (initial i ls) as)
    (h : run step (initial i ls) as = some s) :
    Balanced s ∧ (∀ a, s.Possible a → Fits s a → (s.perform a).fault = none) ∧
    (∃ bs s', (∀ b ∈ bs, Action.isCompletion b = true) ∧ run step s bs = some s' ∧ Idle s') ∧
    ∀ bs s', (∀ b ∈ bs, Action.isCompletion b = true) → run step s bs = some s' → bs.length ≤ todo s := by
  have hinv := inv_run hi hok h
  refine ⟨hinv.balanced, fun a hp hf => ?_, exists_idle hinv, fun bs s' hbs hr => ?_⟩
  · obtain ⟨t, ht, -⟩ := inv_perform hinv hp hf
    rw [ht]
    rfl
  · exact (Nat.le_add_right _ _).trans (run_todo hbs hr)

/-- A file of a hundred bytes. -/
def hundred : Inode := ⟨100, 1, 0, 0, 0⟩

/-- The server crashes twice: with the truncation under way, and with its end in the journal. -/
def crashes : List Action :=
  [.setattr (some 10) 0, .newSegment 2, .journaled, .crash 0 2 3, .truncated 0, .openTruncate 0, .newSegment 4,
    .crash 2 4 5, .truncated 0, .journaled]

theorem truncates_balance_crashes : (run step (initial hundred 1) crashes).isSome = true ∧
    ∀ s, run step (initial hundred 1) crashes = some s → Balanced s := by
  refine ⟨by decide, fun s h => ?_⟩
  exact (truncates_balance rfl (by decide) h).1

/-- The data is truncated, and the segment expires before the end is logged. -/
def expires : List Action := [.setattr (some 10) 0, .journaled, .newSegment 2, .truncated 0, .trim, .crash 0 1 3]

/-- The client sends the largest size that the protocol has; and a crash leaves the inode truncating, with
nothing in the journal that says so and nothing under way. -/
theorem not_truncates_balance :
    (∃ s, run step (initial hundred 1) [.setattr (some 10) (2 ^ 64 - 1)] = some s ∧ s.Possible .journaled ∧
      (s.perform .journaled).fault = some .assert) ∧
    ∃ s, run step (initial hundred 1) expires = some s ∧ s.inode.truncatePending = 1 ∧ s.outstanding = [] ∧
      s.queue = [] ∧ s.pinTruncating = 0 ∧ ¬ Balanced s :=
  ⟨⟨_, rfl, by decide, rfl⟩, _, rfl, rfl, rfl, rfl, rfl, fun h => absurd h.truncatePending (by decide)⟩

end CephMds.Truncate
