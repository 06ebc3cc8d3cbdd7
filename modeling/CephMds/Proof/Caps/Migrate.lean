import CephMds.Framework.Run
import CephMds.Proof.Caps.Track

/-!
# Chains of migrations

The messages of a rank in the order in which they are sent (`queue_cases`), what one
of them does to the view (`Tracked.step`), and the runs (`run_migrates`).
-/

namespace CephMds.Caps

open Checked Writes

/-! ## What is sent -/

namespace Chain

/-- What the client has of rank `k` at first. -/
def base (ch : Chain) (k : ℕ) : Note := (ch.had k).getD ⟨false, 0, ∅⟩

/-- What rank `k` tells, with what the client has at first before it. -/
def told (ch : Chain) (k : ℕ) : List Note :=
  ch.base k :: ch.pre k ++ ⟨false, ch.seq k, ch.caps k⟩ :: ch.post k

/-- The last of it, when `d` messages have arrived. -/
def last (ch : Chain) (k d : ℕ) : Note := ((ch.told k)[d]?).getD (((ch.told k).getLast?).getD (ch.base k))

/-- Ranks and caps are told apart, each rank counts its messages, a reply takes no caps away,
and no counter comes to `2 ^ 31`. -/
structure Valid (ch : Chain) : Prop where
  rank : ∀ i ≤ ch.n, ∀ j ≤ ch.n, ch.rank i = ch.rank j → i = j
  capId : ∀ k ≤ ch.n, ch.capId k ≠ 0
  length : ch.n < 2 ^ 31
  first : ch.pre 0 = [] ∧ ch.had 0 = none
  counts : ∀ k ≤ ch.n, (ch.told k).IsChain fun a b => a.seq < b.seq ∧ (b.isTrace → a.caps ⊆ b.caps)
  bound : ∀ k ≤ ch.n, ∀ note ∈ ch.told k, note.seq < 2 ^ 31 ∧ note.caps ⊆ capAny

variable {ch : Chain} {k d : ℕ} {m : Delivery}

/-- The message after the first `d` of rank `k`. -/
inductive Next (ch : Chain) (k d : ℕ) : Delivery → Prop
  | pre (note : Note) (h : (ch.told k)[d + 1]? = some note) (hd : d < (ch.pre k).length) :
    Next ch k d (ch.noteMsg k 0 false note)
  | importCap (hd : d = (ch.pre k).length) : Next ch k d (ch.importMsg k)
  | post (note : Note) (h : (ch.told k)[d + 1]? = some note) (hd : (ch.pre k).length < d) :
    Next ch k d (ch.noteMsg k k true note)
  | exportCap (hd : d + 1 = (ch.told k).length) (hk : k < ch.n) : Next ch k d (ch.exportMsg k)

theorem told_length (ch : Chain) (k : ℕ) : (ch.told k).length = (ch.pre k).length + (ch.post k).length + 2 := by
  simp only [told, List.cons_append, List.length_cons, List.length_append]
  omega

theorem queue_cases (h : (ch.queue k)[d]? = some m) : Next ch k d m := by
  rw [queue, List.append_assoc, List.getElem?_append] at h
  split at h
  · rename_i hd
    rw [List.length_map] at hd
    rw [List.getElem?_map, Option.map_eq_some_iff] at h
    obtain ⟨note, hnote, rfl⟩ := h
    refine .pre note ?_ hd
    rw [told, List.cons_append, List.getElem?_cons_succ, List.getElem?_append_left hd, hnote]
  rename_i hd
  rw [List.length_map] at hd h
  rw [List.cons_append] at h
  rcases Nat.eq_or_lt_of_not_lt hd with he | hlt
  · rw [← he, Nat.sub_self, List.getElem?_cons_zero] at h
    cases h
    exact .importCap he
  obtain ⟨e, rfl⟩ : ∃ e, d = (ch.pre k).length + 1 + e := ⟨d - ((ch.pre k).length + 1), by omega⟩
  rw [show (ch.pre k).length + 1 + e - (ch.pre k).length = e + 1 by omega, List.getElem?_cons_succ,
    List.getElem?_append] at h
  split at h
  · rename_i hpost
    rw [List.getElem?_map, Option.map_eq_some_iff] at h
    obtain ⟨note, hnote, rfl⟩ := h
    refine .post note ?_ hlt
    rw [told, List.cons_append, List.getElem?_cons_succ, List.getElem?_append_right (by omega),
      show (ch.pre k).length + 1 + e - (ch.pre k).length = e + 1 by omega, List.getElem?_cons_succ, hnote]
  · rename_i hpost
    rw [List.length_map] at hpost h
    split at h
    · rename_i hk
      have hzero : e - (ch.post k).length = 0 := by
        by_contra hne
        rw [List.getElem?_eq_none (by simp; omega)] at h
        cases h
      rw [hzero, List.getElem?_cons_zero] at h
      cases h
      refine .exportCap ?_ hk
      rw [told_length]
      omega
    · rw [List.getElem?_nil] at h
      cases h

theorem told_zero (ch : Chain) (k : ℕ) : (ch.told k)[0]? = some (ch.base k) := rfl

theorem told_import (ch : Chain) (k : ℕ) :
    (ch.told k)[(ch.pre k).length + 1]? = some ⟨false, ch.seq k, ch.caps k⟩ := by
  rw [told, List.cons_append, List.getElem?_cons_succ, List.getElem?_append_right le_rfl, Nat.sub_self]
  rfl

theorem last_of_told {note : Note} (h : (ch.told k)[d]? = some note) : ch.last k d = note := by
  rw [last, h]
  rfl

/-- The export tells nothing new. -/
theorem last_succ (h : d + 1 = (ch.told k).length) : ch.last k (d + 1) = ch.last k d := by
  have hlast : (ch.told k).getLast? = (ch.told k)[d]? := by
    rw [List.getLast?_eq_getElem?, ← h]
    rfl
  rw [last, last, List.getElem?_eq_none (by omega), hlast]
  rcases Option.eq_none_or_eq_some (ch.told k)[d]? with hnone | ⟨note, hsome⟩
  · rw [hnone]
  · rw [hsome]
    rfl

/-- A rank counts its messages. -/
theorem Valid.lt {i j : ℕ} {a b : Note} (hv : ch.Valid) (hk : k ≤ ch.n) (hij : i < j) (ha : (ch.told k)[i]? = some a)
    (hb : (ch.told k)[j]? = some b) : a.seq < b.seq := by
  have hmap : ((ch.told k).map Note.seq).IsChain (· < ·) :=
    (List.isChain_map Note.seq).mpr ((hv.counts k hk).imp fun _ _ h => h.1)
  have hlt := List.pairwise_iff_getElem.mp hmap.pairwise
  obtain ⟨hi, rfl⟩ := List.getElem?_eq_some_iff.mp ha
  obtain ⟨hj, rfl⟩ := List.getElem?_eq_some_iff.mp hb
  have h := hlt i j (by simpa using hi) (by simpa using hj) hij
  rwa [List.getElem_map, List.getElem_map] at h

/-- A reply takes no caps away. -/
theorem Valid.grow {a b : Note} (hv : ch.Valid) (hk : k ≤ ch.n) (ha : (ch.told k)[d]? = some a)
    (hb : (ch.told k)[d + 1]? = some b) (hb' : b.isTrace = true) : a.caps ⊆ b.caps := by
  obtain ⟨hi, rfl⟩ := List.getElem?_eq_some_iff.mp ha
  obtain ⟨hj, rfl⟩ := List.getElem?_eq_some_iff.mp hb
  exact (List.isChain_iff_getElem.mp (hv.counts k hk) d hj).2 hb'

theorem Valid.told_bound {note : Note} (hv : ch.Valid) (hk : k ≤ ch.n) (h : (ch.told k)[d]? = some note) :
    note.seq < 2 ^ 31 ∧ note.caps ⊆ capAny := hv.bound k hk note (List.mem_of_getElem? h)

theorem Valid.ranked (hv : ch.Valid) : ch.Ranked := by
  refine ⟨hv.rank, hv.capId, fun k hk => ?_, fun k hk => ?_, hv.length⟩
  · have hlt := hv.lt hk (Nat.succ_pos _) (ch.told_zero k) (ch.told_import k)
    exact Nat.zero_lt_of_lt hlt
  · exact (hv.told_bound hk (ch.told_import k)).1

end Chain

/-! ## Runs -/

namespace Migrating

variable {ch : Chain} {s s' : Migrating} {k : ℕ}

/-- The import of `k` has arrived. -/
def imported (ch : Chain) (s : Migrating) (k : ℕ) : Prop := (ch.pre k).length < s.done k

/-- The export from `k` has arrived. -/
def exported (ch : Chain) (s : Migrating) (k : ℕ) : Prop := k < ch.n ∧ (ch.told k).length ≤ s.done k

instance decidableImported (ch : Chain) (s : Migrating) (k : ℕ) : Decidable (s.imported ch k) :=
  inferInstanceAs (Decidable (_ < _))

instance decidableExported (ch : Chain) (s : Migrating) (k : ℕ) : Decidable (s.exported ch k) :=
  inferInstanceAs (Decidable (_ ∧ _))

/-- The next message of `k` is a trace from before its import, which is not newer than the cap; the export to `k`
and the import of a later rank have arrived. -/
def lateTrace (ch : Chain) (s : Migrating) (k : ℕ) : Bool :=
  decide (s.done k < (ch.pre k).length) && decide (s.exported ch (k - 1) ∧ 0 < k) &&
    decide (∃ j, j ≤ ch.n ∧ k < j ∧ s.imported ch j) &&
    match (ch.told k)[s.done k + 1]?, s.l.inode.caps[ch.rank k]? with
    | some note, some cap => note.isTrace && decide (cephSeqCmp (BitVec.ofNat 32 note.seq) cap.seq ≤ 0)
    | _, _ => false

/-- The next message of `k` is its export, and there is a cap to export; the export from `k + 1` and the import
after it have arrived. -/
def lateExport (ch : Chain) (s : Migrating) (k : ℕ) : Bool :=
  decide (s.done k + 1 = (ch.told k).length) && s.l.inode.caps.contains (ch.rank k) &&
    decide (s.exported ch (k + 1) ∧ s.imported ch (k + 2))

/-- A message of a rank arrives, which is neither a late trace nor a late export, and the client wants its caps. -/
def fair (ch : Chain) (s : Migrating) (a : ℕ × Env) : Bool :=
  decide (a.1 ≤ ch.n) && decide (s.done a.1 < (ch.queue a.1).length) && a.2.retains && !s.lateTrace ch a.1 &&
    !s.lateExport ch a.1

def progress (ch : Chain) (s : Migrating) : Progress where
  imported := {k | s.imported ch k}
  exported := {k | s.exported ch k}
  seq k := (ch.last k (s.done k)).seq
  caps k := (ch.last k (s.done k)).caps

/-- What holds in every state of a run. -/
def Tracked (ch : Chain) (s : Migrating) : Prop :=
  s.l.inode.Plain ∧ ∃ top, Track ch (s.progress ch) top s.l.inode.seen

/-- The state after one more message of `k`. -/
def received (s : Migrating) (k : ℕ) (l : Local) : Migrating := ⟨l, Function.update s.done k (s.done k + 1)⟩

theorem received_self (s : Migrating) (k : ℕ) (l : Local) : (s.received k l).done k = s.done k + 1 :=
  Function.update_self _ _ _

theorem received_other {j : ℕ} (s : Migrating) (l : Local) (h : j ≠ k) : (s.received k l).done j = s.done j :=
  Function.update_of_ne h _ _

/-- What is told by a message. -/
theorem progress_last {note : Note} (s : Migrating) (l : Local) (h : (ch.told k)[s.done k + 1]? = some note) :
    ((s.received k l).progress ch).seq = Function.update (s.progress ch).seq k note.seq ∧
    ((s.received k l).progress ch).caps = Function.update (s.progress ch).caps k note.caps := by
  constructor
  · funext j
    show (ch.last j ((s.received k l).done j)).seq = _
    rcases eq_or_ne j k with rfl | hne
    · rw [received_self, Chain.last_of_told h, Function.update_self]
    · rw [received_other s l hne, Function.update_of_ne hne]
      rfl
  · funext j
    show (ch.last j ((s.received k l).done j)).caps = _
    rcases eq_or_ne j k with rfl | hne
    · rw [received_self, Chain.last_of_told h, Function.update_self]
    · rw [received_other s l hne, Function.update_of_ne hne]
      rfl

theorem imported_received {j : ℕ} (s : Migrating) (l : Local) (h : s.done k ≠ (ch.pre k).length) :
    (s.received k l).imported ch j ↔ s.imported ch j := by
  rcases eq_or_ne j k with rfl | hne
  · rw [imported, imported, received_self]
    omega
  · rw [imported, imported, received_other s l hne]

theorem exported_received {j : ℕ} (s : Migrating) (l : Local) (h : s.done k + 1 < (ch.told k).length) :
    (s.received k l).exported ch j ↔ s.exported ch j := by
  rcases eq_or_ne j k with rfl | hne
  · rw [exported, exported, received_self]
    omega
  · rw [exported, exported, received_other s l hne]

theorem progress_note {note : Note} (s : Migrating) (l : Local) (h : (ch.told k)[s.done k + 1]? = some note)
    (hne : s.done k ≠ (ch.pre k).length) : (s.received k l).progress ch = (s.progress ch).note k note := by
  obtain ⟨hseq, hcaps⟩ := progress_last s l h
  obtain ⟨hlt, -⟩ := List.getElem?_eq_some_iff.mp h
  rw [Progress.note, ← hseq, ← hcaps, progress, progress]
  congr 1
  · exact Set.ext fun j => imported_received s l hne
  · exact Set.ext fun j => exported_received s l hlt

theorem progress_import (s : Migrating) (l : Local) (h : s.done k = (ch.pre k).length) :
    (s.received k l).progress ch = (s.progress ch).importCap ch k := by
  obtain ⟨hseq, hcaps⟩ := progress_last s l (h ▸ ch.told_import k)
  rw [Progress.importCap, Progress.note, ← hseq, ← hcaps, progress, progress]
  congr 1
  · refine Set.ext fun j => ?_
    show (s.received k l).imported ch j ↔ j = k ∨ s.imported ch j
    rcases eq_or_ne j k with rfl | hne
    · rw [imported, imported, received_self]
      omega
    · rw [imported, imported, received_other s l hne]
      exact ⟨.inr, fun hj => hj.resolve_left hne⟩
  · refine Set.ext fun j => exported_received s l ?_
    rw [h, ch.told_length]
    omega

theorem progress_export (s : Migrating) (l : Local) (h : s.done k + 1 = (ch.told k).length) (hk : k < ch.n) :
    (s.received k l).progress ch = (s.progress ch).exportCap k := by
  have hlast : ∀ j, ch.last j ((s.received k l).done j) = ch.last j (s.done j) := by
    intro j
    rcases eq_or_ne j k with rfl | hne
    · rw [received_self, ch.last_succ h]
    · rw [received_other s l hne]
  have hlength := ch.told_length k
  rw [Progress.exportCap, progress, progress]
  congr 1
  · refine Set.ext fun j => imported_received s l ?_
    omega
  · refine Set.ext fun j => ?_
    show (s.received k l).exported ch j ↔ j = k ∨ s.exported ch j
    rcases eq_or_ne j k with rfl | hne
    · rw [exported, exported, received_self]
      omega
    · rw [exported, exported, received_other s l hne]
      exact ⟨.inr, fun hj => hj.resolve_left hne⟩
  · exact funext fun j => congrArg Note.seq (hlast j)
  · exact funext fun j => congrArg Note.caps (hlast j)

/-- A trace or a grant that the caps agree with. -/
theorem receive_trace {g g' : Grant} {env : Env} {note : Note} {top : ℕ} (hp : s.l.inode.Plain)
    (henv : env.retains = true) (hg : g.issued ⊆ capAny) (hmerge : s.l.inode.seen.merge (ch.rank k) g = .ok g')
    (hprog : ∀ l, (s.received k l).progress ch = (s.progress ch).note k note)
    (ht : Track ch ((s.progress ch).note k note) top (s.l.inode.seen.add (ch.rank k) g')) :
    ∃ l, s.l.receive env (ch.rank k) (.trace g) = .ok l ∧ (s.received k l).Tracked ch := by
  rw [← merge_seen] at hmerge
  obtain ⟨l, hok, hseen, hp'⟩ := addUpdateCap_seen hp henv hmerge (merge_issued hp hg hmerge)
  refine ⟨l, hok, hp', top, ?_⟩
  rw [hprog]
  show Track ch _ top l.inode.seen
  rw [hseen]
  exact ht

theorem receive_grant {m : Msg} {env : Env} {note : Note} {top : ℕ} (hv : ch.Ranked) (hk : k ≤ ch.n)
    (hp : s.l.inode.Plain) (henv : env.retains = true) (hm : m.caps = note.caps ∧ m.seq = BitVec.ofNat 32 note.seq)
    (hcaps : note.caps ⊆ capAny) (hprog : ∀ l, (s.received k l).progress ch = (s.progress ch).note k note)
    (ht : Track ch (s.progress ch) top s.l.inode.seen) (hx : k ∉ (s.progress ch).exported)
    (hnew : (s.progress ch).seq k < note.seq) (hbound : note.seq < 2 ^ 31)
    (hearly : k ∉ (s.progress ch).imported → note.seq < ch.seq k) :
    ∃ l, s.l.receive env (ch.rank k) (.grant m) = .ok l ∧ (s.received k l).Tracked ch := by
  rcases Option.eq_none_or_eq_some s.l.inode.caps[ch.rank k]? with hcap | ⟨cap, hcap⟩
  · refine ⟨s.l, if_neg ?_, hp, top, ?_⟩
    · rw [Std.ExtTreeMap.contains_eq_isSome_getElem?, hcap]
      exact Bool.false_ne_true
    · rw [hprog]
      exact ht.missed hk hnew hbound hearly (seen_none hcap)
  · obtain ⟨l, hok, hseen, hp'⟩ := handleCapGrant_seen false hp henv hcap (hm.1 ▸ hcaps)
    refine ⟨l, (if_pos ?_).trans hok, hp', top, ?_⟩
    · rw [Std.ExtTreeMap.contains_eq_isSome_getElem?, hcap]
      rfl
    · rw [hprog]
      show Track ch _ top l.inode.seen
      rw [hseen, hm.1, hm.2]
      exact ht.grant hv hk hx hnew hbound hearly (seen_eq hcap)

/-- What every message does. -/
theorem Tracked.receive {env : Env} {m : Delivery} (hv : ch.Valid) (ht : s.Tracked ch) (hk : k ≤ ch.n)
    (henv : env.retains = true) (hm : (ch.queue k)[s.done k]? = some m) (htrace : s.lateTrace ch k = false)
    (hexport : s.lateExport ch k = false) :
    ∃ l, s.l.receive env (ch.rank k) m = .ok l ∧ (s.received k l).Tracked ch := by
  obtain ⟨hp, top, ht⟩ := ht
  have hr := hv.ranked
  have hlength := ch.told_length k
  have hlast : ∀ note, (ch.told k)[s.done k + 1]? = some note →
      (s.progress ch).seq k < note.seq ∧ (note.isTrace = true → (s.progress ch).caps k ⊆ note.caps) := by
    intro note hnote
    obtain ⟨hlt, -⟩ := List.getElem?_eq_some_iff.mp hnote
    have hold : (ch.told k)[s.done k]? = some (ch.told k)[s.done k] := List.getElem?_eq_getElem (by omega)
    show (ch.last k (s.done k)).seq < _ ∧ (_ → (ch.last k (s.done k)).caps ⊆ _)
    rw [Chain.last_of_told hold]
    exact ⟨hv.lt hk (Nat.lt_succ_self _) hold hnote, hv.grow hk hold hnote⟩
  cases Chain.queue_cases hm with
  | pre note hnote hd =>
    have hi : k ∉ (s.progress ch).imported := fun h : (ch.pre k).length < s.done k => by omega
    have hearly := hv.lt hk (by omega) hnote (ch.told_import k)
    obtain ⟨hbound, hcaps⟩ := hv.told_bound hk hnote
    have hprog := fun l => progress_note s l hnote (by omega)
    rw [Chain.noteMsg]
    split
    · rename_i his
      obtain ⟨g, hmerge, ht'⟩ := ht.preTrace hr hk hi (hlast note hnote).1 hearly fun ha hj x hx hle => by
        obtain ⟨i, hxi, rfl⟩ := ha
        obtain ⟨j, hj, hij, hjm⟩ := hj
        obtain ⟨cap, hcap, rfl⟩ := Option.map_eq_some_iff.mp hx
        rw [lateTrace, hnote, hcap, decide_eq_true hd,
          decide_eq_true (show s.exported ch (i + 1 - 1) ∧ 0 < i + 1 from ⟨hxi, Nat.succ_pos i⟩),
          decide_eq_true (show ∃ j, j ≤ ch.n ∧ i + 1 < j ∧ s.imported ch j from ⟨j, hj, hij, hjm⟩)] at htrace
        simp only [his, Bool.true_and, decide_eq_false_iff_not] at htrace
        exact htrace hle
      exact receive_trace hp henv hcaps hmerge hprog ht'
    · exact receive_grant hr hk hp henv ⟨rfl, rfl⟩ hcaps hprog ht (ht.not_exported hi) (hlast note hnote).1 hbound
        fun _ => hearly
  | importCap hd =>
    have hi : k ∉ (s.progress ch).imported := fun h : (ch.pre k).length < s.done k => by omega
    obtain ⟨i, rfl⟩ : ∃ i, k = i + 1 := Nat.exists_eq_succ_of_ne_zero fun he => hi (he ▸ ht.zero)
    have hcaps := (hv.told_bound hk (ch.told_import (i + 1))).2
    obtain ⟨hmerge, ht'⟩ := ht.importCap hr hk hi
    rw [← merge_seen] at hmerge
    obtain ⟨l, hok, hseen, hp'⟩ := handleCapImport_seen
      (m := ⟨ch.capId (i + 1), ch.caps (i + 1), BitVec.ofNat 32 (ch.seq (i + 1)), BitVec.ofNat 32 (i + 1), ch.wanted,
        ch.peer i⟩) hp henv hmerge hcaps hcaps fun he => by
      have heq := hr.rank i (by omega) (i + 1) hk he
      omega
    refine ⟨l, hok, hp', max top (i + 1), ?_⟩
    rw [progress_import s l hd]
    show Track ch _ _ l.inode.seen
    rw [hseen]
    exact ht'
  | post note hnote hd =>
    have hi : k ∈ (s.progress ch).imported := hd
    have hx : k ∉ (s.progress ch).exported := by
      rintro ⟨-, hle⟩
      obtain ⟨hlt, -⟩ := List.getElem?_eq_some_iff.mp hnote
      omega
    obtain ⟨hbound, hcaps⟩ := hv.told_bound hk hnote
    have hprog := fun l => progress_note s l hnote (by omega)
    rw [Chain.noteMsg]
    split
    · rename_i his
      obtain ⟨hmerge, ht'⟩ := ht.postTrace hr hk hi hx (hlast note hnote).1 hbound ((hlast note hnote).2 his)
      exact receive_trace hp henv hcaps hmerge hprog ht'
    · exact receive_grant hr hk hp henv ⟨rfl, rfl⟩ hcaps hprog ht hx (hlast note hnote).1 hbound
        fun hni => absurd hi hni
  | exportCap hd hlt =>
    have hi : k ∈ (s.progress ch).imported := show (ch.pre k).length < s.done k by omega
    have hx : k ∉ (s.progress ch).exported := fun h => by
      have hle : (ch.told k).length ≤ s.done k := h.2
      omega
    have ht' := ht.exportCap hr hlt hi hx fun hcap hxn hin => by
      have hcontains : s.l.inode.caps.contains (ch.rank k) = true := by
        rw [Std.ExtTreeMap.contains_eq_isSome_getElem?, Option.isSome_iff_ne_none]
        exact fun hnone => hcap (seen_none hnone)
      rw [lateExport, decide_eq_true hd, hcontains, decide_eq_true ⟨hxn, hin⟩] at hexport
      cases hexport
    obtain ⟨l, hok, hseen, hp'⟩ := handleCapExport_seen (ch.rank k)
      ⟨ch.capId k, ∅, 0, BitVec.ofNat 32 k, ∅, ch.peer (k + 1)⟩ hp henv
    refine ⟨l, hok, hp', top, ?_⟩
    rw [progress_export s l hd hlt]
    show Track ch _ top l.inode.seen
    rw [hseen]
    exact ht'

theorem Tracked.step {a : ℕ × Env} (hv : ch.Valid) (ht : s.Tracked ch) (hfair : s.fair ch a = true) :
    ∃ s', Migrating.step ch s a = some s' ∧ s'.Tracked ch := by
  simp only [fair, Bool.and_eq_true, decide_eq_true_eq, Bool.not_eq_true'] at hfair
  obtain ⟨⟨⟨⟨hk, hdue⟩, henv⟩, htrace⟩, hexport⟩ := hfair
  have hm := List.getElem?_eq_getElem hdue
  obtain ⟨l, hok, ht'⟩ := ht.receive hv hk henv hm htrace hexport
  refine ⟨s.received a.1 l, ?_, ht'⟩
  rw [Migrating.step, if_pos hk, hm]
  show Option.map _ (s.l.receive a.2 (ch.rank a.1) _).toOption = _
  rw [hok]
  rfl

/-! ## The start -/

/-- The cap that the client has of rank `k` at first. -/
def startCap (ch : Chain) (k : ℕ) : Option Cap :=
  (if k = 0 then some ⟨false, ch.seq 0, ch.caps 0⟩ else ch.had k).map fun note =>
    ⟨ch.capId k, note.caps, note.caps, ch.wanted, BitVec.ofNat 32 note.seq, BitVec.ofNat 32 note.seq, 0⟩

/-- The step of `startCaps`. -/
theorem startCaps_eq (ch : Chain) : startCaps ch = (List.range (ch.n + 1)).foldl (fun m k =>
    match startCap ch k with
    | none => m
    | some cap => m.insert (ch.rank k) cap) ∅ := by
  rw [startCaps]
  congr 1
  funext m k
  rw [startCap]
  cases (if k = 0 then some (⟨false, ch.seq 0, ch.caps 0⟩ : Note) else ch.had k) <;> rfl

theorem startCaps_get (hr : ch.Ranked) (hk : k ≤ ch.n) : (startCaps ch)[ch.rank k]? = startCap ch k := by
  have hrange : ∀ m ≤ ch.n + 1, ((List.range m).foldl (fun m k =>
      match startCap ch k with
      | none => m
      | some cap => m.insert (ch.rank k) cap) (∅ : Std.ExtTreeMap ℕ Cap))[ch.rank k]? =
        if k < m then startCap ch k else none := by
    intro m hm
    induction m with
    | zero => simp
    | succ m ih =>
      rw [List.range_succ, List.foldl_append, List.foldl_cons, List.foldl_nil]
      have ih := ih (by omega)
      rcases eq_or_ne k m with rfl | hne
      · rw [if_neg (lt_irrefl k)] at ih
        rw [if_pos (Nat.lt_succ_self k)]
        split
        · rename_i hnone
          rw [ih, hnone]
        · rename_i cap hcap
          rw [getElem?_insert, if_pos rfl, hcap]
      · have hiff : (if k < m + 1 then startCap ch k else none) = if k < m then startCap ch k else none :=
          if_congr (by omega) rfl rfl
        rw [hiff, ← ih]
        split
        · rfl
        · rw [getElem?_insert, if_neg fun he => hne (hr.rank k hk m (by omega) he)]
  rw [startCaps_eq, hrange (ch.n + 1) le_rfl, if_pos (by omega)]

theorem startCaps_issued (hv : ch.Valid) (r : ℕ) (cap : Cap) (h : (startCaps ch)[r]? = some cap) :
    cap.issued ⊆ capAny := by
  have hcap : ∀ k ≤ ch.n, ∀ cap, startCap ch k = some cap → cap.issued ⊆ capAny := by
    intro k hk cap hcap
    obtain ⟨note, hnote, rfl⟩ := Option.map_eq_some_iff.mp hcap
    split at hnote
    · rename_i hzero
      cases hnote
      rw [← hzero]
      exact (hv.told_bound hk (ch.told_import k)).2
    · have hbase : ch.base k = note := by
        rw [Chain.base, hnote]
        rfl
      exact (hv.told_bound hk (hbase ▸ ch.told_zero k)).2
  have hfold : ∀ (l : List ℕ) (m : Std.ExtTreeMap ℕ Cap), (∀ k ∈ l, k ≤ ch.n) →
      (∀ (r : ℕ) (cap : Cap), m[r]? = some cap → cap.issued ⊆ capAny) → ∀ (r : ℕ) (cap : Cap),
      (l.foldl (fun m k =>
        match startCap ch k with
        | none => m
        | some cap => m.insert (ch.rank k) cap) m)[r]? = some cap → cap.issued ⊆ capAny := by
    intro l
    induction l with
    | nil => exact fun m _ hm => hm
    | cons k l ih =>
      intro m hl hm
      refine ih _ (fun j hj => hl j (List.mem_cons_of_mem k hj)) fun r cap hr => ?_
      dsimp only at hr
      split at hr
      · exact hm r cap hr
      · rename_i cap' hcap'
        rw [getElem?_insert] at hr
        split at hr
        · cases hr
          exact hcap k (hl k List.mem_cons_self) _ hcap'
        · exact hm r cap hr
  rw [startCaps_eq] at h
  refine hfold _ _ (fun k hk => ?_) (fun r cap hr => ?_) r cap h
  · have hlt := List.mem_range.mp hk
    omega
  · simp at hr

theorem tracked_start {inode : Inode} (hv : ch.Valid) (hs : inode.capSnaps.isEmpty = true) :
    (start ch inode).Tracked ch := by
  have hr := hv.ranked
  have hdone : ∀ k, k ≠ 0 → (start ch inode).done k = 0 := fun k hk => if_neg hk
  have hzero : (start ch inode).imported ch 0 := by
    show (ch.pre 0).length < 1
    rw [hv.first.1]
    exact Nat.one_pos
  have hlater : ∀ k, k ≠ 0 → ¬ (start ch inode).imported ch k := by
    intro k hk h
    rw [imported, hdone k hk] at h
    exact absurd h (Nat.not_lt_zero _)
  have hexported : ∀ k, ¬ (start ch inode).exported ch k := by
    rintro k ⟨-, h⟩
    have hle : (start ch inode).done k ≤ 1 := by
      show (if k = 0 then 1 else 0) ≤ 1
      split <;> omega
    rw [ch.told_length] at h
    omega
  have hlast₀ : ch.last 0 ((start ch inode).done 0) = ⟨false, ch.seq 0, ch.caps 0⟩ := by
    refine Chain.last_of_told ?_
    have h := ch.told_import 0
    rwa [hv.first.1] at h
  have hlast : ∀ k, k ≠ 0 → ch.last k ((start ch inode).done k) = ch.base k := by
    intro k hk
    refine Chain.last_of_told ?_
    rw [hdone k hk]
    exact ch.told_zero k
  have hafter : ∀ k, ¬ ((start ch inode).progress ch).after k := by
    rintro k ⟨j, hj, -⟩
    exact hexported j hj
  have hcaps : ∀ k ≤ ch.n, (start ch inode).l.inode.seen.caps (ch.rank k) = (startCap ch k).map Cap.core :=
    fun k hk => congrArg (Option.map Cap.core) (startCaps_get hr hk)
  refine ⟨⟨hs, startCaps_issued hv⟩, 0, ⟨Nat.zero_le _, hzero, fun j _ hj => hlater j (by omega), hzero,
    fun k hk => absurd hk (hexported k), fun k hk hi => ?_, fun k hk hi => ?_, fun k hk => ?_, fun k hk => ?_,
    fun r hlead => ?_, fun _ => rfl⟩⟩
  · have hne : k ≠ 0 := fun he => hi (he ▸ hzero)
    show (ch.last k _).seq < _
    rw [hlast k hne]
    exact hv.lt hk (Nat.succ_pos _) (ch.told_zero k) (ch.told_import k)
  · have he : k = 0 := by
      by_contra hne
      exact hlater k hne hi
    subst he
    show _ ≤ (ch.last 0 _).seq
    rw [hlast₀]
  · show (ch.last k _).seq < _
    rcases eq_or_ne k 0 with rfl | hne
    · rw [hlast₀]
      exact hr.seq 0 hk
    · rw [hlast k hne]
      exact (hv.told_bound hk (ch.told_zero k)).1
  · rw [hcaps k hk]
    rcases eq_or_ne k 0 with rfl | hne
    · refine .of_own hzero (hexported 0) rfl rfl (by omega) rfl (le_of_eq ?_) (fun _ => ?_) fun _ => ?_
      · exact (congrArg Note.seq hlast₀).symm
      · exact (congrArg Note.seq hlast₀).symm
      · exact (congrArg Note.caps hlast₀).symm
    · rw [startCap, if_neg hne]
      rcases Option.eq_none_or_eq_some (ch.had k) with hnone | ⟨note, hnote⟩
      · rw [hnone]
        exact .none fun hi => absurd hi (hlater k hne)
      · have hbase : ch.base k = note := by
          rw [Chain.base, hnote]
          rfl
        rw [hnote]
        refine .of_early (hlater k hne) (hexported k) rfl (.inl rfl)
          (hv.lt hk (Nat.succ_pos _) (hbase ▸ ch.told_zero k) (ch.told_import k)) rfl (.inl ?_)
        exact (congrArg Note.seq ((hlast k hne).trans hbase)).symm
  · cases hlead
    refine ⟨0, Nat.zero_le _, rfl, ?_⟩
    rw [hcaps 0 (Nat.zero_le _)]
    exact Option.some_ne_none _

/-! ## All runs -/

theorem Tracked.auth (ht : s.Tracked ch) {r : ℕ} (hr : s.l.inode.authCap = some r) : s.l.inode.caps.contains r = true := by
  obtain ⟨-, top, ht⟩ := ht
  obtain ⟨-, -, -, hcap⟩ := ht.lead r hr
  rw [Std.ExtTreeMap.contains_eq_isSome_getElem?, Option.isSome_iff_ne_none]
  exact fun hnone => hcap (seen_none hnone)

/-- Everything has arrived. -/
theorem Tracked.settled (ht : s.Tracked ch) (hdone : ∀ k ≤ ch.n, s.done k = (ch.queue k).length) :
    (∃ cap note, s.l.inode.caps[ch.rank ch.n]? = some cap ∧ (ch.told ch.n).getLast? = some note ∧
      cap.capId = ch.capId ch.n ∧ cap.mseq = BitVec.ofNat 32 ch.n ∧ cap.issued = note.caps) ∧
    s.l.inode.authCap = some (ch.rank ch.n) ∧ ∀ k < ch.n, s.l.inode.caps[ch.rank k]? = none := by
  obtain ⟨-, top, ht⟩ := ht
  have hlength : ∀ k ≤ ch.n, s.done k = (ch.pre k).length + (ch.post k).length + 1 + if k < ch.n then 1 else 0 := by
    intro k hk
    rw [hdone k hk, Chain.queue]
    simp only [List.length_append, List.length_map, List.length_cons]
    split
    · simp only [List.length_cons, List.length_nil]
      omega
    · simp only [List.length_nil]
      omega
  have hi : ∀ k ≤ ch.n, k ∈ (s.progress ch).imported := by
    intro k hk
    show (ch.pre k).length < s.done k
    rw [hlength k hk]
    omega
  have hx : ∀ k < ch.n, k ∈ (s.progress ch).exported := by
    intro k hk
    refine ⟨hk, ?_⟩
    rw [hlength k hk.le, ch.told_length, if_pos hk]
  have hxn : ch.n ∉ (s.progress ch).exported := fun h => absurd h.1 (lt_irrefl _)
  have htop : top = ch.n := le_antisymm ht.top_le (ht.le_top le_rfl (hi ch.n le_rfl))
  have hfit := ht.fits ch.n le_rfl
  have hnone : ∀ k, s.l.inode.seen.caps k = none → s.l.inode.caps[k]? = none := by
    intro k hk
    exact Option.map_eq_none_iff.mp hk
  refine ⟨?_, ?_, fun k hk => ?_⟩
  · obtain ⟨x, hcap⟩ := Option.ne_none_iff_exists'.mp
      (hfit.present (hi _ le_rfl) hxn fun h => absurd h (lt_irrefl _))
    obtain ⟨hmseq, -, hissued⟩ := hfit.own (hi _ le_rfl) hxn x hcap
    obtain ⟨hid, -⟩ := hfit.ids x hcap
    obtain ⟨cap, hget, rfl⟩ := Option.map_eq_some_iff.mp hcap
    have hlt : s.done ch.n < (ch.told ch.n).length := by
      rw [hlength ch.n le_rfl, ch.told_length, if_neg (lt_irrefl _)]
      omega
    have hlast := List.getElem?_eq_getElem hlt
    refine ⟨cap, (ch.told ch.n)[s.done ch.n], hget, ?_, hid, hmseq, ?_⟩
    · rw [List.getLast?_eq_getElem?, ← hlast]
      congr 1
      rw [hlength ch.n le_rfl, ch.told_length, if_neg (lt_irrefl _)]
      omega
    · have h := hissued rfl
      rw [← Chain.last_of_told hlast]
      exact h
  · rw [← htop]
    exact ht.front (htop ▸ hxn)
  · exact hnone _ ((ht.fits k hk.le).gone (hx k hk) (.inl (hi (k + 1) hk)))

/-- The messages of a chain arrive in any order, but for late traces and late exports: no assertion fails, the auth
cap is one of the caps, and in the end there is the cap of the last rank, as it was granted last, and none of the
ranks before. -/
theorem run_migrates {inode : Inode} {as : List (ℕ × Env)} (hv : ch.Valid) (hs : inode.capSnaps.isEmpty = true)
    (hfair : Meets (Migrating.step ch) (fun s a => s.fair ch a = true) (start ch inode) as) :
    ∃ s, run (Migrating.step ch) (start ch inode) as = some s ∧
    (∀ r, s.l.inode.authCap = some r → s.l.inode.caps.contains r = true) ∧
    ((∀ k ≤ ch.n, s.done k = (ch.queue k).length) →
      (∃ cap note, s.l.inode.caps[ch.rank ch.n]? = some cap ∧ (ch.told ch.n).getLast? = some note ∧
        cap.capId = ch.capId ch.n ∧ cap.mseq = BitVec.ofNat 32 ch.n ∧ cap.issued = note.caps) ∧
      s.l.inode.authCap = some (ch.rank ch.n) ∧ ∀ k < ch.n, s.l.inode.caps[ch.rank k]? = none) := by
  obtain ⟨s, hrun, ht⟩ := run_returns_of (P := Tracked ch) (fun _ _ ht hfair => ht.step hv hfair)
    (tracked_start hv hs) hfair
  exact ⟨s, hrun, fun _ hr => ht.auth hr, ht.settled⟩

/-- Three migrations; the rank 1 has given a cap before, and sends a trace before its import. -/
def four : Chain where
  n := 3
  rank k := k
  capId k := 10 + k
  seq _ := 5
  caps _ := {fileRd, fileShared}
  wanted := {fileRd}
  had k := if k = 1 then some ⟨false, 1, {fileShared}⟩ else none
  pre k := if k = 1 then [⟨true, 2, {fileShared}⟩] else []
  post k := if k = 3 then [⟨false, 6, {fileRd}⟩] else []

def reader : Env := ⟨{fileRd}, false, false, false, true, true, true⟩

/-- The last rank is heard first. -/
def lastFirst : List (ℕ × Env) := [3, 3, 1, 1, 2, 0, 1, 2].map fun k => (k, reader)

theorem run_migrates_lastFirst : ∃ s, run (Migrating.step four) (start four .new) lastFirst = some s ∧
    s.l.inode.authCap = some 3 ∧ ∀ k < 3, s.l.inode.caps[k]? = none := by
  have hv : four.Valid := by
    refine ⟨fun _ _ _ _ h => h, fun k _ => ?_, by decide, by decide, by decide +kernel, by decide +kernel⟩
    show 10 + k ≠ 0
    omega
  have hfair : Meets (Migrating.step four) (fun s a => s.fair four a = true) (start four .new) lastFirst := by
    decide +kernel
  obtain ⟨s, hrun, -, hall⟩ := run_migrates hv rfl hfair
  have hdone : (run (Migrating.step four) (start four .new) lastFirst).map (fun s => (List.range 4).map s.done) =
      some ((List.range 4).map fun k => (four.queue k).length) := by
    decide +kernel
  rw [hrun, Option.map_some, Option.some.injEq, List.map_inj_left] at hdone
  obtain ⟨-, hauth, hgone⟩ := hall fun k hk => hdone k (List.mem_range.mpr (Nat.lt_succ_of_le hk))
  exact ⟨s, hrun, hauth, hgone⟩

/-- The import of 2 arrives before the export to 1, and then comes the trace that 1 sent first: the assertion on the
auth cap fails. Or, without the trace, the exports arrive after the imports and in the wrong order: when all have
arrived, the cap of the rank 2 is left. -/
theorem not_migrates :
    ((run (Migrating.step four) (start four .new) ([2, 0].map fun k => (k, reader))).map fun s =>
      (four.queue 1)[s.done 1]?.elim false fun m =>
        match s.l.receive reader (four.rank 1) m with
        | .error .assert => true
        | _ => false) = some true ∧
    (run (Migrating.step four) (start four .new) ([1, 2, 2, 3, 3, 1, 1, 0].map fun k => (k, reader))).map (fun s =>
      ((List.range 4).map s.done == (List.range 4).map (fun k => (four.queue k).length),
        s.l.inode.caps.contains (four.rank 2))) = some (true, true) := by
  decide +kernel

end Migrating

end CephMds.Caps
