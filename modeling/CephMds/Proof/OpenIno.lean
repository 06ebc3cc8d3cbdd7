import CephMds.Framework.Run
import CephMds.Framework.Totals
import CephMds.Model.OpenIno

/-!
# Opening inodes by number

What is outstanding for an inode (`out`) goes with the state of its entry
(`Fine`): there is one thing outstanding, or none and it waits for peers. Each
function gives an inode that has nothing outstanding something new, or finishes
it, and leaves the others alone (`Turn`); this follows the calls from
`fetch_ok` to `doOpenIno_ok`. So every event keeps `Sound` (`step_ok`), no
assertion fails, and no waiter is lost or finished twice.
-/

namespace CephMds.OpenIno

open Checked Dentries Writes

/-! ## What is outstanding -/

/-- What one inode can wait for. -/
inductive Item
  | fetch
  | traverse
  | parent
  | reply (peer : Rank)
  deriving DecidableEq

def Pending.itemOf (ino : ℕ) : Pending → Option Item
  | .fetch j => if j = ino then some .fetch else none
  | .traverse j => if j = ino then some .traverse else none
  | .reply j peer => if j = ino then some (.reply peer) else none

def Waiter.fin? : Waiter → Option ℕ
  | .fin n => some n
  | .parentOpened _ => none

/-- The item that a waiter is for an inode. -/
def Waiter.items (w : Waiter) (ino : ℕ) : Multiset Item := if w = .parentOpened ino then {.parent} else 0

namespace MDCache

/-- The waiters of the entries and of the queue. -/
def waits (c : MDCache) : Multiset Waiter :=
  total (fun info => (info.waiters : Multiset Waiter)) c.openingInodes + (c.queue.map Prod.fst : Multiset Waiter)

/-- What is outstanding for an inode. -/
def out (c : MDCache) (ino : ℕ) : Multiset Item :=
  (c.pending.filterMap (Pending.itemOf ino) : Multiset Item) + c.waits.bind fun w => w.items ino

/-- The contexts given to `open_ino`, finished or not. -/
def fins (c : MDCache) : Multiset ℕ := c.waits.filterMap Waiter.fin? + (c.finished.map Prod.fst : Multiset ℕ)

end MDCache

/-- `do_open_ino` can go on. -/
def OpenInoInfo.Grounded (info : OpenInoInfo) : Prop := info.fetchBacktrace = true ∨ info.ancestors ≠ []

/-- Peers can be asked. -/
structure OpenInoInfo.Idle (info : OpenInoInfo) : Prop where
  checkPeers : info.checkPeers = false
  grounded : info.Grounded

/-- The state of an entry and what is outstanding for it. -/
inductive Fine (me : Rank) (info : OpenInoInfo) : Multiset Item → Prop
  | waits : info.checking = mdsRankNone → info.Idle → Fine me info 0
  | asks {peer : Rank} : info.checking = peer → 0 ≤ peer → info.Idle → Fine me info {.reply peer}
  | fetches : info.checking = me → Fine me info {.fetch}
  | traverses : info.checking = me → info.Grounded → Fine me info {.traverse}
  | opensParent : info.checking = me → info.Grounded → Fine me info {.parent}

/-- The reply of `who` was lost. -/
structure Lost (who : Rank) (info : OpenInoInfo) (out : Multiset Item) : Prop where
  checking : info.checking = who
  idle : info.Idle
  out : out = 0

/-- What holds of an inode, where those of `lost` can have lost the reply of `who`. -/
def Holds (me who : Rank) (lost : Prop) (o : Option OpenInoInfo) (out : Multiset Item) : Prop :=
  match o with
  | none => out = 0
  | some info => Fine me info out ∨ lost ∧ Lost who info out

variable {me who : Rank} {lost : ℕ → Prop} {m : Mds} {c c' : MDCache} {i j : ℕ} {info info' : OpenInoInfo} {err : ℤ}

/-- It does not depend on the rest of the entry. -/
theorem Fine.congr {out : Multiset Item} (h : Fine me info out) (h₁ : info'.checking = info.checking)
    (h₂ : info'.checkPeers = info.checkPeers) (h₃ : info'.fetchBacktrace = info.fetchBacktrace)
    (h₄ : info'.ancestors = info.ancestors) : Fine me info' out := by
  have hg : info.Grounded → info'.Grounded := fun hg => by rwa [OpenInoInfo.Grounded, h₃, h₄]
  have hi : info.Idle → info'.Idle := fun hi => ⟨h₂.trans hi.checkPeers, hg hi.grounded⟩
  cases h with
  | waits hc hidle => exact .waits (h₁.trans hc) (hi hidle)
  | asks hc hp hidle => exact .asks (h₁.trans hc) hp (hi hidle)
  | fetches hc => exact .fetches (h₁.trans hc)
  | traverses hc hground => exact .traverses (h₁.trans hc) (hg hground)
  | opensParent hc hground => exact .opensParent (h₁.trans hc) (hg hground)

namespace MDCache

/-! ## The state after the basic operations -/

theorem getElem?_setInfo (c : MDCache) (i j : ℕ) (info : OpenInoInfo) :
    (c.setInfo i info).openingInodes[j]? = if j = i then some info else c.openingInodes[j]? :=
  getElem?_insert c.openingInodes i j info

/-- The waiters, where those of an entry change. -/
theorem waits_setInfo (h : c.openingInodes[i]? = some info) (info' : OpenInoInfo) :
    (c.setInfo i info').waits + (info.waiters : Multiset Waiter) = c.waits + (info'.waiters : Multiset Waiter) := by
  have herase : (c.openingInodes.insert i info').erase i = c.openingInodes.erase i := by
    refine Std.ExtTreeMap.ext_getElem? fun k => ?_
    rw [getElem?_erase, getElem?_erase, getElem?_insert]
    split
    · rfl
    · rfl
  have hnew := total_erase (fun info => (info.waiters : Multiset Waiter)) (m := c.openingInodes.insert i info') (k := i)
    (b := info') (by rw [getElem?_insert, if_pos rfl])
  have hold := total_erase (fun info => (info.waiters : Multiset Waiter)) h
  rw [herase] at hnew
  show total _ (c.openingInodes.insert i info') + (c.queue.map Prod.fst : Multiset Waiter) + _ =
    total _ c.openingInodes + (c.queue.map Prod.fst : Multiset Waiter) + _
  rw [hnew, hold]
  simp only [add_assoc, add_comm, add_left_comm]

/-- A waiter more. -/
theorem waits_addWaiter {w : Waiter} (h : c.openingInodes[i]? = some info) (hw : info'.waiters = info.waiters ++ [w]) :
    (c.setInfo i info').waits = w ::ₘ c.waits := by
  have hset := waits_setInfo h info'
  have hnew : (info'.waiters : Multiset Waiter) = {w} + (info.waiters : Multiset Waiter) := by
    rw [hw, ← Multiset.coe_add, add_comm]
    rfl
  rw [hnew, ← add_assoc] at hset
  rw [add_right_cancel hset, add_comm]
  rfl

theorem waits_setInfo_same (h : c.openingInodes[i]? = some info) (hw : info'.waiters = info.waiters) :
    (c.setInfo i info').waits = c.waits := by
  have := waits_setInfo h info'
  rw [hw] at this
  exact add_right_cancel this

theorem waits_setInfo_new (h : c.openingInodes[i]? = none) (info : OpenInoInfo) :
    (c.setInfo i info).waits = c.waits + (info.waiters : Multiset Waiter) := by
  show total _ (c.openingInodes.insert i info) + (c.queue.map Prod.fst : Multiset Waiter) =
    total _ c.openingInodes + (c.queue.map Prod.fst : Multiset Waiter) + _
  rw [total_insert _ h, add_right_comm]

theorem out_setInfo (h : c.openingInodes[i]? = some info) (hw : info'.waiters = info.waiters) (j : ℕ) :
    (c.setInfo i info').out j = c.out j := by
  rw [out, out, waits_setInfo_same h hw]
  rfl

theorem fins_setInfo (h : c.openingInodes[i]? = some info) (hw : info'.waiters = info.waiters) :
    (c.setInfo i info').fins = c.fins := by
  rw [fins, fins, waits_setInfo_same h hw]
  rfl

theorem out_addPending (c : MDCache) (p : Pending) (j : ℕ) :
    (c.addPending p).out j = (p.itemOf j).elim 0 (fun it => {it}) + c.out j := by
  rw [out, out, ← add_assoc]
  refine congrArg (· + _) ?_
  show ((p :: c.pending).filterMap (Pending.itemOf j) : Multiset Item) = _
  rw [List.filterMap_cons]
  cases p.itemOf j with
  | none => exact (zero_add _).symm
  | some it => rfl

theorem out_done {p : Pending} (h : p ∈ c.pending) (j : ℕ) :
    c.out j = (p.itemOf j).elim 0 (fun it => {it}) + (c.done p).out j := by
  have hperm := List.perm_cons_erase h
  rw [← out_addPending, out, out]
  refine congrArg (· + _) (Multiset.coe_eq_coe.mpr (hperm.filterMap _))

/-- `open_ino_finish`: the waiters go to the queue. -/
theorem openInoFinish_eq (h : c.openingInodes[i]? = some info) (ret : ℤ) : ∃ c', c.openInoFinish i ret = .ok c' ∧
    c'.openingInodes = c.openingInodes.erase i ∧ c'.pending = c.pending ∧ c'.waits = c.waits ∧
    c'.finished = c.finished := by
  refine ⟨_, bind_ok.mpr ⟨info, deref_ok.mpr h, rfl⟩, rfl, rfl, ?_, rfl⟩
  show total _ (c.openingInodes.erase i) +
    ((info.waiters.map (fun w => (w, ret)) ++ c.queue).map Prod.fst : Multiset Waiter) =
      total _ c.openingInodes + (c.queue.map Prod.fst : Multiset Waiter)
  have hnew : (info.waiters.map fun w => (w, ret)).map Prod.fst = info.waiters := by
    rw [List.map_map]
    exact List.map_id _
  rw [List.map_append, hnew, total_erase (fun info => (info.waiters : Multiset Waiter)) h, ← Multiset.coe_add]
  simp only [add_assoc, add_comm, add_left_comm]

/-! ## Turns -/

/-- What an inode does next: contexts are kept, entries too but for those of `own`, and only those,
or new ones, ask a peer, an active one. -/
structure Turn (m : Mds) (own : ℕ → Prop) (c c' : MDCache) : Prop where
  fins : c'.fins = c.fins
  kept {j : ℕ} : ¬own j → c.openingInodes[j]? ≠ none → c'.openingInodes[j]? ≠ none
  asks {j : ℕ} {peer : Rank} : .reply peer ∈ c'.out j → .reply peer ∈ c.out j ∨
    peer ∈ m.active ∧ (own j ∨ c.openingInodes[j]? = none)

theorem Turn.refl (m : Mds) (own : ℕ → Prop) (c : MDCache) : Turn m own c c := ⟨rfl, fun _ h => h, fun h => .inl h⟩

theorem Turn.trans {own : ℕ → Prop} {c₁ : MDCache} (h : Turn m own c c₁) (h' : Turn m own c₁ c') : Turn m own c c' where
  fins := h'.fins.trans h.fins
  kept ho hj := h'.kept ho (h.kept ho hj)
  asks {j peer} hr := by
    rcases h'.asks hr with h₁ | ⟨hact, ho | hnone⟩
    · exact h.asks h₁
    · exact .inr ⟨hact, .inl ho⟩
    · by_cases ho : own j
      · exact .inr ⟨hact, .inl ho⟩
      · exact .inr ⟨hact, .inr (not_not.mp fun hj => h.kept ho hj hnone)⟩

theorem Turn.mono {own own' : ℕ → Prop} (h : Turn m own c c') (ho : ∀ j, own j → own' j) : Turn m own' c c' where
  fins := h.fins
  kept hj := h.kept fun hown => hj (ho _ hown)
  asks hr := (h.asks hr).imp_right fun ⟨hact, hj⟩ => ⟨hact, hj.imp_left (ho _)⟩

/-- An entry is changed. -/
theorem turn_setInfo (h : c.openingInodes[i]? = some info) (hw : info'.waiters = info.waiters) (m : Mds)
    (own : ℕ → Prop) :
    Turn m own c (c.setInfo i info') where
  fins := fins_setInfo h hw
  kept {j} _ hj := by
    rw [getElem?_setInfo]
    split
    · exact Option.some_ne_none _
    · exact hj
  asks hr := .inl (by rwa [out_setInfo h hw] at hr)

/-- Something is started. -/
theorem turn_addPending (c : MDCache) (p : Pending) (m : Mds) (own : ℕ → Prop)
    (hp : ∀ j peer, p = .reply j peer → peer ∈ m.active ∧ own j) : Turn m own c (c.addPending p) where
  fins := rfl
  kept _ hj := hj
  asks {j peer} hr := by
    rw [out_addPending, Multiset.mem_add] at hr
    refine hr.symm.imp_right fun hnew => ?_
    cases p with
    | fetch k =>
      simp only [Pending.itemOf] at hnew
      split at hnew <;> simp at hnew
    | traverse k =>
      simp only [Pending.itemOf] at hnew
      split at hnew <;> simp at hnew
    | reply k q =>
      simp only [Pending.itemOf] at hnew
      split at hnew
      · rename_i hk
        simp only [Option.elim_some, Multiset.mem_singleton, Item.reply.injEq] at hnew
        obtain ⟨hact, ho⟩ := hp k q rfl
        exact ⟨hnew ▸ hact, .inl (hk ▸ ho)⟩
      · simp at hnew

/-- All inodes are as they should be. -/
def AllHold (me who : Rank) (lost : ℕ → Prop) (c : MDCache) : Prop :=
  ∀ j, Holds me who (lost j) c.openingInodes[j]? (c.out j)

/-- The inode `i` has nothing outstanding, the others are as they should be. -/
structure Ready (me who : Rank) (lost : ℕ → Prop) (c : MDCache) (i : ℕ) (info : OpenInoInfo) : Prop where
  entry : c.openingInodes[i]? = some info
  out : c.out i = 0
  others {j : ℕ} : j ≠ i → Holds me who (lost j) c.openingInodes[j]? (c.out j)

/-- The inode `i` was given something to do, or finished. -/
structure Done (me who : Rank) (lost : ℕ → Prop) (m : Mds) (i : ℕ) (c c' : MDCache) : Prop where
  all : AllHold me who (fun j => j ≠ i ∧ lost j) c'
  turn : Turn m (· = i) c c'

theorem Holds.mono {p q : Prop} {o : Option OpenInoInfo} {out : Multiset Item} (h : Holds me who p o out)
    (hpq : p → q) :
    Holds me who q o out := by
  cases o with
  | none => exact h
  | some info => exact h.imp_right fun ⟨hp, hl⟩ => ⟨hpq hp, hl⟩

theorem Ready.setInfo (h : Ready me who lost c i info) (hw : info'.waiters = info.waiters) :
    Ready me who lost (c.setInfo i info') i info' where
  entry := by rw [getElem?_setInfo, if_pos rfl]
  out := by rw [out_setInfo h.entry hw, h.out]
  others {j} hj := by
    rw [getElem?_setInfo, if_neg hj, out_setInfo h.entry hw]
    exact h.others hj

/-- The inode is given something to do. -/
theorem Ready.start (h : Ready me who lost c i info) {p : Pending} {it : Item} (hi : p.itemOf i = some it)
    (hj : ∀ j, j ≠ i → p.itemOf j = none) (hf : Fine me info {it}) :
    AllHold me who (fun j => j ≠ i ∧ lost j) (c.addPending p) := by
  intro j
  rw [out_addPending]
  by_cases heq : j = i
  · subst heq
    rw [hi, h.out]
    show Holds _ _ _ c.openingInodes[j]? _
    rw [h.entry]
    exact .inl hf
  · rw [hj j heq]
    show Holds _ _ _ c.openingInodes[j]? (0 + c.out j)
    rw [zero_add]
    exact Holds.mono (h.others heq) fun hl => ⟨heq, hl⟩

theorem Ready.rest (h : Ready me who lost c i info) (hf : Fine me info 0) :
    AllHold me who (fun j => j ≠ i ∧ lost j) c := by
  intro j
  by_cases heq : j = i
  · subst heq
    rw [h.entry, h.out]
    exact .inl hf
  · exact Holds.mono (h.others heq) fun hl => ⟨heq, hl⟩

/-- `open_ino_finish` of an inode that has nothing outstanding. -/
theorem finish_ok (h : Ready me who lost c i info) (m : Mds) (ret : ℤ) :
    ∃ c', c.openInoFinish i ret = .ok c' ∧ Done me who lost m i c c' := by
  obtain ⟨c', hok, hopen, hpend, hwaits, hfin⟩ := openInoFinish_eq h.entry ret
  have hout (j : ℕ) : c'.out j = c.out j := by rw [out, out, hpend, hwaits]
  have hget (j : ℕ) : c'.openingInodes[j]? = if j = i then none else c.openingInodes[j]? := by
    rw [hopen]
    exact getElem?_erase c.openingInodes i j
  refine ⟨c', hok, fun j => ?_, by rw [fins, fins, hwaits, hfin], fun {j} hj hne => ?_,
    fun hr => .inl (by rwa [hout] at hr)⟩
  · rw [hget, hout]
    split
    · rename_i heq
      rw [heq]
      exact h.out
    · rename_i hne
      exact Holds.mono (h.others hne) fun hl => ⟨hne, hl⟩
  · rwa [hget, if_neg hj]

/-! ## The calls -/

theorem doOpenIno_fetch (h : c.openingInodes[i]? = some info) (herr : 0 ≤ err) (hc : info.checkPeers = false)
    (hf : info.fetchBacktrace = true) (n : ℕ) :
    doOpenIno (n + 1) m c i err = .ok (.addPending (c.setInfo i { info with
      checkPeers := true, fetchBacktrace := false, checking := m.nodeid, checked := {m.nodeid} }) (.fetch i)) := by
  simp only [doOpenIno, h, deref_some_bind, if_neg (not_lt.mpr herr), hc, hf, Bool.false_eq_true, if_false, if_true]
  rfl

/-- The backtrace is fetched. -/
theorem fetch_ok (h : Ready m.nodeid who lost c i info) (herr : 0 ≤ err) (hc : info.checkPeers = false)
    (hf : info.fetchBacktrace = true) (n : ℕ) :
    ∃ c', doOpenIno (n + 1) m c i err = .ok c' ∧ Done m.nodeid who lost m i c c' := by
  set info' : OpenInoInfo := { info with
    checkPeers := true, fetchBacktrace := false, checking := m.nodeid, checked := {m.nodeid} } with hinfo'
  have hw : info'.waiters = info.waiters := rfl
  have hr := h.setInfo hw
  exact ⟨(c.setInfo i info').addPending (.fetch i), doOpenIno_fetch h.entry herr hc hf n,
    hr.start (if_pos rfl) (fun j hj => if_neg (Ne.symm hj)) (.fetches rfl),
    (turn_setInfo h.entry hw m _).trans (turn_addPending _ _ m _ fun j peer hp => by cases hp)⟩

theorem choosePeer_mem {peer : Rank} (hp : (info.choosePeer m).1 = peer) (h : ¬peer < 0) : peer ∈ m.active := by
  rw [OpenInoInfo.choosePeer] at hp
  split at hp
  · split at hp
    · exact hp ▸ ‹_›
    · exact absurd (hp ▸ (by decide : mdsRankNone < 0)) h
  · dsimp only at hp
    cases hfind : (ascending m.active).find? fun p => p ≠ m.nodeid ∧ p ∉ info.checked with
    | none =>
      rw [hfind] at hp
      exact absurd (hp ▸ (by decide : mdsRankNone < 0)) h
    | some p =>
      rw [hfind] at hp
      exact hp ▸ mem_ascending.mp (List.mem_of_find?_eq_some hfind)

/-- A peer is asked, or the inode waits for more peers, or `do_open_ino` goes on. -/
theorem peer_ok (h : Ready m.nodeid who lost c i info) (hc : info.checking = mdsRankNone) (hidle : info.Idle) {n : ℕ}
    (hnext : ∃ c', doOpenIno n m c i 0 = .ok c' ∧ Done m.nodeid who lost m i c c') :
    ∃ c', doOpenInoPeer (n + 1) m c i = .ok c' ∧ Done m.nodeid who lost m i c c' := by
  simp only [doOpenInoPeer, h.entry, deref_some_bind]
  by_cases hp : (info.choosePeer m).1 < 0
  · rw [if_pos hp]
    by_cases hw : info.waitsForPeers m = true
    · rw [if_pos hw]
      exact ⟨c, rfl, h.rest (.waits hc hidle), .refl m _ c⟩
    · rw [if_neg hw]
      exact hnext
  · rw [if_neg hp]
    set info' : OpenInoInfo :=
      { info with authHint := (info.choosePeer m).2, checking := (info.choosePeer m).1 } with hinfo'
    have hw : info'.waiters = info.waiters := rfl
    have hr := h.setInfo hw
    refine ⟨_, rfl, hr.start (if_pos rfl) (fun j hj => if_neg (Ne.symm hj))
      (.asks rfl (not_lt.mp hp) ⟨hidle.checkPeers, hidle.grounded⟩),
      (turn_setInfo h.entry hw m _).trans (turn_addPending _ _ m _ fun j peer hj => ?_)⟩
    cases hj
    exact ⟨choosePeer_mem rfl hp, rfl⟩

/-- The entry that `do_open_ino` goes on with. -/
def entered (m : Mds) (info : OpenInoInfo) (err : ℤ) : OpenInoInfo := if err < 0 then info.restart m else info

theorem entered_waiters (m : Mds) (info : OpenInoInfo) (err : ℤ) : (entered m info err).waiters = info.waiters := by
  rw [entered]
  split <;> rfl

/-- The entry before a peer is chosen. -/
def asking (m : Mds) (info : OpenInoInfo) (err : ℤ) : OpenInoInfo :=
  { entered m info err with checkPeers := false, checking := mdsRankNone }

theorem doOpenIno_peers (h : c.openingInodes[i]? = some info) (hc : (entered m info err).checkPeers = true) (n : ℕ) :
    doOpenIno (n + 1) m c i err = doOpenInoPeer n m (c.setInfo i (asking m info err)) i := by
  rw [entered] at hc
  simp only [doOpenIno, h, deref_some_bind, hc, if_true]
  rfl

/-- An error makes the search start again. -/
theorem entered_of_no_peers (hc : (entered m info err).checkPeers = false) :
    0 ≤ err ∧ info.checkPeers = false := by
  rw [entered] at hc
  split at hc
  · cases hc
  · rename_i herr
    exact ⟨not_lt.mp herr, hc⟩

theorem Done.of_setInfo (h : c.openingInodes[i]? = some info) (hw : info'.waiters = info.waiters)
    (hd : Done me who lost m i (c.setInfo i info') c') : Done me who lost m i c c' :=
  ⟨hd.all, (turn_setInfo h hw m _).trans hd.turn⟩

/-- An inode whose backtrace has not been fetched. -/
theorem fresh_ok (h : Ready m.nodeid who lost c i info) (hf : info.fetchBacktrace = true) (n : ℕ) (err : ℤ) :
    ∃ c', doOpenIno (n + 3) m c i err = .ok c' ∧ Done m.nodeid who lost m i c c' := by
  have hf' : (entered m info err).fetchBacktrace = true := by
    rw [entered]
    split
    · rfl
    · exact hf
  cases hc : (entered m info err).checkPeers with
  | true =>
    have hw : (asking m info err).waiters = info.waiters := entered_waiters m info err
    have hr := h.setInfo hw
    obtain ⟨c', hok, hd⟩ := peer_ok hr rfl ⟨rfl, .inl hf'⟩ (fetch_ok hr (le_refl 0) rfl hf' n)
    exact ⟨c', (doOpenIno_peers h.entry hc _).trans hok, .of_setInfo h.entry hw hd⟩
  | false =>
    obtain ⟨herr, hcp⟩ := entered_of_no_peers hc
    exact fetch_ok h herr hcp hf (n + 2)

theorem Holds.congr {p : Prop} {out : Multiset Item} (h : Holds me who p (some info) out)
    (h₁ : info'.checking = info.checking) (h₂ : info'.checkPeers = info.checkPeers)
    (h₃ : info'.fetchBacktrace = info.fetchBacktrace) (h₄ : info'.ancestors = info.ancestors) :
    Holds me who p (some info') out := by
  refine Or.imp (fun hf => Fine.congr hf h₁ h₂ h₃ h₄) (fun ⟨hp, hl⟩ => ⟨hp, h₁.trans hl.checking, ?_, hl.out⟩) h
  refine ⟨h₂.trans hl.idle.checkPeers, ?_⟩
  rw [OpenInoInfo.Grounded, h₃, h₄]
  exact hl.idle.grounded

theorem out_of_waits {w : Waiter} (hw : c'.waits = w ::ₘ c.waits) (hp : c'.pending = c.pending) (j : ℕ) :
    c'.out j = w.items j + c.out j := by
  rw [out, out, hp, hw, Multiset.cons_bind, add_left_comm]

theorem fins_of_waits {w : Waiter} (hw : c'.waits = w ::ₘ c.waits) (hf : c'.finished = c.finished) :
    c'.fins = (w.fin?.elim 0 fun n => {n}) + c.fins := by
  rw [fins, fins, hw, hf, ← add_assoc]
  refine congrArg (· + _) ?_
  cases hw : w.fin? with
  | none => rw [Multiset.filterMap_cons_none _ _ hw]; exact (zero_add _).symm
  | some n => rw [Multiset.filterMap_cons_some _ _ _ hw]; rfl

theorem reply_not_mem_items (w : Waiter) (j : ℕ) (peer : Rank) : Item.reply peer ∉ w.items j := by
  rw [Waiter.items]
  split <;> simp

/-- What `open_ino` does. -/
structure Opened (m : Mds) (w : Waiter) (c c' : MDCache) : Prop where
  fins : c'.fins = (w.fin?.elim 0 fun n => {n}) + c.fins
  kept {k : ℕ} : c.openingInodes[k]? ≠ none → c'.openingInodes[k]? ≠ none
  asks {k : ℕ} {peer : Rank} : .reply peer ∈ c'.out k → .reply peer ∈ c.out k ∨
    peer ∈ m.active ∧ c.openingInodes[k]? = none

/-- The waiter is put on the entry, or on a new one. -/
theorem openIno_ok {w : Waiter} (h : ∀ k, Holds m.nodeid who (lost k) c.openingInodes[k]? (w.items k + c.out k))
    (n j : ℕ) (pool : ℤ) (wantReplica wantXlocked : Bool) :
    ∃ c', openIno (n + 4) m c j pool w wantReplica wantXlocked = .ok c' ∧ AllHold m.nodeid who lost c' ∧
      Opened m w c c' := by
  cases hj : c.openingInodes[j]? with
  | some info =>
    set info' : OpenInoInfo := { info with
      wantReplica := info.wantReplica || wantReplica
      wantXlocked := info.wantXlocked || (wantReplica && wantXlocked)
      waiters := info.waiters ++ [w] } with hinfo'
    have hwaits : (c.setInfo j info').waits = w ::ₘ c.waits := waits_addWaiter hj rfl
    have hout (k : ℕ) : (c.setInfo j info').out k = w.items k + c.out k := out_of_waits hwaits rfl k
    refine ⟨c.setInfo j info', by simp only [openIno, hj]; rfl, fun k => ?_, fins_of_waits hwaits rfl, fun {k} hk => ?_,
      fun {k peer} hr => ?_⟩
    · have hk := h k
      rw [getElem?_setInfo, hout]
      split
      · rename_i heq
        rw [heq, hj] at hk
        rw [heq]
        exact Holds.congr hk rfl rfl rfl rfl
      · exact hk
    · rw [getElem?_setInfo]
      split
      · exact Option.some_ne_none _
      · exact hk
    · rw [hout, Multiset.mem_add] at hr
      exact .inl (hr.resolve_left (reply_not_mem_items w k peer))
  | none =>
    set info : OpenInoInfo := .new m (c.lastTid + 1) pool w wantReplica wantXlocked with hinfo
    set c₁ : MDCache := { c.setInfo j info with lastTid := c.lastTid + 1 } with hc₁
    have hwaits : c₁.waits = w ::ₘ c.waits := by
      show (c.setInfo j info).waits = _
      rw [waits_setInfo_new hj, add_comm]
      rfl
    have hout (k : ℕ) : c₁.out k = w.items k + c.out k := out_of_waits hwaits rfl k
    have hget (k : ℕ) : c₁.openingInodes[k]? = if k = j then some info else c.openingInodes[k]? :=
      getElem?_setInfo c j k info
    have hready : Ready m.nodeid who lost c₁ j info := by
      refine ⟨by rw [hget, if_pos rfl], ?_, fun {k} hk => ?_⟩
      · have := h j
        rw [hj] at this
        rw [hout]
        exact this
      · rw [hget, if_neg hk, hout]
        exact h k
    obtain ⟨c', hok, hd⟩ := fresh_ok hready rfl n 0
    refine ⟨c', by simp only [openIno, hj]; exact hok, fun k => Holds.mono (hd.all k) And.right,
      hd.turn.fins.trans (fins_of_waits hwaits rfl), fun {k} hk => ?_, fun {k peer} hr => ?_⟩
    · have hne : k ≠ j := fun heq => hk (heq ▸ hj)
      exact hd.turn.kept hne (by rwa [hget, if_neg hne])
    · rcases hd.turn.asks hr with hold | ⟨hact, hk⟩
      · rw [hout, Multiset.mem_add] at hold
        exact .inl (hold.resolve_left (reply_not_mem_items w k peer))
      · refine .inr ⟨hact, ?_⟩
        rcases hk with rfl | hk
        · exact hj
        · rw [hget] at hk
          split at hk
          · cases hk
          · exact hk

/-- The parent is opened. -/
theorem doOpenIno_parent {parent : Backpointer} {rest : List Backpointer} (h : c.openingInodes[i]? = some info)
    (herr : 0 ≤ err) (hc : info.checkPeers = false) (hf : info.fetchBacktrace = false)
    (hparent : info.ancestors = parent :: rest) (n : ℕ) :
    doOpenIno (n + 1) m c i err = openIno n m (c.setInfo i { info with checking := m.nodeid }) parent.dirino
      m.metadataPool (.parentOpened i) info.wantReplica false := by
  obtain ⟨ancestors, checked, checking, authHint, checkPeers, fetchBacktrace, discover, wantReplica, wantXlocked,
    tid, pool, waiters⟩ := info
  simp only at hc hf hparent
  subst hc hf hparent
  simp only [doOpenIno, h, deref_some_bind, if_neg (not_lt.mpr herr), Bool.false_eq_true, if_false, List.isEmpty_cons,
    Bool.not_false, assert_true_bind, List.head?_cons]

/-- `assert(!info.ancestors.empty())`. -/
theorem doOpenIno_stuck (h : c.openingInodes[i]? = some info) (herr : 0 ≤ err) (hc : info.checkPeers = false)
    (hf : info.fetchBacktrace = false) (hnil : info.ancestors = []) (n : ℕ) :
    doOpenIno (n + 1) m c i err = .error .assert := by
  obtain ⟨ancestors, checked, checking, authHint, checkPeers, fetchBacktrace, discover, wantReplica, wantXlocked,
    tid, pool, waiters⟩ := info
  simp only at hc hf hnil
  subst hc hf hnil
  simp only [doOpenIno, h, deref_some_bind, if_neg (not_lt.mpr herr), Bool.false_eq_true, if_false, List.isEmpty_nil,
    Bool.not_true]
  rfl

/-- The peers have been asked. -/
theorem advance_ok (h : Ready m.nodeid who lost c i info) (hidle : info.Idle) (herr : 0 ≤ err) (n : ℕ) :
    ∃ c', doOpenIno (n + 5) m c i err = .ok c' ∧ Done m.nodeid who lost m i c c' := by
  cases hf : info.fetchBacktrace with
  | true => exact fetch_ok h herr hidle.checkPeers hf (n + 4)
  | false =>
    have hne : info.ancestors ≠ [] := hidle.grounded.resolve_left (by rw [hf]; exact Bool.false_ne_true)
    obtain ⟨parent, rest, hparent⟩ := List.exists_cons_of_ne_nil hne
    set info' : OpenInoInfo := { info with checking := m.nodeid } with hinfo'
    have hw : info'.waiters = info.waiters := rfl
    have hr := h.setInfo hw
    have hall (k : ℕ) : Holds m.nodeid who (k ≠ i ∧ lost k) (c.setInfo i info').openingInodes[k]?
        ((Waiter.parentOpened i).items k + (c.setInfo i info').out k) := by
      by_cases heq : k = i
      · rw [heq, hr.entry, hr.out, Waiter.items, if_pos rfl]
        exact .inl (.opensParent rfl hidle.grounded)
      · rw [Waiter.items, if_neg (fun he => heq (Waiter.parentOpened.inj he).symm), zero_add]
        exact Holds.mono (hr.others heq) fun hl => ⟨heq, hl⟩
    obtain ⟨c', hok, hall', ho⟩ := openIno_ok hall n parent.dirino m.metadataPool info.wantReplica false
    refine ⟨c', ?_, hall', (turn_setInfo h.entry hw m _).trans ⟨?_, fun _ hk => ho.kept hk, fun hr => ?_⟩⟩
    · exact (doOpenIno_parent h.entry herr hidle.checkPeers hf hparent _).trans hok
    · rw [ho.fins]
      exact zero_add _
    · exact (ho.asks hr).imp_right fun ⟨hact, hk⟩ => ⟨hact, .inr hk⟩

theorem doOpenInoPeer_ok (h : Ready m.nodeid who lost c i info) (hc : info.checking = mdsRankNone) (hidle : info.Idle) :
    ∃ c', doOpenInoPeer maxDepth m c i = .ok c' ∧ Done m.nodeid who lost m i c c' :=
  peer_ok h hc hidle (advance_ok h hidle (le_refl 0) 3)

/-- `do_open_ino` of an inode that has nothing outstanding. -/
theorem doOpenIno_ok (h : Ready m.nodeid who lost c i info) (hg : err < 0 ∨ info.Grounded) :
    ∃ c', doOpenIno maxDepth m c i err = .ok c' ∧ Done m.nodeid who lost m i c c' := by
  cases hc : (entered m info err).checkPeers with
  | true =>
    have hw : (asking m info err).waiters = info.waiters := entered_waiters m info err
    have hr := h.setInfo hw
    have hidle : (asking m info err).Idle := by
      refine ⟨rfl, ?_⟩
      show (entered m info err).Grounded
      rw [entered]
      split
      · exact .inl rfl
      · exact hg.resolve_left ‹_›
    obtain ⟨c', hok, hd⟩ := peer_ok hr rfl hidle (advance_ok hr hidle (le_refl 0) 2)
    exact ⟨c', (doOpenIno_peers h.entry hc _).trans hok, .of_setInfo h.entry hw hd⟩
  | false =>
    obtain ⟨herr, hcp⟩ := entered_of_no_peers hc
    exact advance_ok h ⟨hcp, hg.resolve_left (not_lt.mpr herr)⟩ herr 4

/-! ## What comes back -/

theorem openInoTraverseDir_ok (h : Ready m.nodeid who lost c i info) (hc : info.checking = m.nodeid)
    (hg : info.Grounded)
    (ret : ℤ) (found : Option Rank) (t : Traversal) :
    ∃ c', c.openInoTraverseDir m i ret found t = .ok c' ∧ Done m.nodeid who lost m i c c' := by
  simp only [openInoTraverseDir, h.entry, deref_some_bind]
  cases found with
  | some auth => exact finish_ok h m auth
  | none =>
    dsimp only
    by_cases hret : ret ≠ 0
    · rw [if_pos hret]
      exact doOpenIno_ok h (.inr hg)
    · rw [if_neg hret]
      cases t with
      | waits =>
        exact ⟨_, rfl, h.start (if_pos rfl) (fun j hj => if_neg (Ne.symm hj)) (.traverses hc hg),
          turn_addPending c _ m _ fun j peer hp => by cases hp⟩
      | done err hint =>
        dsimp only
        split
        · have hw : ({ info with authHint := hint.getD info.authHint } : OpenInoInfo).waiters = info.waiters := rfl
          obtain ⟨c', hok, hd⟩ := doOpenIno_ok (h.setInfo hw) (.inr hg)
          exact ⟨c', hok, .of_setInfo h.entry hw hd⟩
        · exact doOpenIno_ok h (.inr hg)

/-- A backtrace that is of use has ancestors. -/
theorem ancestors_of_backtraceError {bt : Except ℤ Backtrace} {bt' : Backtrace} (h : backtraceError info bt = .ok bt') :
    bt'.ancestors ≠ [] := by
  cases bt with
  | error err => cases h
  | ok bt =>
    simp only [backtraceError] at h
    split at h
    · cases h
    · rename_i hne
      split at h
      · cases h
      · cases h
        simpa using hne

theorem openInoBacktraceFetched_ok (h : Ready m.nodeid who lost c i info) (hc : info.checking = m.nodeid)
    (bt : Except ℤ Backtrace) (found : Option Rank) (t : Traversal) :
    ∃ c', c.openInoBacktraceFetched m i bt found t = .ok c' ∧ Done m.nodeid who lost m i c c' := by
  simp only [openInoBacktraceFetched, h.entry, deref_some_bind]
  cases found with
  | some auth => exact finish_ok h m auth
  | none =>
    dsimp only
    cases hpool : retryPool m info bt with
    | some pool =>
      have hw : ({ info with pool := pool } : OpenInoInfo).waiters = info.waiters := rfl
      exact ⟨_, rfl, (h.setInfo hw).start (if_pos rfl) (fun j hj => if_neg (Ne.symm hj)) (.fetches hc),
        (turn_setInfo h.entry hw m _).trans (turn_addPending _ _ m _ fun j peer hp => by cases hp)⟩
    | none =>
      cases hbt : backtraceError info bt with
      | error err => exact finish_ok h m err
      | ok bt =>
        have hne : bt.ancestors ≠ [] := ancestors_of_backtraceError hbt
        have hw : ({ info with ancestors := bt.ancestors } : OpenInoInfo).waiters = info.waiters := rfl
        obtain ⟨c', hok, hd⟩ := openInoTraverseDir_ok (h.setInfo hw) hc (.inr hne) 0 none t
        exact ⟨c', hok, .of_setInfo h.entry hw hd⟩

theorem openInoParentOpened_ok (h : Ready m.nodeid who lost c i info) (hc : info.checking = m.nodeid)
    (hg : info.Grounded) (ret : ℤ) (found : Option Rank) (t : Traversal) (checkedRank : Rank) :
    ∃ c', c.openInoParentOpened m i ret found t checkedRank = .ok c' ∧ Done m.nodeid who lost m i c c' := by
  simp only [openInoParentOpened, h.entry, deref_some_bind]
  cases found with
  | some auth => exact finish_ok h m auth
  | none =>
    dsimp only
    split
    · exact openInoTraverseDir_ok h hc hg 0 none t
    · split
      · have hw : ({ info with
            checkPeers := true, authHint := checkedRank, checked := info.checked.erase checkedRank } :
                OpenInoInfo).waiters =
            info.waiters := rfl
        obtain ⟨c', hok, hd⟩ := doOpenIno_ok (h.setInfo hw) (.inr hg)
        exact ⟨c', hok, .of_setInfo h.entry hw hd⟩
      · exact doOpenIno_ok h (.inr hg)

/-- The reply of the peer that was asked. -/
theorem handleOpenInoReply_ok {source : Rank} (h : Ready m.nodeid who lost c i info) (hc : info.checking = source)
    (hidle : info.Idle) (r : Reply) (found : Option Rank) (t : Traversal) :
    ∃ c', c.handleOpenInoReply m i source r found t = .ok c' ∧ Done m.nodeid who lost m i c c' := by
  set x : OpenInoInfo := { info with checking := mdsRankNone, checked := insert source info.checked } with hx
  have hw : x.waiters = info.waiters := rfl
  have hr := h.setInfo hw
  have hxidle : x.Idle := ⟨hidle.checkPeers, hidle.grounded⟩
  cases found with
  | some auth =>
    obtain ⟨c', hok, hd⟩ := finish_ok hr m auth
    refine ⟨c', ?_, .of_setInfo h.entry hw hd⟩
    simp only [handleOpenInoReply, h.entry, if_pos hc]
    exact hok
  | none =>
    suffices H : ∃ c', (
        if !r.ancestors.isEmpty then
          if !x.wantReplica then (c.setInfo i x).openInoFinish i source
          else ((c.setInfo i x).setInfo i { x with
            ancestors := r.ancestors, authHint := source, checking := m.nodeid, discover := true }).openInoTraverseDir
              m i 0 none t
        else if r.error ≠ 0 then doOpenIno maxDepth m (c.setInfo i x) i r.error
        else doOpenInoPeer maxDepth m (if 0 ≤ r.hint ∧ r.hint ≠ m.nodeid then
          (c.setInfo i x).setInfo i { x with authHint := r.hint, checked := x.checked.erase r.hint }
            else c.setInfo i x) i) = .ok c' ∧ Done m.nodeid who lost m i (c.setInfo i x) c' by
      obtain ⟨c', hok, hd⟩ := H
      refine ⟨c', ?_, .of_setInfo h.entry hw hd⟩
      simp only [handleOpenInoReply, h.entry, if_pos hc]
      exact hok
    split
    · rename_i hne
      split
      · exact finish_ok hr m source
      · have hw' : ({ x with
            ancestors := r.ancestors, authHint := source, checking := m.nodeid, discover := true } : OpenInoInfo).waiters
              = x.waiters := rfl
        obtain ⟨c', hok, hd⟩ := openInoTraverseDir_ok (hr.setInfo hw') rfl (.inr (by simpa using hne)) 0 none t
        exact ⟨c', hok, .of_setInfo hr.entry hw' hd⟩
    · split
      · exact doOpenIno_ok hr (.inr hxidle.grounded)
      · split
        · have hw' : ({ x with authHint := r.hint, checked := x.checked.erase r.hint } : OpenInoInfo).waiters =
              x.waiters := rfl
          obtain ⟨c', hok, hd⟩ := doOpenInoPeer_ok (hr.setInfo hw') rfl ⟨hxidle.checkPeers, hxidle.grounded⟩
          exact ⟨c', hok, .of_setInfo hr.entry hw' hd⟩
        · exact doOpenInoPeer_ok hr rfl hxidle

/-! ## Peers that fail or come up -/

/-- The iteration of `kick_open_ino_peers`. -/
theorem kickOpenIno_ok (h : AllHold m.nodeid who lost c) (hno : .reply who ∉ c.out i) (hwho : 0 ≤ who)
    (hme : 0 ≤ m.nodeid) (hne : who ≠ m.nodeid) :
    ∃ c', kickOpenIno m who c i = .ok c' ∧ Done m.nodeid who lost m i c c' := by
  have hnone : who ≠ mdsRankNone := fun heq => absurd (heq ▸ hwho) (by decide)
  have hme' : m.nodeid ≠ mdsRankNone := fun heq => absurd (heq ▸ hme) (by decide)
  have hother {j : ℕ} (_ : j ≠ i) : Holds m.nodeid who (lost j) c.openingInodes[j]? (c.out j) := h j
  have hi := h i
  cases hentry : c.openingInodes[i]? with
  | none =>
    rw [hentry] at hi
    refine ⟨c, by simp only [kickOpenIno, hentry]; rfl, fun j => ?_, .refl m _ c⟩
    by_cases heq : j = i
    · rw [heq, hentry]
      exact hi
    · exact Holds.mono (h j) fun hl => ⟨heq, hl⟩
  | some info =>
    rw [hentry] at hi
    simp only [kickOpenIno, hentry]
    by_cases hc : info.checking = who
    · -- Then its reply was lost.
      rw [if_pos hc]
      have hlost : Lost who info (c.out i) := by
        rcases hi with hf | ⟨-, hl⟩
        · generalize hout : c.out i = o at hf hno
          cases hf with
          | waits hcheck _ => exact absurd (hc.symm.trans hcheck) hnone
          | asks hcheck hp _ =>
            have heq : Item.reply who = .reply _ := congrArg Item.reply (hc.symm.trans hcheck)
            exact absurd (Multiset.mem_singleton.mpr heq) hno
          | fetches hcheck => exact absurd (hc.symm.trans hcheck) hne
          | traverses hcheck _ => exact absurd (hc.symm.trans hcheck) hne
          | opensParent hcheck _ => exact absurd (hc.symm.trans hcheck) hne
        · exact hl
      have hw : ({ info with checking := mdsRankNone } : OpenInoInfo).waiters = info.waiters := rfl
      have hready : Ready m.nodeid who lost c i info := ⟨hentry, hlost.out, hother⟩
      obtain ⟨c', hok, hd⟩ := doOpenInoPeer_ok (hready.setInfo hw) rfl ⟨hlost.idle.checkPeers, hlost.idle.grounded⟩
      exact ⟨c', hok, .of_setInfo hentry hw hd⟩
    · rw [if_neg hc]
      have hf : Fine m.nodeid info (c.out i) := hi.resolve_right fun hl => hc hl.2.checking
      by_cases hwait : info.checking = mdsRankNone
      · rw [if_pos hwait]
        have hidle : info.Idle ∧ c.out i = 0 := by
          generalize hout : c.out i = o at hf
          cases hf with
          | waits _ hidle => exact ⟨hidle, rfl⟩
          | asks hcheck hp _ => exact absurd (hcheck.symm.trans hwait ▸ hp) (by decide)
          | fetches hcheck => exact absurd (hcheck.symm.trans hwait) hme'
          | traverses hcheck _ => exact absurd (hcheck.symm.trans hwait) hme'
          | opensParent hcheck _ => exact absurd (hcheck.symm.trans hwait) hme'
        have hready : Ready m.nodeid who lost c i info := ⟨hentry, hidle.2, hother⟩
        exact doOpenInoPeer_ok hready hwait hidle.1
      · rw [if_neg hwait]
        refine ⟨c, rfl, fun j => ?_, .refl m _ c⟩
        by_cases heq : j = i
        · rw [heq, hentry]
          exact .inl hf
        · exact Holds.mono (h j) fun hl => ⟨heq, hl⟩

/-- No visited inode has a message to `who` outstanding. -/
def KickOk (m : Mds) (who : Rank) : MDCache → List ℕ → Prop
  | _, [] => True
  | c, i :: rest => .reply i who ∉ c.pending ∧ ∀ c', kickOpenIno m who c i = .ok c' → KickOk m who c' rest

theorem reply_mem_out {peer : Rank} : .reply peer ∈ c.out i ↔ .reply i peer ∈ c.pending := by
  have hwaits : .reply peer ∉ c.waits.bind fun w => w.items i := by
    intro hmem
    obtain ⟨w, -, hr⟩ := Multiset.mem_bind.mp hmem
    exact reply_not_mem_items w i peer hr
  rw [out, Multiset.mem_add, or_iff_left hwaits, Multiset.mem_coe, List.mem_filterMap]
  constructor
  · rintro ⟨p, hp, hitem⟩
    cases p with
    | fetch j => simp only [Pending.itemOf] at hitem; split at hitem <;> cases hitem
    | traverse j => simp only [Pending.itemOf] at hitem; split at hitem <;> cases hitem
    | reply j q =>
      simp only [Pending.itemOf] at hitem
      split at hitem
      · rename_i hj
        cases hitem
        exact hj ▸ hp
      · cases hitem
  · exact fun hp => ⟨_, hp, if_pos rfl⟩

theorem kick_ok (h : AllHold m.nodeid who lost c) (hwho : 0 ≤ who) (hme : 0 ≤ m.nodeid) (hne : who ≠ m.nodeid)
    {visited : List ℕ} (hk : KickOk m who c visited) : ∃ c', c.kickOpenInoPeers m who visited = .ok c' ∧
      AllHold m.nodeid who (fun j => j ∉ visited ∧ lost j) c' ∧ c'.fins = c.fins := by
  induction visited generalizing c lost with
  | nil => exact ⟨c, rfl, fun j => Holds.mono (h j) fun hl => ⟨List.not_mem_nil, hl⟩, rfl⟩
  | cons i rest ih =>
    obtain ⟨c₁, hok, hd⟩ := kickOpenIno_ok (i := i) h (fun hr => hk.1 (reply_mem_out.mp hr)) hwho hme hne
    obtain ⟨c', hok', hall, hfins⟩ := ih hd.all (hk.2 c₁ hok)
    refine ⟨c', ?_, fun j => Holds.mono (hall j) ?_, hfins.trans hd.turn.fins⟩
    · rw [kickOpenInoPeers, List.foldlM_cons]
      exact bind_ok.mpr ⟨c₁, hok, hok'⟩
    · rintro ⟨hrest, hi, hl⟩
      exact ⟨fun hmem => (List.mem_cons.mp hmem).elim hi hrest, hl⟩

/-- A rank that is not active is not asked in the loop. -/
theorem kickOk_of_inactive (h : AllHold m.nodeid who lost c) (hwho : 0 ≤ who) (hme : 0 ≤ m.nodeid)
    (hne : who ≠ m.nodeid) (hact : who ∉ m.active) (hno : ∀ j, .reply who ∉ c.out j) (visited : List ℕ) :
    KickOk m who c visited := by
  induction visited generalizing c lost with
  | nil => exact trivial
  | cons i rest ih =>
    refine ⟨fun hp => hno i (reply_mem_out.mpr hp), fun c₁ hok₁ => ?_⟩
    obtain ⟨c', hok, hd⟩ := kickOpenIno_ok h (hno i) hwho hme hne
    have heq : c' = c₁ := Except.ok.inj (hok.symm.trans hok₁)
    exact heq ▸ ih hd.all fun j hr => (hd.turn.asks hr).elim (hno j) fun hact' => hact hact'.1

theorem filterMap_filter_of_iff {α β : Type} {f : α → Option β} {p : α → Bool} {q : β → Bool} (l : List α)
    (h : ∀ x y, f x = some y → p x = q y) : (l.filter p).filterMap f = (l.filterMap f).filter q := by
  induction l with
  | nil => rfl
  | cons x l ih =>
    rw [List.filter_cons, List.filterMap_cons]
    cases hf : f x with
    | none =>
      split
      · rw [List.filterMap_cons, hf, ih]
      · exact ih
    | some y =>
      rw [List.filter_cons, ← h x y hf]
      split
      · rw [List.filterMap_cons, hf, ih]
      · exact ih

theorem out_loseReplies (c : MDCache) (who : Rank) (j : ℕ) :
    (c.loseReplies who).out j = (c.out j).filter (· ≠ .reply who) := by
  rw [out, out, Multiset.filter_add]
  congr 1
  · rw [Multiset.filter_coe]
    refine congrArg _ (filterMap_filter_of_iff _ fun p it hit => ?_)
    cases p with
    | fetch k => simp only [Pending.itemOf] at hit; split at hit <;> cases hit; rfl
    | traverse k => simp only [Pending.itemOf] at hit; split at hit <;> cases hit; rfl
    | reply k q =>
      simp only [Pending.itemOf] at hit
      split at hit
      · cases hit
        simp
      · cases hit
  · refine (Multiset.filter_eq_self.mpr fun it hit heq => ?_).symm
    obtain ⟨w, -, hr⟩ := Multiset.mem_bind.mp hit
    exact reply_not_mem_items w j who (heq ▸ hr)

/-! ## Runs -/

/-- One thing is outstanding for each inode that is being opened, or none and it waits for peers;
none for the others. -/
def Sound (me : Rank) (c : MDCache) : Prop :=
  ∀ j, (c.openingInodes[j]? = none → c.out j = 0) ∧ ∀ info, c.openingInodes[j]? = some info → Fine me info (c.out j)

theorem sound_iff : Sound me c ↔ AllHold me who (fun _ => False) c := by
  refine forall_congr' fun j => ?_
  cases c.openingInodes[j]? with
  | none => simp [Holds]
  | some info => simp [Holds]

theorem Done.sound (h : Done me who (fun _ => False) m i c c') : Sound me c' :=
  sound_iff.mpr fun j => Holds.mono (h.all j) And.right

theorem eq_singleton_of_fine {o : Multiset Item} {it : Item} (h : Fine me info o) (hit : it ∈ o) : o = {it} := by
  cases h with
  | waits _ _ => exact absurd hit (Multiset.notMem_zero it)
  | asks _ _ _ => rw [Multiset.mem_singleton.mp hit]
  | fetches _ => rw [Multiset.mem_singleton.mp hit]
  | traverses _ _ => rw [Multiset.mem_singleton.mp hit]
  | opensParent _ _ => rw [Multiset.mem_singleton.mp hit]

/-- What comes back belongs to an entry that has nothing else outstanding. -/
theorem ready_of_out {it : Item} (h : Sound me c) (hi : c.out i = {it} + c'.out i)
    (hj : ∀ j, j ≠ i → c.out j = c'.out j)
    (ho : c'.openingInodes = c.openingInodes) :
    ∃ info, Ready me 0 (fun _ => False) c' i info ∧ Fine me info {it} := by
  have hit : it ∈ c.out i := by
    rw [hi]
    exact Multiset.mem_add.mpr (.inl (Multiset.mem_singleton_self it))
  obtain ⟨hnone, hsome⟩ := h i
  cases hentry : c.openingInodes[i]? with
  | none => exact absurd (hnone hentry ▸ hit) (Multiset.notMem_zero it)
  | some info =>
    have hf := hsome info hentry
    have hone := eq_singleton_of_fine hf hit
    refine ⟨info, ⟨by rw [ho, hentry], ?_, fun {j} hne => ?_⟩, hone ▸ hf⟩
    · rw [hone] at hi
      exact (add_left_cancel (hi.symm.trans (add_zero _).symm))
    · rw [ho, ← hj j hne]
      exact sound_iff.mp h j

theorem ready_of_pending {p : Pending} {it : Item} (h : Sound me c) (hp : p ∈ c.pending) (hi : p.itemOf i = some it)
    (hj : ∀ j, j ≠ i → p.itemOf j = none) :
    ∃ info, Ready me 0 (fun _ => False) (c.done p) i info ∧ Fine me info {it} := by
  refine ready_of_out h ?_ (fun j hne => ?_) rfl
  · rw [out_done hp, hi]
    rfl
  · rw [out_done hp, hj j hne]
    exact zero_add _

/-- The events that are possible. A rank whose replies are lost is not active, and the iterator comes
to all inodes. -/
def Event.Enabled (m : Mds) (c : MDCache) : Event → Prop
  | .openIno _ _ _ _ _ => True
  | .fetched ino _ _ _ => .fetch ino ∈ c.pending
  | .traversed ino ret _ _ => .traverse ino ∈ c.pending ∧ 0 ≤ ret
  | .replied ino source _ _ _ => .reply ino source ∈ c.pending
  | .ran _ _ _ => True
  | .failed who visited => 0 ≤ who ∧ who ≠ m.nodeid ∧ who ∉ m.active ∧ ∀ j, c.openingInodes[j]? ≠ none → j ∈ visited
  | .up who visited => 0 ≤ who ∧ who ≠ m.nodeid ∧ KickOk m who c visited

instance decidableKickOk : ∀ (c : MDCache) (visited : List ℕ), Decidable (KickOk m who c visited)
  | _, [] => .isTrue trivial
  | c, i :: rest =>
    have (c' : MDCache) : Decidable (KickOk m who c' rest) := decidableKickOk c' rest
    decidable_of_iff (.reply i who ∉ c.pending ∧ ∀ c' ∈ (kickOpenIno m who c i).toOption, KickOk m who c' rest)
      (by simp only [KickOk, Option.mem_def, toOption_eq_some])

theorem opening_subset_iff {visited : List ℕ} :
    (∀ j ∈ c.openingInodes.keys, j ∈ visited) ↔ ∀ j, c.openingInodes[j]? ≠ none → j ∈ visited := by
  refine forall_congr' fun j => imp_congr_left ?_
  rw [Std.ExtTreeMap.mem_keys, Std.ExtTreeMap.mem_iff_isSome_getElem?, Option.isSome_iff_ne_none]

instance : ∀ e : Event, Decidable (e.Enabled m c)
  | .openIno _ _ _ _ _ => .isTrue trivial
  | .fetched _ _ _ _ => inferInstanceAs (Decidable (_ ∈ _))
  | .traversed _ _ _ _ => inferInstanceAs (Decidable (_ ∧ _))
  | .replied _ _ _ _ _ => inferInstanceAs (Decidable (_ ∈ _))
  | .ran _ _ _ => .isTrue trivial
  | .failed _ _ => decidable_of_iff _ (and_congr_right' (and_congr_right' (and_congr_right' opening_subset_iff)))
  | .up _ _ => inferInstanceAs (Decidable (_ ∧ _ ∧ _))

/-- The context that an event gives to `open_ino`. -/
def Event.fins : Event → Multiset ℕ
  | .openIno _ _ fin _ _ => {fin}
  | _ => 0

/-- The first context of the queue is run. -/
theorem runQueued_ok (h : Sound m.nodeid c) (found : Option Rank) (t : Traversal) (checkedRank : Rank) :
    ∃ c', c.runQueued m found t checkedRank = .ok c' ∧ Sound m.nodeid c' ∧ c'.fins = c.fins := by
  rw [runQueued]
  cases hq : c.queue with
  | nil => exact ⟨c, rfl, h, rfl⟩
  | cons x rest =>
    obtain ⟨w, ret⟩ := x
    set c₁ : MDCache := { c with queue := rest } with hc₁
    have hwaits : c.waits = w ::ₘ c₁.waits := by
      rw [waits, hq]
      show total _ c.openingInodes + ((w :: rest.map Prod.fst : List Waiter) : Multiset Waiter) =
        w ::ₘ (total _ c.openingInodes + (rest.map Prod.fst : Multiset Waiter))
      rw [← Multiset.cons_coe, Multiset.add_cons]
    have hout (j : ℕ) : c.out j = w.items j + c₁.out j := out_of_waits hwaits rfl j
    have hfins := fins_of_waits hwaits rfl
    cases w with
    | fin n =>
      refine ⟨_, rfl, fun j => ?_, ?_⟩
      · have := h j
        rw [hout, Waiter.items, if_neg (by simp), zero_add] at this
        exact this
      · have hlast : ((c.finished ++ [(n, ret)]).map Prod.fst : Multiset ℕ) =
            {n} + (c.finished.map Prod.fst : Multiset ℕ) := by
          rw [List.map_append, ← Multiset.coe_add, add_comm]
          rfl
        rw [hfins]
        show c₁.waits.filterMap _ + ((c.finished ++ [(n, ret)]).map Prod.fst : Multiset ℕ) =
          {n} + (c₁.waits.filterMap _ + (c.finished.map Prod.fst : Multiset ℕ))
        rw [hlast, add_left_comm]
    | parentOpened i =>
      have hi : c.out i = {.parent} + c₁.out i := by rw [hout, Waiter.items, if_pos rfl]
      have hj (j : ℕ) (hne : j ≠ i) : c.out j = c₁.out j := by
        rw [hout, Waiter.items, if_neg (fun heq => hne (Waiter.parentOpened.inj heq).symm), zero_add]
      obtain ⟨info, hready, hf⟩ := ready_of_out h hi hj rfl
      obtain ⟨hc, hg⟩ : info.checking = m.nodeid ∧ info.Grounded := by
        generalize ho : ({.parent} : Multiset Item) = o at hf
        cases hf with
        | waits _ _ => simp at ho
        | asks _ _ _ => simp at ho
        | fetches _ => simp at ho
        | traverses _ _ => simp at ho
        | opensParent hc hg => exact ⟨hc, hg⟩
      obtain ⟨c', hok, hd⟩ := openInoParentOpened_ok hready hc hg ret found t checkedRank
      exact ⟨c', hok, hd.sound, by rw [hd.turn.fins, hfins]; exact (zero_add _).symm⟩

/-- A rank fails. -/
theorem failed_ok (h : Sound m.nodeid c) (hme : 0 ≤ m.nodeid) (hwho : 0 ≤ who) (hne : who ≠ m.nodeid)
    (hact : who ∉ m.active) {visited : List ℕ} (hall : ∀ j, c.openingInodes[j]? ≠ none → j ∈ visited) :
    ∃ c', (c.loseReplies who).kickOpenInoPeers m who visited = .ok c' ∧ Sound m.nodeid c' ∧ c'.fins = c.fins := by
  set lost : ℕ → Prop := fun j => c.openingInodes[j]? ≠ none with hlost
  have hno : ∀ j, .reply who ∉ (c.loseReplies who).out j := by
    intro j hr
    rw [out_loseReplies, Multiset.mem_filter] at hr
    exact hr.2 rfl
  have hlose : AllHold m.nodeid who lost (c.loseReplies who) := by
    intro j
    obtain ⟨hnone, hsome⟩ := h j
    rw [out_loseReplies]
    show Holds m.nodeid who (lost j) c.openingInodes[j]? _
    cases hentry : c.openingInodes[j]? with
    | none =>
      rw [hnone hentry]
      rfl
    | some info =>
      have hl : lost j := by rw [hlost]; simp [hentry]
      have hf := hsome info hentry
      generalize c.out j = o at hf
      cases hf with
      | waits hc hidle => exact .inl (.waits hc hidle)
      | @asks peer hc hp hidle =>
        by_cases heq : peer = who
        · exact .inr ⟨hl, hc.trans heq, hidle, by rw [heq, Multiset.filter_singleton, if_neg (fun h => h rfl)]; rfl⟩
        · have hkeep : ({.reply peer} : Multiset Item).filter (· ≠ .reply who) = {.reply peer} := by
            rw [Multiset.filter_singleton, if_pos (fun he => heq (Item.reply.inj he))]
          exact .inl (hkeep.symm ▸ .asks hc hp hidle)
      | fetches hc => exact .inl (.fetches hc)
      | traverses hc hg => exact .inl (.traverses hc hg)
      | opensParent hc hg => exact .inl (.opensParent hc hg)
  obtain ⟨c', hok, hall', hfins⟩ := kick_ok hlose hwho hme hne (kickOk_of_inactive hlose hwho hme hne hact hno visited)
  refine ⟨c', hok, sound_iff.mpr fun j => Holds.mono (hall' j) fun hl => hl.1 (hall j hl.2), hfins⟩

/-- Every event that is possible keeps the state sound, and its assertions hold. -/
theorem step_ok (h : Sound m.nodeid c) (hme : 0 ≤ m.nodeid) {e : Event} (he : e.Enabled m c) :
    ∃ c', c.step m e = .ok c' ∧ Sound m.nodeid c' ∧ c'.fins = e.fins + c.fins := by
  have hdone {c₁ c' : MDCache} {i : ℕ} (hd : Done m.nodeid 0 (fun _ => False) m i c₁ c') (hf : c₁.fins = c.fins) :
      Sound m.nodeid c' ∧ c'.fins = 0 + c.fins := ⟨hd.sound, by rw [hd.turn.fins, hf, zero_add]⟩
  cases e with
  | openIno ino pool fin wantReplica wantXlocked =>
    have hall (k : ℕ) : Holds m.nodeid 0 False c.openingInodes[k]? ((Waiter.fin fin).items k + c.out k) := by
      rw [Waiter.items, if_neg (by simp), zero_add]
      exact sound_iff.mp h k
    obtain ⟨c', hok, hall', ho⟩ := openIno_ok hall 5 ino pool wantReplica wantXlocked
    exact ⟨c', hok, sound_iff.mpr hall', ho.fins⟩
  | fetched ino bt found t =>
    obtain ⟨info, hready, hf⟩ := ready_of_pending h he (if_pos rfl) fun j hj => if_neg (Ne.symm hj)
    have hc : info.checking = m.nodeid := by
      generalize ho : ({.fetch} : Multiset Item) = o at hf
      cases hf with
      | waits _ _ => simp at ho
      | asks _ _ _ => simp at ho
      | fetches hc => exact hc
      | traverses _ _ => simp at ho
      | opensParent _ _ => simp at ho
    obtain ⟨c', hok, hd⟩ := openInoBacktraceFetched_ok hready hc bt found t
    exact ⟨c', hok, hdone hd rfl⟩
  | traversed ino ret found t =>
    obtain ⟨info, hready, hf⟩ := ready_of_pending h he.1 (if_pos rfl) fun j hj => if_neg (Ne.symm hj)
    obtain ⟨hc, hg⟩ : info.checking = m.nodeid ∧ info.Grounded := by
      generalize ho : ({.traverse} : Multiset Item) = o at hf
      cases hf with
      | waits _ _ => simp at ho
      | asks _ _ _ => simp at ho
      | fetches _ => simp at ho
      | traverses hc hg => exact ⟨hc, hg⟩
      | opensParent _ _ => simp at ho
    obtain ⟨c', hok, hd⟩ := openInoTraverseDir_ok hready hc hg ret found t
    have hcontains : c.openingInodes.contains ino = true := by
      rw [Std.ExtTreeMap.contains_iff_mem, ← Std.ExtTreeMap.isSome_getElem?_iff_mem]
      exact Option.isSome_iff_exists.mpr ⟨info, hready.entry⟩
    exact ⟨c', bind_ok.mpr ⟨(), assert_ok.mpr hcontains, bind_ok.mpr ⟨(), assert_ok.mpr (decide_eq_true he.2), hok⟩⟩,
      hdone hd rfl⟩
  | replied ino source r found t =>
    obtain ⟨info, hready, hf⟩ := ready_of_pending h he (if_pos rfl) fun j hj => if_neg (Ne.symm hj)
    obtain ⟨hc, hidle⟩ : info.checking = source ∧ info.Idle := by
      generalize ho : ({.reply source} : Multiset Item) = o at hf
      cases hf with
      | waits _ _ => simp at ho
      | asks hc _ hidle =>
        rw [Multiset.singleton_inj, Item.reply.injEq] at ho
        exact ⟨hc.trans ho.symm, hidle⟩
      | fetches _ => simp at ho
      | traverses _ _ => simp at ho
      | opensParent _ _ => simp at ho
    obtain ⟨c', hok, hd⟩ := handleOpenInoReply_ok hready hc hidle r found t
    exact ⟨c', hok, hdone hd rfl⟩
  | ran found t checkedRank =>
    obtain ⟨c', hok, hs, hf⟩ := runQueued_ok h found t checkedRank
    exact ⟨c', hok, hs, hf.trans (zero_add _).symm⟩
  | failed who visited =>
    obtain ⟨hwho, hne, hact, hall⟩ := he
    obtain ⟨c', hok, hs, hf⟩ := failed_ok h hme hwho hne hact hall
    exact ⟨c', hok, hs, hf.trans (zero_add _).symm⟩
  | up who visited =>
    obtain ⟨hwho, hne, hk⟩ := he
    obtain ⟨c', hok, hall, hf⟩ := kick_ok (sound_iff.mp h) hwho hme hne hk
    exact ⟨c', hok, sound_iff.mpr fun j => Holds.mono (hall j) And.right, hf.trans (zero_add _).symm⟩

/-- The states of a run, with the contexts that were given to `open_ino`. -/
inductive Reaches (me : Rank) : MDCache → Multiset ℕ → Prop
  | init : Reaches me .new 0
  | step {m : Mds} {c c' : MDCache} {given : Multiset ℕ} {e : Event} : Reaches me c given → m.nodeid = me →
      e.Enabled m c → c.step m e = .ok c' → Reaches me c' (e.fins + given)

/-- In every run each inode that is being opened has one thing outstanding or waits for peers, every
context is on an entry, in the queue or finished, once, and no assertion fails next. -/
theorem reaches_sound {given : Multiset ℕ} (hme : 0 ≤ me) (h : Reaches me c given) : Sound me c ∧ c.fins = given ∧
    ∀ (m : Mds) (e : Event), m.nodeid = me → e.Enabled m c → ∃ c', c.step m e = .ok c' := by
  have hboth : Sound me c ∧ c.fins = given := by
    induction h with
    | init => exact ⟨fun j => ⟨fun _ => rfl, fun info hinfo => by simp [MDCache.new] at hinfo⟩, rfl⟩
    | step _ hm he hok ih =>
      subst hm
      obtain ⟨c', hok', hs, hf⟩ := step_ok ih.1 hme he
      have heq := Except.ok.inj (hok'.symm.trans hok)
      exact heq ▸ ⟨hs, by rw [hf, ih.2]⟩
  refine ⟨hboth.1, hboth.2, fun m e hm he => ?_⟩
  subst hm
  obtain ⟨c', hok, -⟩ := step_ok hboth.1 hme he
  exact ⟨c', hok⟩

/-- The next state, when no assertion fails. -/
def next (c : MDCache) (p : Mds × Event) : Option MDCache := (c.step p.1 p.2).toOption

theorem Reaches.run {given : Multiset ℕ} {es : List (Mds × Event)} (h : Reaches me c given)
    (hok : Meets next (fun c p => p.1.nodeid = me ∧ p.2.Enabled p.1 c) c es)
    (hrun : CephMds.run next c es = some c') :
    Reaches me c' (es.foldl (fun given p => p.2.fins + given) given) := by
  induction es generalizing c given with
  | nil => exact Option.some.inj hrun ▸ h
  | cons p es ih =>
    obtain ⟨c₁, hstep, hrest⟩ := run_cons.mp hrun
    exact ih (.step h hok.1.1 hok.1.2 (toOption_eq_some.mp hstep)) (hok.2 c₁ hstep) hrest

/-- Two ranks, of which both are active. -/
def sampleMds : Mds := ⟨0, {0, 1}, {0, 1}, 1, 2⟩

/-- The other rank is asked in vain, the backtrace is fetched, the rank fails when it is asked again, and the
directory above is opened first. -/
def sampleRun : List (Mds × Event) :=
  let alone : Mds := { sampleMds with all := {0}, active := {0} }
  [(sampleMds, .openIno 5 (-1) 7 true false),
    (sampleMds, .replied 5 1 ⟨[], -1, 0⟩ none .waits),
    (sampleMds, .fetched 5 (.ok ⟨2, [⟨9, [], 1⟩]⟩) none (.done 0 none)),
    (alone, .failed 1 [5]),
    (alone, .fetched 9 (.error (-enoent)) (some 0) .waits),
    (alone, .ran (some 0) .waits 0),
    (alone, .ran none .waits 0)]

theorem reaches_sound_sample : ∃ c, Reaches 0 c {7} ∧ Sound 0 c ∧ c.fins = {7} ∧ c.finished = [(7, 0)] := by
  have hrun : (run next .new sampleRun).map (·.finished) = some [(7, 0)] := by decide +kernel
  obtain ⟨c, hc, hfin⟩ := Option.map_eq_some_iff.mp hrun
  have hreach : Reaches 0 c {7} := Reaches.init.run (by decide +kernel) hc
  exact ⟨c, hreach, (reaches_sound le_rfl hreach).1, (reaches_sound le_rfl hreach).2.1, hfin⟩

/-! ## A rank that is asked twice -/

/-- One if the inode waits for peers. -/
def waiting (c : MDCache) (i : ℕ) : ℕ :=
  match c.openingInodes[i]? with
  | some info => if info.checking = mdsRankNone then 1 else 0
  | none => 0

/-- What is outstanding, and the waiting itself. -/
def weight (c : MDCache) (i : ℕ) : ℕ := (c.out i).card + c.waiting i

theorem waiting_le (c : MDCache) (i : ℕ) : c.waiting i ≤ 1 := by
  rw [waiting]
  split
  · split <;> omega
  · omega

theorem weight_of_sound (h : Sound me c) (hme : 0 ≤ me) (i : ℕ) : c.weight i ≤ 1 := by
  obtain ⟨hnone, hsome⟩ := h i
  rw [weight, waiting]
  cases hentry : c.openingInodes[i]? with
  | none => rw [hnone hentry]; simp
  | some info =>
    have hf := hsome info hentry
    have hpos {r : Rank} (hr : 0 ≤ r) : r ≠ mdsRankNone := fun heq => absurd (heq ▸ hr) (by decide)
    generalize c.out i = o at hf
    dsimp only
    cases hf with
    | waits hc _ => rw [if_pos hc]; simp
    | asks hc hp _ => rw [if_neg (hc ▸ hpos hp)]; simp
    | fetches hc => rw [if_neg (hc ▸ hpos hme)]; simp
    | traverses hc _ => rw [if_neg (hc ▸ hpos hme)]; simp
    | opensParent hc _ => rw [if_neg (hc ▸ hpos hme)]; simp

/-- An entry that is changed: all others keep their weight. -/
theorem weight_setInfo (h : c.openingInodes[i]? = some info) (hw : info'.waiters = info.waiters) (k : ℕ) :
    (c.setInfo i info').weight k =
      if k = i then (c.out i).card + (if info'.checking = mdsRankNone then 1 else 0) else c.weight k := by
  by_cases heq : k = i
  · rw [weight, waiting, out_setInfo h hw, getElem?_setInfo, if_pos heq, if_pos heq, heq]
  · rw [weight, waiting, out_setInfo h hw, getElem?_setInfo, if_neg heq, if_neg heq]
    rfl

theorem le_weight_started (h : c.openingInodes[i]? = some info) (hw : info'.waiters = info.waiters)
    {p : Pending} {it : Item} (hp : p.itemOf i = some it) (k : ℕ) : c.weight k ≤ ((c.setInfo i info').addPending p).weight k := by
  have hout : ((c.setInfo i info').addPending p).out k = (p.itemOf k).elim 0 (fun it => {it}) + c.out k := by
    rw [out_addPending, out_setInfo h hw]
  by_cases heq : k = i
  · subst heq
    have hle := waiting_le c k
    rw [weight, weight, hout, hp]
    show _ ≤ (({it} : Multiset Item) + c.out k).card + _
    rw [Multiset.card_add, Multiset.card_singleton]
    omega
  · have hwait : ((c.setInfo i info').addPending p).waiting k = c.waiting k := by
      rw [waiting, waiting]
      show (match (c.setInfo i info').openingInodes[k]? with | some info => _ | none => _) = _
      rw [getElem?_setInfo, if_neg heq]
    rw [weight, weight, hout, hwait, Multiset.card_add]
    omega

/-- An entry that waits now, or did not before. -/
theorem le_weight_setInfo (h : c.openingInodes[i]? = some info) (hw : info'.waiters = info.waiters)
    (hc : info.checking = mdsRankNone → info'.checking = mdsRankNone) (k : ℕ) :
    c.weight k ≤ (c.setInfo i info').weight k := by
  rw [weight_setInfo h hw]
  split
  · rename_i heq
    subst heq
    rw [weight, waiting, h]
    dsimp only
    by_cases hwait : info.checking = mdsRankNone
    · rw [if_pos hwait, if_pos (hc hwait)]
    · rw [if_neg hwait]
      omega
  · exact le_rfl

/-- A waiter more on an entry, or on a new one. -/
theorem weight_of_waits {w : Waiter} (hw : c'.waits = w ::ₘ c.waits) (hp : c'.pending = c.pending) (k : ℕ)
    (hwait : c.waiting k ≤ c'.waiting k) : c.weight k + (w.items k).card ≤ c'.weight k := by
  rw [weight, weight, out_of_waits hw hp, Multiset.card_add]
  omega

/-- Nothing that is outstanding is forgotten: `do_open_ino`. -/
theorem le_weight_doOpenIno {n : ℕ}
    (hpeer : ∀ c i c', doOpenInoPeer n m c i = .ok c' → ∀ k, c.weight k ≤ c'.weight k)
    (hopen : ∀ c j pool w a b c', openIno n m c j pool w a b = .ok c' →
      ∀ k, c.weight k + (w.items k).card ≤ c'.weight k)
    (h : doOpenIno (n + 1) m c i err = .ok c') (k : ℕ) : c.weight k ≤ c'.weight k := by
  cases hentry : c.openingInodes[i]? with
  | none =>
    simp only [doOpenIno, hentry] at h
    cases h
  | some info =>
    cases hcp : (entered m info err).checkPeers with
    | true =>
      have hw : (asking m info err).waiters = info.waiters := entered_waiters m info err
      rw [doOpenIno_peers hentry hcp] at h
      exact (le_weight_setInfo hentry hw (fun _ => rfl) k).trans (hpeer _ _ _ h k)
    | false =>
      obtain ⟨herr, hcp'⟩ := entered_of_no_peers hcp
      cases hf : info.fetchBacktrace with
      | true =>
        rw [doOpenIno_fetch hentry herr hcp' hf, Except.ok.injEq] at h
        have hitem : (Pending.fetch i).itemOf i = some .fetch := if_pos rfl
        rw [← h]
        refine le_weight_started hentry ?_ hitem k
        rfl
      | false =>
        cases hparent : info.ancestors with
        | nil =>
          rw [doOpenIno_stuck hentry herr hcp' hf hparent] at h
          cases h
        | cons parent rest =>
          rw [doOpenIno_parent hentry herr hcp' hf hparent] at h
          have hle := hopen _ _ _ _ _ _ _ h k
          have hw : ({ info with checking := m.nodeid } : OpenInoInfo).waiters = info.waiters := rfl
          rw [weight_setInfo hentry hw] at hle
          refine le_trans ?_ hle
          have hwait := waiting_le c k
          by_cases heq : k = i
          · subst heq
            rw [if_pos rfl, weight, Waiter.items, if_pos rfl, Multiset.card_singleton]
            omega
          · rw [if_neg heq]
            omega

/-- `do_open_ino_peer`. -/
theorem le_weight_doOpenInoPeer {n : ℕ}
    (hnext : ∀ c i err c', doOpenIno n m c i err = .ok c' → ∀ k, c.weight k ≤ c'.weight k)
    (h : doOpenInoPeer (n + 1) m c i = .ok c') (k : ℕ) : c.weight k ≤ c'.weight k := by
  cases hentry : c.openingInodes[i]? with
  | none =>
    simp only [doOpenInoPeer, hentry] at h
    cases h
  | some info =>
    simp only [doOpenInoPeer, hentry, deref_some_bind] at h
    split at h
    · split at h
      · rw [pure_ok] at h
        rw [h]
      · exact hnext _ _ _ _ h k
    · have hitem : (Pending.reply i (info.choosePeer m).1).itemOf i = some (.reply (info.choosePeer m).1) := if_pos rfl
      rw [pure_ok] at h
      rw [← h]
      refine le_weight_started hentry ?_ hitem k
      rfl

/-- `open_ino`. -/
theorem le_weight_openIno {n : ℕ} {j : ℕ} {pool : ℤ} {w : Waiter} {wantReplica wantXlocked : Bool}
    (hnext : ∀ c i err c', doOpenIno n m c i err = .ok c' → ∀ k, c.weight k ≤ c'.weight k)
    (h : openIno (n + 1) m c j pool w wantReplica wantXlocked = .ok c') (k : ℕ) :
    c.weight k + (w.items k).card ≤ c'.weight k := by
  cases hj : c.openingInodes[j]? with
  | some info =>
    simp only [openIno, hj, pure_ok] at h
    subst h
    refine weight_of_waits (waits_addWaiter hj rfl) rfl k ?_
    by_cases heq : k = j
    · subst heq
      rw [waiting, waiting, getElem?_setInfo, if_pos rfl, hj]
    · rw [waiting, waiting, getElem?_setInfo, if_neg heq]
  | none =>
    simp only [openIno, hj] at h
    refine le_trans (weight_of_waits ?_ ?_ k ?_) (hnext _ _ _ _ h k)
    · show (c.setInfo j (.new m (c.lastTid + 1) pool w wantReplica wantXlocked)).waits = _
      rw [waits_setInfo_new hj, add_comm]
      rfl
    · rfl
    · rw [waiting, waiting]
      show _ ≤ (match (c.setInfo j (.new m (c.lastTid + 1) pool w wantReplica wantXlocked)).openingInodes[k]? with
        | some info => _
        | none => _)
      rw [getElem?_setInfo]
      by_cases heq : k = j
      · rw [heq, hj]
        exact Nat.zero_le _
      · rw [if_neg heq]

theorem le_weight (m : Mds) (n : ℕ) :
    (∀ c i err c', doOpenIno n m c i err = .ok c' → ∀ k, c.weight k ≤ c'.weight k) ∧
    (∀ c i c', doOpenInoPeer n m c i = .ok c' → ∀ k, c.weight k ≤ c'.weight k) ∧
    (∀ c j pool w a b c', openIno n m c j pool w a b = .ok c' → ∀ k, c.weight k + (w.items k).card ≤ c'.weight k) := by
  induction n with
  | zero =>
    refine ⟨?_, ?_, ?_⟩
    · intro c i err c' h
      cases h
    · intro c i c' h
      cases h
    · intro c j pool w a b c' h
      cases h
  | succ n ih =>
    obtain ⟨ih₁, ih₂, ih₃⟩ := ih
    exact ⟨fun c i err c' h => le_weight_doOpenIno ih₂ ih₃ h, fun c i c' h => le_weight_doOpenInoPeer ih₁ h,
      fun c j pool w a b c' h => le_weight_openIno ih₁ h⟩

/-- The iteration of `kick_open_ino_peers` forgets nothing. -/
theorem le_weight_kickOpenIno (h : kickOpenIno m who c i = .ok c') (k : ℕ) : c.weight k ≤ c'.weight k := by
  rw [kickOpenIno] at h
  cases hentry : c.openingInodes[i]? with
  | none =>
    simp only [hentry, pure_ok] at h
    rw [h]
  | some info =>
    simp only [hentry] at h
    split at h
    · have hw : ({ info with checking := mdsRankNone } : OpenInoInfo).waiters = info.waiters := rfl
      exact (le_weight_setInfo hentry hw (fun _ => rfl) k).trans ((le_weight m maxDepth).2.1 _ _ _ h k)
    · split at h
      · exact (le_weight m maxDepth).2.1 _ _ _ h k
      · rw [pure_ok] at h
        rw [h]

theorem le_weight_kickOpenInoPeers {visited : List ℕ} (h : c.kickOpenInoPeers m who visited = .ok c') (k : ℕ) :
    c.weight k ≤ c'.weight k := by
  induction visited generalizing c with
  | nil => rw [Except.ok.inj h]
  | cons i rest ih =>
    rw [kickOpenInoPeers, List.foldlM_cons] at h
    obtain ⟨c₁, hhead, hrest⟩ := bind_ok.mp h
    exact (le_weight_kickOpenIno hhead k).trans (ih hrest)

/-- The message that is outstanding is no longer waited for, and another is sent. -/
theorem weight_of_kick (h : AllHold me who (fun _ => False) c) (hr : .reply who ∈ c.out i)
    (hok : kickOpenIno m who c i = .ok c') : 2 ≤ c'.weight i := by
  have hi := sound_iff.mpr h i
  cases hentry : c.openingInodes[i]? with
  | none =>
    rw [hi.1 hentry] at hr
    exact absurd hr (Multiset.notMem_zero _)
  | some info =>
    have hf := hi.2 info hentry
    have hcard : (c.out i).card = 1 := by rw [eq_singleton_of_fine hf hr, Multiset.card_singleton]
    have hc : info.checking = who := by
      generalize c.out i = o at hf hr
      cases hf with
      | waits _ _ => exact absurd hr (Multiset.notMem_zero _)
      | asks hcheck _ _ => exact hcheck.trans (Item.reply.inj (Multiset.mem_singleton.mp hr)).symm
      | fetches _ => cases Multiset.mem_singleton.mp hr
      | traverses _ _ => cases Multiset.mem_singleton.mp hr
      | opensParent _ _ => cases Multiset.mem_singleton.mp hr
    have hw : ({ info with checking := mdsRankNone } : OpenInoInfo).waiters = info.waiters := rfl
    simp only [kickOpenIno, hentry, if_pos hc] at hok
    have hle := (le_weight m maxDepth).2.1 _ _ _ hok i
    rw [weight_setInfo hentry hw, if_pos rfl, if_pos rfl, hcard] at hle
    exact hle

theorem kickOk_of_weight (h : AllHold m.nodeid who (fun _ => False) c) (hwho : 0 ≤ who) (hme : 0 ≤ m.nodeid)
    (hne : who ≠ m.nodeid) {visited : List ℕ} (hok : c.kickOpenInoPeers m who visited = .ok c')
    (hle : ∀ k, c'.weight k ≤ 1) : KickOk m who c visited := by
  induction visited generalizing c with
  | nil => exact trivial
  | cons i rest ih =>
    rw [kickOpenInoPeers, List.foldlM_cons] at hok
    obtain ⟨c₁, hhead, hrest⟩ := bind_ok.mp hok
    have hno : .reply who ∉ c.out i := by
      intro hr
      have hlow := weight_of_kick h hr hhead
      have hup := (le_weight_kickOpenInoPeers hrest i).trans (hle i)
      omega
    refine ⟨fun hp => hno (reply_mem_out.mpr hp), fun c₂ hok₂ => ?_⟩
    obtain ⟨c₃, hok₃, hd⟩ := kickOpenIno_ok h hno hwho hme hne
    have heq₁ : c₃ = c₁ := Except.ok.inj (hok₃.symm.trans hhead)
    have heq₂ : c₁ = c₂ := Except.ok.inj (hhead.symm.trans hok₂)
    rw [← heq₂]
    exact ih (sound_iff.mp (heq₁ ▸ hd.sound)) hrest

/-- Exactly the kick that comes to no inode with a message to the rank outstanding keeps one thing
outstanding for each inode. After any other, an inode has two things outstanding, or one and waits for
peers nevertheless. -/
theorem kick_sound_iff (h : Sound m.nodeid c) (hwho : 0 ≤ who) (hme : 0 ≤ m.nodeid) (hne : who ≠ m.nodeid)
    (visited : List ℕ) :
    ((∃ c', c.kickOpenInoPeers m who visited = .ok c' ∧ Sound m.nodeid c') ↔ KickOk m who c visited) ∧
      (¬ KickOk m who c visited → ∀ c', c.kickOpenInoPeers m who visited = .ok c' → ∃ i, 2 ≤ c'.weight i) := by
  have hall : AllHold m.nodeid who (fun _ => False) c := sound_iff.mp h
  refine ⟨⟨?_, fun hk => ?_⟩, fun hk c' hok => ?_⟩
  · rintro ⟨c', hok, hs⟩
    exact kickOk_of_weight hall hwho hme hne hok (weight_of_sound hs hme)
  · obtain ⟨c', hok, hall', -⟩ := kick_ok hall hwho hme hne hk
    exact ⟨c', hok, sound_iff.mpr fun j => Holds.mono (hall' j) And.right⟩
  · by_contra hno
    refine hk (kickOk_of_weight hall hwho hme hne hok fun k => ?_)
    have hlt : ¬ 2 ≤ c'.weight k := fun hle => hno ⟨k, hle⟩
    omega

/-- The rank 1 is asked for the inode 5. -/
def sampleInfo : OpenInoInfo :=
  { OpenInoInfo.new sampleMds 1 (-1) (.fin 7) true false with checkPeers := false, checking := 1 }

def sampleAsked : MDCache := (MDCache.new.setInfo 5 sampleInfo).addPending (.reply 5 1)

theorem sound_sampleAsked : Sound 0 sampleAsked := by
  have hfresh : MDCache.new.openingInodes[5]? = none := by simp [MDCache.new]
  have hwaits : (MDCache.new.setInfo 5 sampleInfo).waits = Waiter.fin 7 ::ₘ MDCache.new.waits := by
    rw [waits_setInfo_new hfresh, add_comm]
    rfl
  have hout (k : ℕ) : sampleAsked.out k = if k = 5 then {.reply 1} else 0 := by
    rw [sampleAsked, out_addPending, out_of_waits hwaits rfl]
    by_cases heq : k = 5
    · rw [heq]
      rfl
    · rw [if_neg heq, Pending.itemOf, if_neg (Ne.symm heq)]
      rfl
  have hget (k : ℕ) : sampleAsked.openingInodes[k]? = if k = 5 then some sampleInfo else none := by
    rw [show sampleAsked.openingInodes = (MDCache.new.setInfo 5 sampleInfo).openingInodes from rfl, getElem?_setInfo]
    simp [MDCache.new]
  intro k
  rw [hget, hout]
  split
  · refine ⟨fun h => absurd h (Option.some_ne_none sampleInfo), fun info h => ?_⟩
    rw [← Option.some.inj h]
    exact .asks rfl (by decide) ⟨rfl, .inl rfl⟩
  · exact ⟨fun _ => rfl, fun info h => absurd h.symm (Option.some_ne_none info)⟩

/-- A kick for a rank that has been asked. -/
theorem kick_sound_sample :
    Sound 0 sampleAsked ∧ (¬∃ c', sampleAsked.kickOpenInoPeers sampleMds 1 [5] = .ok c' ∧ Sound 0 c') ∧
      ∃ c', sampleAsked.kickOpenInoPeers sampleMds 1 [5] = .ok c' ∧ ∃ i, 2 ≤ c'.weight i := by
  obtain ⟨hiff, htwice⟩ := kick_sound_iff (m := sampleMds) sound_sampleAsked (show 0 ≤ 1 by decide) le_rfl (by decide) [5]
  have hno : ¬ KickOk sampleMds 1 sampleAsked [5] := fun hk => hk.1 (by decide)
  have hsome : (sampleAsked.kickOpenInoPeers sampleMds 1 [5]).toOption.isSome = true := by decide +kernel
  obtain ⟨c', hc'⟩ := Option.isSome_iff_exists.mp hsome
  have hok : sampleAsked.kickOpenInoPeers sampleMds 1 [5] = .ok c' := toOption_eq_some.mp hc'
  exact ⟨sound_sampleAsked, fun h => hno (hiff.mp h), c', hok, htwice hno c' hok⟩

end MDCache

end CephMds.OpenIno
