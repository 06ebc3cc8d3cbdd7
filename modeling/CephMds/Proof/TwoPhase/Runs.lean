import CephMds.Framework.Run
import CephMds.Proof.TwoPhase.Failures

/-!
# Runs

Every event keeps what holds between the master and its slaves, so in every run
they agree: a slave commits only what is in the journal of the master, what an
update names is not rolled back, and an update is closed when all that it names
have committed.
-/

namespace CephMds.TwoPhase

open Checked Slave Writes

variable {n : ℕ} {m : Master n} {i who : Fin n} {s s' : Slave} {slaves : Fin n → Slave} {ins : Fin n → List ToSlave}
  {outs : Fin n → List ToMaster} {c c' : System n} {e : Event n}

/-! ## A single slave -/

/-- A slave changes, and its messages. -/
theorem Linked.slave {inbox : List ToSlave} {outbox : List ToMaster} (h : Linked m slaves ins outs)
    (hl : Link m who s inbox outbox) : Linked m (Function.update slaves who s) (Function.update ins who inbox)
      (Function.update outs who outbox) where
  ok := h.ok
  link i := by
    by_cases hi : i = who
    · subst hi
      rw [Function.update_self, Function.update_self, Function.update_self]
      exact hl
    · rw [Function.update_of_ne hi, Function.update_of_ne hi, Function.update_of_ne hi]
      exact h.link i

namespace System

/-- What holds of the system. -/
def Sound (c : System n) : Prop := Linked c.master c.slaves c.toSlave c.toMaster

theorem Sound.setSlave {inbox : List ToSlave} {p : Slave × List ToMaster} (h : c.Sound)
    (hl : Link c.master who p.1 inbox (if c.master.state = .down then c.toMaster who else c.toMaster who ++ p.2)) :
    ({ c with toSlave := Function.update c.toSlave who inbox }.setSlave who p).Sound := by
  have hslave := Linked.slave h hl
  unfold Sound System.setSlave
  split
  case isTrue hd =>
    rw [if_pos hd, Function.update_eq_self] at hslave
    exact hslave
  case isFalse hd =>
    rw [if_neg hd] at hslave
    exact hslave

/-! ## Steps -/

theorem Sound.init : (System.init : System n).Sound where
  ok :=
    { down := fun hd => by cases hd
      safe := fun r u hu => by simp [System.init, Master.new] at hu
      requests := fun _ => rfl
      fresh := fun r mdr hmdr => by simp [System.init, Master.new] at hmdr
      disjoint := fun r mdr hmdr => by simp [System.init, Master.new] at hmdr
      waiting := fun p hp => by cases hp
      delayed := fun i l hl => by simp [System.init, Master.new] at hl
      known := fun r u hu => by simp [System.init, Master.new] at hu }
  link i := by
    have hbound : ∀ r, ¬ (System.init : System n).master.Bound i r := by
      rintro r ⟨W, he, -⟩
      cases he
    have hreq : ∀ r : ℕ, (System.init : System n).master.activeRequests[r]? = none := fun r =>
      Std.ExtTreeMap.getElem?_empty
    have hview : ∀ r, (Slave.new .active []).view r = ⟨.active, [], [], none, False, False⟩ :=
        fun r => view_new .active [] r
    have hno : ∀ r, ¬ ((Slave.new .active []).view r).Listed .active := fun r =>
      View.not_listed rfl (by simp)
    refine ⟨fun r => ?_, rfl, (by simp [System.init, Slave.new]), fun hd => (by cases hd), fun _ => ⟨rfl, rfl⟩,
      fun hd => (by cases hd), fun _ r hl => (hno r hl).elim, fun hm => (by cases hm),
      fun _ _ => ⟨(by simp [System.init, Master.new]), rfl⟩, fun msg hmem => (by cases hmem), fun msg hget => ?_⟩
    · show LinkAt _ i r 0 0 ((Slave.new .active []).view r)
      rw [hview]
      exact
        { idle := fun _ => rfl
          durable := fun hmem => by cases hmem
          kept := fun hk => by
            rcases hk with hb | ⟨mdr, hmdr, -⟩ | hpos
            · exact (hbound r hb).elim
            · cases (hreq r).symm.trans hmdr
            · simp at hpos
          active := fun _ => rfl
          single := by simp
          asked := fun _ => by simp
          waits := fun _ hpos => by simp at hpos
          ends := fun hmem => by cases hmem
          accounted := fun _ hb => (hbound r hb).elim
          closed := fun _ hb => (hbound r hb).elim }
    · rcases hget with hget | hget | ⟨l, hl, -⟩
      · cases hget
      · cases hget
      · simp [System.init, Master.new] at hl

/-- Every event keeps it. -/
theorem Sound.step (h : c.Sound) (he : c.Enabled e) (hok : c.step e = .ok c') : c'.Sound := by
  cases e with
  | start r =>
    cases hok
    obtain ⟨hactive, hno, hfresh⟩ := he
    exact h.start hactive (by simpa using hno) hfresh
  | prepare r who =>
    obtain ⟨hactive, hs, mdr, hmdr, hc, hwit, hwait⟩ := he
    simp only [System.step, bind_ok, pure_ok] at hok
    obtain ⟨m', hm', rfl⟩ := hok
    exact Linked.prepare h hm' hactive hs hmdr hc hwit hwait
  | update r =>
    obtain ⟨hactive, mdr, hmdr, hc, -, hwait⟩ := he
    simp only [System.step, bind_ok, pure_ok] at hok
    obtain ⟨m', hm', rfl⟩ := hok
    exact Linked.update h hm' hactive hmdr hc hwait
  | masterLogged =>
    simp only [System.step, bind_ok, pure_ok] at hok
    obtain ⟨p, hp, rfl⟩ := hok
    exact Linked.logged h hp
  | slaveLogged who =>
    simp only [System.step, bind_ok, pure_ok] at hok
    obtain ⟨p, hp, rfl⟩ := hok
    have hset := h.setSlave ((h.link who).logged h.ok hp)
    rwa [Function.update_eq_self] at hset
  | toSlave who =>
    cases hin : c.toSlave who with
    | nil =>
      rw [System.step, hin] at hok
      cases hok
      exact h
    | cons msg rest =>
      rw [System.step, hin] at hok
      simp only [bind_ok, pure_ok] at hok
      obtain ⟨p, hp, rfl⟩ := hok
      have hlink := h.link who
      rw [hin] at hlink
      have hup := (hlink.not_down_of_mem List.mem_cons_self).1
      refine h.setSlave ?_
      rw [if_neg hup]
      cases msg with
      | request op r =>
        simp only [Slave.handle, bind_ok, pure_ok] at hp
        obtain ⟨s', hs', rfl⟩ := hp
        rw [List.append_nil]
        exact hlink.request h.ok hs'
      | resolveAck commit abort => exact hlink.resolveAck h.ok hp
  | toMaster who =>
    cases hout : c.toMaster who with
    | nil =>
      rw [System.step, hout] at hok
      cases hok
      exact h
    | cons msg rest =>
      rw [System.step, hout] at hok
      simp only [bind_ok, pure_ok] at hok
      obtain ⟨p, hp, rfl⟩ := hok
      exact Linked.handle h hout hp
  | masterFails =>
    cases hok
    exact Linked.masterFails h
  | masterReplayed =>
    cases hok
    exact Linked.masterReplayed h he.1 he.2
  | masterActive =>
    simp only [System.step, bind_ok, pure_ok] at hok
    obtain ⟨p, hp, rfl⟩ := hok
    exact Linked.activate h he hp
  | slaveFails who =>
    cases hok
    exact Linked.slaveFails h who
  | slaveReplayed who =>
    cases hok
    have hset := Linked.slave h ((h.link who).slaveReplayed h.ok he)
    rwa [Function.update_eq_self, Function.update_eq_self] at hset
  | slaveActive who =>
    obtain ⟨hs, hack, -, hgather, hm⟩ := he
    have hwait := (h.link who).waiting
    simp only [System.step, Slave.activate, hwait, List.foldlM_nil, bind_ok, pure_ok] at hok
    obtain ⟨p, rfl, rfl⟩ := hok
    have hlink : Link c.master who { c.slaves who with state := .active, waitingForReplay := [] } (c.toSlave who)
        (if c.master.state = .down then c.toMaster who else c.toMaster who ++ []) := by
      rw [List.append_nil, ite_self]
      exact (h.link who).slaveActive hs hgather hack hm
    have hset := h.setSlave (p := ({ c.slaves who with state := .active, waitingForReplay := [] }, [])) hlink
    rwa [Function.update_eq_self] at hset
  | resolving =>
    cases hok
    exact ⟨h.ok, fun i => (h.link i).sendResolves he.1 (he.2 i)⟩

/-! ## Agreement -/

/-- The master and its slaves agree. -/
structure Agrees (c : System n) : Prop where
  /-- A slave commits only what is in the journal of the master. -/
  commits : ∀ i r, ⟨.commit, r⟩ ∈ (c.slaves i).journal ++ (c.slaves i).writing → c.master.Durable r
  /-- What an update names has prepared it, and does not roll it back. -/
  keeps : ∀ i r, c.master.Bound i r →
    (((c.slaves i).view r).fate = some .prepare ∨ ((c.slaves i).view r).fate = some .commit) ∧
      ⟨.rollback, r⟩ ∉ (c.slaves i).writing
  /-- `ECommitted` is submitted when all that the update names have committed. -/
  closes : ∀ i r, c.master.Closed r → c.master.Bound i r → ((c.slaves i).view r).fate = some .commit

theorem Sound.agrees (h : c.Sound) : c.Agrees where
  commits i r hmem := by
    refine ((h.link i).linkAt r).durable ?_
    exact List.mem_append.mpr ((List.mem_append.mp hmem).imp mem_about.mpr mem_about.mpr)
  keeps i r hb := by
    have hk := ((h.link i).linkAt r).kept (.inl hb)
    refine ⟨?_, fun hmem => hk.not_rollback (mem_about.mpr hmem)⟩
    cases hk with
    | prepared hp => exact .inl hp.1
    | committing hf => exact .inl hf
    | committed hf => exact .inr hf
  closes i r hc hb := ((h.link i).linkAt r).closed hc hb

/-- The next state, when no assertion fails. -/
def next (c : System n) (e : Event n) : Option (System n) := (c.step e).toOption

/-- Two slaves prepare an update, it is written, and the master and the slave `b` fail before they hear of it. -/
def failover (a b : Fin n) : List (Event n) :=
  [.start 7, .prepare 7 a, .prepare 7 b, .toSlave a, .toSlave b, .slaveLogged a, .slaveLogged b,
    .toMaster a, .toMaster b, .update 7, .masterLogged,
    .slaveFails b, .masterFails, .masterReplayed, .slaveReplayed b, .resolving,
    .toMaster a, .toMaster b, .toSlave a, .toSlave b, .slaveLogged a, .slaveLogged b,
    .toMaster a, .toMaster a, .toMaster b, .toMaster b, .masterActive, .slaveActive b, .masterLogged]

end System

end CephMds.TwoPhase
