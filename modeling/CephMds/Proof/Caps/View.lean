import CephMds.Model.Caps

/-!
# What a message does to the caps

The ids, sequence numbers and issued bits of the caps of an inode, and which one
is the auth cap (`View`). On an inode without cap snaps (`Plain`) whose client wants
its caps (`Env.retains`), `check_caps` changes none of these, and every message acts
on the view as one function of it.
-/

namespace CephMds.Caps

open Checked Writes

variable {inode inode' : Inode} {l l' : Local} {env : Env} {mds : ℕ} {g g' : Grant} {m : Msg}

/-! ## Views -/

structure Core where
  capId : ℕ
  seq : BitVec 32
  mseq : BitVec 32
  issued : Mask

@[ext]
structure View where
  caps : ℕ → Option Core
  auth : Option ℕ

def Cap.core (cap : Cap) : Core := ⟨cap.capId, cap.seq, cap.mseq, cap.issued⟩

def Inode.seen (inode : Inode) : View := ⟨fun mds => inode.caps[mds]?.map Cap.core, inode.authCap⟩

namespace View

def set (v : View) (mds : ℕ) (c : Option Core) : View := { v with caps := Function.update v.caps mds c }

/-- `Inode.merge`. -/
def merge (v : View) (mds : ℕ) (g : Grant) : Checked Grant :=
  match v.caps mds with
  | none => pure g
  | some c =>
    if cephSeqCmp g.seq c.seq ≤ 0 then do
      assert (v.auth == some mds)
      assert (c.capId == g.capId)
      pure { g with seq := c.seq, mseq := c.mseq, issued := g.issued ∪ c.issued, auth := true }
    else pure g

/-- `add_update_cap`, after the merge with an old cap. -/
def add (v : View) (mds : ℕ) (g : Grant) : View where
  caps := Function.update v.caps mds
    (some ⟨g.capId, g.seq, g.mseq, (v.caps mds).elim ∅ Core.issued ∪ g.issued⟩)
  auth :=
    if g.auth ∧ v.auth ≠ some mds ∧
        (v.auth = none ∨ ∃ c ∈ v.auth.bind v.caps, cephSeqCmp c.mseq g.mseq < 0) then some mds
    else v.auth

/-- `remove_cap`. -/
def remove (v : View) (mds : ℕ) : View where
  caps := Function.update v.caps mds none
  auth := if v.auth = some mds then none else v.auth

/-- `handle_cap_grant`. -/
def grant (v : View) (mds : ℕ) (seq : BitVec 32) (caps : Mask) : View :=
  { v with caps := Function.update v.caps mds ((v.caps mds).map fun c => { c with seq := seq, issued := caps }) }

/-- The peer cap of an export. -/
def updatePeer (v : View) (mds : ℕ) (c t : Core) (peer : Peer) : View :=
  if t.capId ≠ peer.capId ∨ cephSeqCmp t.seq peer.seq < 0 then
    { caps := Function.update v.caps peer.mds (some ⟨peer.capId, peer.seq - 1, peer.mseq, t.issued ∪ c.issued⟩)
      auth := if v.auth = some mds then some peer.mds else v.auth }
  else v

/-- The cap that an import replaces. -/
def dropPeer (v : View) (peer : Peer) : View :=
  if peer.capId ≠ 0 ∧ (v.caps peer.mds).map Core.capId = some peer.capId then v.remove peer.mds else v

def exportTo (v : View) (mds : ℕ) (c : Core) (peer : Peer) : View :=
  if peer.capId = 0 then v
  else
    match v.caps peer.mds with
    | some t => v.updatePeer mds c t peer
    | none => v.add peer.mds ⟨peer.capId, c.issued, peer.seq - 1, peer.mseq, v.auth == some mds⟩

/-- `handle_cap_export`. -/
def exportCap (v : View) (mds : ℕ) (m : Msg) : View :=
  match v.caps mds with
  | none => v
  | some c => if c.capId ≠ m.capId then v else (v.exportTo mds c m.peer).remove mds

end View

/-! ## Plain inodes -/

/-- There are no cap snaps to flush, and only the usual bits are issued. -/
structure Inode.Plain (inode : Inode) : Prop where
  snaps : inode.capSnaps.isEmpty = true
  issued : ∀ (mds : ℕ) (cap : Cap), inode.caps[mds]? = some cap → cap.issued ⊆ capAny

/-- The client wants some caps, and keeps what it has. -/
def Env.retains (env : Env) : Bool := decide (env.wanted ≠ ∅) && !env.unmounting

/-- The same view, of a plain inode. -/
def Inode.Like (inode inode' : Inode) : Prop := inode'.seen = inode.seen ∧ inode'.Plain

theorem Inode.Like.refl (h : inode.Plain) : inode.Like inode := ⟨rfl, h⟩

theorem Inode.Like.trans {inode'' : Inode} (h : inode.Like inode') (h' : inode'.Like inode'') : inode.Like inode'' :=
  ⟨h'.1.trans h.1, h'.2⟩

theorem seen_insert (inode : Inode) (mds : ℕ) (cap : Cap) :
    (fun r => (inode.caps.insert mds cap)[r]?.map Cap.core) = Function.update inode.seen.caps mds (some cap.core) := by
  funext r
  rw [getElem?_insert]
  by_cases hr : r = mds
  · subst hr
    rw [if_pos rfl, Function.update_self]
    rfl
  · rw [if_neg hr, Function.update_of_ne hr]
    rfl

theorem Inode.Plain.setCap {cap : Cap} (h : inode.Plain) (hc : cap.issued ⊆ capAny) : (inode.setCap mds cap).Plain := by
  refine ⟨h.snaps, fun r cap' hr => ?_⟩
  rw [Inode.setCap, getElem?_insert] at hr
  split at hr
  · cases hr
    exact hc
  · exact h.issued r cap' hr

theorem seen_setCap (inode : Inode) (mds : ℕ) (cap : Cap) :
    (inode.setCap mds cap).seen = inode.seen.set mds (some cap.core) := by
  refine View.ext ?_ rfl
  exact seen_insert inode mds cap

theorem seen_eq {cap : Cap} (h : inode.caps[mds]? = some cap) : inode.seen.caps mds = some cap.core := by
  show inode.caps[mds]?.map Cap.core = _
  rw [h]
  rfl

theorem View.set_self {v : View} {c : Option Core} (h : v.caps mds = c) : v.set mds c = v := by
  refine View.ext ?_ rfl
  show Function.update v.caps mds c = v.caps
  rw [← h, Function.update_eq_self]

/-- What is retained stays issued. -/
theorem sendCap_like {retain : Mask} {cap : Cap} (used want flush : Mask) (hp : inode.Plain)
    (hcap : inode.caps[mds]? = some cap) (hretain : cap.issued ⊆ retain) :
    ∃ inode', inode.sendCap mds used want retain flush = .ok inode' ∧ inode.Like inode' := by
  have hissued : cap.issued ∩ (retain \ (cap.implemented \ cap.issued)) = cap.issued := by
    rw [Finset.inter_eq_left]
    intro i hi
    simp [hretain hi, hi]
  rw [Inode.sendCap, hcap, deref_some_bind]
  refine ⟨_, rfl, ?_, hp.snaps, fun r cap' hr => ?_⟩
  · refine View.ext ?_ rfl
    show (fun r => (inode.caps.insert mds _)[r]?.map Cap.core) = _
    rw [seen_insert]
    have hcore : Cap.core { cap with
        issued := cap.issued ∩ (retain \ (cap.implemented \ cap.issued))
        implemented := cap.implemented ∩ (cap.issued ∩ (retain \ (cap.implemented \ cap.issued)) ∪ used)
        wanted := want } = cap.core := by
      rw [Cap.core, Cap.core, hissued]
    rw [hcore, ← seen_eq hcap, Function.update_eq_self]
  · rw [getElem?_insert] at hr
    split at hr
    · cases hr
      exact Finset.inter_subset_left.trans (hp.issued mds cap hcap)
    · exact hp.issued r cap' hr

/-- The caps of an inode after a change that keeps the view. -/
theorem Inode.Like.known {cap : Cap} (h : inode.Like inode') (hcap : inode.caps[mds]? = some cap) :
    ∃ cap', inode'.caps[mds]? = some cap' ∧ cap'.core = cap.core := by
  have hv := congrFun (congrArg View.caps h.1) mds
  rw [seen_eq hcap] at hv
  exact Option.map_eq_some_iff.mp hv

theorem markCapsFlushing_like (h : l.inode.authCap = some mds ∧ l.inode.dirtyCaps ≠ ∅) (hp : l.inode.Plain) :
    ∃ l', l.markCapsFlushing = .ok l' ∧ l.inode.Like l'.inode := by
  rw [Local.markCapsFlushing, h.1, deref_some_bind, decide_eq_true h.2, assert_true_bind]
  exact ⟨_, rfl, rfl, hp.snaps, hp.issued⟩

theorem checkCap_like {retain : Mask} {cap : Cap} (env : Env) (used : Mask) (hold : Bool) (hp : l.inode.Plain)
    (hcap : l.inode.caps[mds]? = some cap) (hretain : capAny ⊆ retain) :
    ∃ l', l.checkCap env used retain hold mds = .ok l' ∧ l.inode.Like l'.inode := by
  rw [Local.checkCap, hcap, deref_some_bind]
  have hissued := (hp.issued mds cap hcap).trans hretain
  split
  · by_cases hflush : l.inode.authCap = some mds ∧ l.inode.dirtyCaps ≠ ∅
    · obtain ⟨l₁, h₁, hl₁⟩ := markCapsFlushing_like hflush hp
      obtain ⟨cap₁, hcap₁, hcore⟩ := hl₁.known hcap
      have hsame : cap₁.issued = cap.issued := congrArg Core.issued hcore
      obtain ⟨inode₂, h₂, hl₂⟩ := sendCap_like (l.inode.capUsed used mds) env.wanted l.inode.dirtyCaps hl₁.2 hcap₁
        (hsame ▸ hissued)
      refine ⟨{ l₁ with inode := inode₂ }, ?_, hl₁.trans hl₂⟩
      rw [if_pos hflush, h₁]
      show (l₁.inode.sendCap mds _ _ _ _ >>= _) = _
      rw [h₂]
      rfl
    · obtain ⟨inode₁, h₁, hl⟩ := sendCap_like (l.inode.capUsed used mds) env.wanted ∅ hp hcap hissued
      refine ⟨{ l with inode := inode₁ }, ?_, hl⟩
      rw [if_neg hflush, h₁]
      rfl
  · exact ⟨l, rfl, .refl hp⟩

theorem foldlM_checkCap_like {used retain : Mask} {hold : Bool} {keys : List ℕ} (hp : l.inode.Plain)
    (hkeys : ∀ mds ∈ keys, ∃ cap, l.inode.caps[mds]? = some cap) (hretain : capAny ⊆ retain) :
    ∃ l', keys.foldlM (Local.checkCap env used retain hold) l = .ok l' ∧ l.inode.Like l'.inode := by
  refine foldlM_returns (P := fun l' : Local => l.inode.Like l'.inode) (fun l₁ mds hmds h₁ => ?_) (.refl hp)
  obtain ⟨cap, hcap⟩ := hkeys mds hmds
  obtain ⟨cap₁, hcap₁, -⟩ := h₁.known hcap
  obtain ⟨l₂, h₂, hl₂⟩ := checkCap_like env used hold h₁.2 hcap₁ hretain
  exact ⟨l₂, h₂, h₁.trans hl₂⟩

theorem checkCaps_like {isDelayed : Bool} (hp : l.inode.Plain) (henv : env.retains = true) :
    ∃ l', l.checkCaps env isDelayed = .ok l' ∧ l.inode.Like l'.inode := by
  simp only [Env.retains, Bool.and_eq_true, decide_eq_true_eq, Bool.not_eq_true'] at henv
  rw [Local.checkCaps]
  split
  · exact ⟨l, rfl, .refl hp⟩
  rw [if_pos hp.snaps]
  refine foldlM_checkCap_like hp (fun mds hmds => ?_) ?_
  · rw [Std.ExtTreeMap.mem_keys] at hmds
    exact ⟨_, Std.ExtTreeMap.getElem?_eq_some_getElem hmds⟩
  · rw [henv.2, if_neg Bool.false_ne_true, if_pos henv.1]
    exact Finset.subset_union_right

/-- The caps are checked, or not. -/
theorem check_like (l : Local) (check : Prop) [Decidable check] (isDelayed : Bool) (hp : l.inode.Plain)
    (henv : env.retains = true) :
    ∃ l', (if check then l.checkCaps env isDelayed else pure l) = .ok l' ∧ l.inode.Like l'.inode := by
  split
  · exact checkCaps_like hp henv
  · exact ⟨l, rfl, .refl hp⟩

theorem tail_seen {v : View} {x : Checked Local} (h : ∃ l', x = .ok l' ∧ l.inode.Like l'.inode) (hv : l.inode.seen = v) :
    ∃ l', x = .ok l' ∧ l'.inode.seen = v ∧ l'.inode.Plain := by
  obtain ⟨l', hok, hl⟩ := h
  exact ⟨l', hok, hl.1.trans hv, hl.2⟩

/-! ## Grants -/

theorem merge_seen (inode : Inode) (mds : ℕ) (g : Grant) : inode.merge mds g = inode.seen.merge mds g := by
  rw [Inode.merge, View.merge]
  rcases Option.eq_none_or_eq_some inode.caps[mds]? with hcap | ⟨cap, hcap⟩
  · have hv : inode.seen.caps mds = none := by
      show inode.caps[mds]?.map Cap.core = _
      rw [hcap]
      rfl
    rw [hcap, hv]
  · rw [hcap, seen_eq hcap]
    rfl

theorem merge_issued (hp : inode.Plain) (hg : g.issued ⊆ capAny) (h : inode.merge mds g = .ok g') :
    g'.issued ⊆ capAny := by
  rw [Inode.merge] at h
  split at h
  · cases h
    exact hg
  · rename_i cap hcap
    split at h
    · simp only [bind_ok, pure_ok] at h
      obtain ⟨_, -, _, -, rfl⟩ := h
      exact Finset.union_subset hg (hp.issued mds cap hcap)
    · cases h
      exact hg

theorem checkCapIssue_like (issued : Mask) (hp : inode.Plain) : inode.Like (inode.checkCapIssue issued) := by
  unfold Inode.checkCapIssue
  dsimp only
  split <;> split <;> exact ⟨rfl, hp.snaps, hp.issued⟩

theorem setAuth_seen (inode : Inode) (mds : ℕ) (g : Grant) :
    (inode.setAuth mds g).seen.auth =
      if g.auth ∧ inode.seen.auth ≠ some mds ∧ (inode.seen.auth = none ∨
        ∃ c ∈ inode.seen.auth.bind inode.seen.caps, cephSeqCmp c.mseq g.mseq < 0) then some mds
      else inode.seen.auth := by
  have hauth : (∃ cap ∈ inode.auth, cephSeqCmp cap.mseq g.mseq < 0) ↔
      ∃ c ∈ inode.seen.auth.bind inode.seen.caps, cephSeqCmp c.mseq g.mseq < 0 := by
    show (∃ cap ∈ inode.authCap.bind fun mds => inode.caps[mds]?, _) ↔
      ∃ c ∈ inode.authCap.bind fun mds => inode.caps[mds]?.map Cap.core, _
    cases inode.authCap with
    | none => simp
    | some a =>
      simp only [Option.bind_some, Option.mem_def, Option.map_eq_some_iff]
      constructor
      · rintro ⟨cap, hcap, hlt⟩
        exact ⟨cap.core, ⟨cap, hcap, rfl⟩, hlt⟩
      · rintro ⟨c, ⟨cap, hcap, rfl⟩, hlt⟩
        exact ⟨cap, hcap, hlt⟩
  unfold Inode.setAuth
  split
  · rename_i hc
    exact (if_pos ⟨hc.1, hc.2.1, hc.2.2.imp_right hauth.mp⟩).symm
  · rename_i hc
    exact (if_neg fun h => hc ⟨h.1, h.2.1, h.2.2.imp_right hauth.mpr⟩).symm

theorem addUpdateCap_seen (hp : l.inode.Plain) (henv : env.retains = true) (hm : l.inode.merge mds g = .ok g')
    (hg : g'.issued ⊆ capAny) : ∃ l', l.addUpdateCap env mds g = .ok l' ∧ l'.inode.seen = l.inode.seen.add mds g' ∧
      l'.inode.Plain := by
  rw [Local.addUpdateCap, hm]
  set inode₁ := l.inode.checkCapIssue g'.issued with h₁
  have hl₁ : l.inode.Like inode₁ := checkCapIssue_like g'.issued hp
  set inode₂ := inode₁.setAuth mds g' with h₂
  have hcaps₂ : inode₂.caps = inode₁.caps := by
    rw [h₂]
    unfold Inode.setAuth
    split <;> rfl
  have hp₂ : inode₂.Plain := by
    rw [h₂]
    unfold Inode.setAuth
    split
    · exact ⟨hl₁.2.snaps, hl₁.2.issued⟩
    · exact hl₁.2
  have hseen : (inode₂.takeGrant mds g').seen = l.inode.seen.add mds g' := by
    rw [Inode.takeGrant, seen_setCap]
    refine View.ext ?_ ?_
    · show Function.update inode₂.seen.caps mds _ = _
      have hv : inode₂.seen.caps = l.inode.seen.caps := by
        rw [← hl₁.1]
        show (fun r => inode₂.caps[r]?.map Cap.core) = fun r => inode₁.caps[r]?.map Cap.core
        rw [hcaps₂]
      rw [hv, View.add]
      congr 1
      have hold : inode₂.caps[mds]?.map Cap.core = l.inode.seen.caps mds := congrFun hv mds
      rw [← hold]
      cases inode₂.caps[mds]? with
      | none => rfl
      | some cap => rfl
    · show (inode₁.setAuth mds g').seen.auth = _
      rw [setAuth_seen, hl₁.1]
      rfl
  have hp₃ : (inode₂.takeGrant mds g').Plain := by
    refine hp₂.setCap ?_
    show (inode₂.caps[mds]?.getD .new).issued ∪ g'.issued ⊆ capAny
    refine Finset.union_subset ?_ hg
    cases hcap : inode₂.caps[mds]? with
    | none => exact Finset.empty_subset _
    | some cap => exact hp₂.issued mds cap hcap
  obtain ⟨l', hok, hl⟩ := check_like { l with inode := inode₂.takeGrant mds g' }
    (g'.issued \ (l.inode.caps[mds]?).elim ∅ Cap.issued ≠ ∅ ∧
      (inode₂.takeGrant mds g').revokedElsewhere mds g'.issued = true) true hp₃ henv
  exact ⟨l', hok, hl.1.trans hseen, hl.2⟩

theorem release_like (l : Local) (hp : l.inode.Plain) (henv : env.retains = true) :
    ∃ l', l.release env = .ok l' ∧ l.inode.Like l'.inode := by
  rw [Local.release]
  split
  · have hp₁ : Inode.Plain { l.inode with cached := l.inode.cached && !env.released } :=
      ⟨hp.snaps, hp.issued⟩
    exact check_like { l with inode := { l.inode with cached := l.inode.cached && !env.released } }
      (env.invalidated = true) false hp₁ henv
  · exact ⟨l, rfl, .refl hp⟩

theorem handleCapGrant_seen {cap : Cap} (isImport : Bool) (hp : l.inode.Plain) (henv : env.retains = true)
    (hcap : l.inode.caps[mds]? = some cap) (hm : m.caps ⊆ capAny) :
    ∃ l', l.handleCapGrant env mds isImport m = .ok l' ∧ l'.inode.seen = l.inode.seen.grant mds m.seq m.caps ∧
      l'.inode.Plain := by
  have hl₁ := checkCapIssue_like (l.inode.capsIssued ∪ l.inode.capsDirty ∪ l.inode.capsImplemented) hp
  rw [Local.handleCapGrant, hcap, deref_some_bind]
  dsimp only
  set inode₁ := l.inode.checkCapIssue (l.inode.capsIssued ∪ l.inode.capsDirty ∪ l.inode.capsImplemented) with h₁
  -- In every case the cap is set to what the message says.
  have hset : ∀ cap' : Cap, cap'.core = ⟨cap.capId, m.seq, cap.mseq, m.caps⟩ →
      (inode₁.setCap mds cap').seen = l.inode.seen.grant mds m.seq m.caps ∧ (inode₁.setCap mds cap').Plain := by
    intro cap' hcore
    constructor
    · rw [seen_setCap, hl₁.1, hcore, View.grant, seen_eq hcap]
      rfl
    · refine hl₁.2.setCap ?_
      have hissued : cap'.issued = m.caps := congrArg Core.issued hcore
      rw [hissued]
      exact hm
  split
  · split
    · exact tail_seen (check_like _ _ false (hset _ rfl).2 henv) (hset _ rfl).1
    · split
      · obtain ⟨l₂, hok₂, hl₂⟩ := release_like { l with inode := inode₁.setCap mds { cap with
          seq := m.seq, issued := m.caps, implemented := cap.implemented ∪ m.caps } } (hset _ rfl).2 henv
        rw [hok₂]
        exact tail_seen (check_like l₂ _ false hl₂.2 henv) (hl₂.1.trans (hset _ rfl).1)
      · exact tail_seen (checkCaps_like (hset _ rfl).2 henv) (hset _ rfl).1
  · split
    · rename_i heq
      have hcore : Cap.core { cap with seq := m.seq } = ⟨cap.capId, m.seq, cap.mseq, m.caps⟩ := by
        rw [← heq]
        rfl
      exact tail_seen (check_like _ _ false (hset _ hcore).2 henv) (hset _ hcore).1
    · exact tail_seen (check_like _ _ false (hset _ rfl).2 henv) (hset _ rfl).1

/-! ## Migration -/

theorem seen_none (h : inode.caps[mds]? = none) : inode.seen.caps mds = none := by
  show inode.caps[mds]?.map Cap.core = _
  rw [h]
  rfl

theorem removeCap_seen {cap : Cap} (hp : inode.Plain) (hcap : inode.caps[mds]? = some cap) :
    ∃ inode', inode.removeCap mds = .ok inode' ∧ inode'.seen = inode.seen.remove mds ∧ inode'.Plain := by
  have hcontains : inode.caps.contains mds = true := by
    rw [Std.ExtTreeMap.contains_eq_isSome_getElem?, hcap]
    rfl
  have herase : (fun r => (inode.caps.erase mds)[r]?.map Cap.core) = Function.update inode.seen.caps mds none := by
    funext r
    rw [getElem?_erase]
    by_cases hr : r = mds
    · subst hr
      rw [if_pos rfl, Function.update_self]
      rfl
    · rw [if_neg hr, Function.update_of_ne hr]
      rfl
  have hissued : ∀ (r : ℕ) (cap : Cap), (inode.caps.erase mds)[r]? = some cap → cap.issued ⊆ capAny := by
    intro r cap hr
    rw [getElem?_erase] at hr
    split at hr
    · cases hr
    · exact hp.issued r cap hr
  rw [Inode.removeCap, hcontains, assert_true_bind]
  split
  · rename_i hauth
    refine ⟨_, rfl, View.ext herase ?_, hp.snaps, hissued⟩
    exact (if_pos hauth).symm
  · rename_i hauth
    refine ⟨_, rfl, View.ext herase ?_, hp.snaps, hissued⟩
    exact (if_neg hauth).symm

theorem importCap_seen (hp : l.inode.Plain) (henv : env.retains = true)
    (hm : l.inode.merge mds ⟨m.capId, m.caps, m.seq, m.mseq, true⟩ = .ok g') (hg : g'.issued ⊆ capAny) :
    ∃ l', l.importCap env mds m = .ok l' ∧ l'.inode.seen = (l.inode.seen.add mds g').dropPeer m.peer ∧
      l'.inode.Plain := by
  obtain ⟨l₁, hok₁, hseen₁, hp₁⟩ := addUpdateCap_seen hp henv hm hg
  have hmap : (l₁.inode.caps[m.peer.mds]?).map Cap.capId =
      ((l.inode.seen.add mds g').caps m.peer.mds).map Core.capId := by
    rw [← hseen₁]
    show _ = ((l₁.inode.caps[m.peer.mds]?).map Cap.core).map Core.capId
    rw [Option.map_map]
    rfl
  rw [Local.importCap, hok₁, View.dropPeer, ← hmap]
  by_cases hc : m.peer.capId ≠ 0 ∧ (l₁.inode.caps[m.peer.mds]?).map Cap.capId = some m.peer.capId
  · rw [if_pos hc]
    obtain ⟨cap, hcap, -⟩ := Option.map_eq_some_iff.mp hc.2
    obtain ⟨inode₂, hok₂, hseen₂, hp₂⟩ := removeCap_seen hp₁ hcap
    refine ⟨{ l₁ with inode := inode₂ }, ?_, ?_, hp₂⟩
    · refine (if_pos hc).trans ?_
      rw [hok₂]
      rfl
    · rw [← hseen₁]
      exact hseen₂
  · rw [if_neg hc]
    exact ⟨l₁, if_neg hc, hseen₁, hp₁⟩

theorem reflushCaps_like {cap : Cap} (env : Env) (hp : inode.Plain) (hauth : inode.authCap = some mds)
    (hcap : inode.caps[mds]? = some cap) : ∃ inode', inode.reflushCaps env mds = .ok inode' ∧ inode.Like inode' := by
  rw [Inode.reflushCaps]
  split
  · exact ⟨inode, rfl, .refl hp⟩
  · rw [Inode.flushCaps, hauth, beq_self_eq_true, assert_true_bind, hcap, deref_some_bind]
    exact sendCap_like inode.getCapsUsed env.wanted inode.flushingCaps hp hcap Finset.subset_union_left

/-- The caps that are flushed again stay as they are. -/
theorem reflush_like {cap : Cap} (env : Env) (hp : l.inode.Plain) (hcap : l.inode.caps[mds]? = some cap) :
    ∃ l', l.reflush env mds = .ok l' ∧ l.inode.Like l'.inode := by
  rw [Local.reflush]
  by_cases hauth : l.inode.authCap = some mds
  · obtain ⟨inode', h', hl⟩ := reflushCaps_like env hp hauth hcap
    refine ⟨{ l with inode := inode' }, ?_, hl⟩
    rw [if_pos hauth, Inode.reflushSnaps, if_pos hp.snaps]
    show (Inode.reflushCaps l.inode env mds >>= _) = _
    rw [h']
    rfl
  · rw [if_neg hauth]
    exact ⟨l, rfl, .refl hp⟩

theorem handleCapImport_seen (hp : l.inode.Plain) (henv : env.retains = true)
    (hm : l.inode.merge mds ⟨m.capId, m.caps, m.seq, m.mseq, true⟩ = .ok g') (hg : g'.issued ⊆ capAny)
    (hcaps : m.caps ⊆ capAny) (hne : m.peer.mds ≠ mds) :
    ∃ l', l.handleCapImport env mds m = .ok l' ∧
      l'.inode.seen = ((l.inode.seen.add mds g').dropPeer m.peer).grant mds m.seq m.caps ∧ l'.inode.Plain := by
  obtain ⟨l₁, hok₁, hseen₁, hp₁⟩ := importCap_seen hp henv hm hg
  have hcap : ∃ cap, l₁.inode.caps[mds]? = some cap := by
    have hv : ((l.inode.seen.add mds g').dropPeer m.peer).caps mds = (l.inode.seen.add mds g').caps mds := by
      rw [View.dropPeer]
      split
      · exact Function.update_of_ne (Ne.symm hne) _ _
      · rfl
    have hsome : l₁.inode.seen.caps mds = _ := (congrFun (congrArg View.caps hseen₁) mds).trans
      (hv.trans (Function.update_self _ _ _))
    obtain ⟨cap, hcap, -⟩ := Option.map_eq_some_iff.mp hsome
    exact ⟨cap, hcap⟩
  obtain ⟨cap, hcap⟩ := hcap
  obtain ⟨l₃, hok₃, hl₃⟩ := reflush_like env hp₁ hcap
  obtain ⟨cap₃, hcap₃, -⟩ := hl₃.known hcap
  have hcontains : l₃.inode.caps.contains mds = true := by
    rw [Std.ExtTreeMap.contains_eq_isSome_getElem?, hcap₃]
    rfl
  obtain ⟨l₂, hok₂, hseen₂, hp₂⟩ := handleCapGrant_seen true hl₃.2 henv hcap₃ hcaps
  refine ⟨l₂, ?_, ?_, hp₂⟩
  · rw [Local.handleCapImport, hok₁]
    show (l₁.reflush env mds >>= _) = _
    rw [hok₃]
    show (if l₃.inode.caps.contains mds = true then _ else _) = _
    rw [if_pos hcontains, hok₂]
  · rw [hseen₂, hl₃.1, hseen₁]

theorem updatePeer_seen {cap tcap : Cap} {peer : Peer} (hp : l.inode.Plain) (hcap : l.inode.caps[mds]? = some cap)
    (htcap : l.inode.caps[peer.mds]? = some tcap) :
    (l.updatePeer mds cap tcap peer).inode.seen = l.inode.seen.updatePeer mds cap.core tcap.core peer ∧
      (l.updatePeer mds cap tcap peer).inode.Plain := by
  unfold Local.updatePeer View.updatePeer
  by_cases hc : tcap.capId ≠ peer.capId ∨ cephSeqCmp tcap.seq peer.seq < 0
  · rw [if_pos hc, if_pos (show tcap.core.capId ≠ peer.capId ∨ cephSeqCmp tcap.core.seq peer.seq < 0 from hc)]
    refine ⟨View.ext ?_ rfl, hp.snaps, fun r cap' hr => ?_⟩
    · show (fun r => (l.inode.caps.insert peer.mds _)[r]?.map Cap.core) = _
      rw [seen_insert]
      rfl
    · dsimp only at hr
      rw [getElem?_insert] at hr
      split at hr
      · cases hr
        exact Finset.union_subset (hp.issued _ _ htcap) (hp.issued _ _ hcap)
      · exact hp.issued r cap' hr
  · rw [if_neg hc, if_neg (show ¬ (tcap.core.capId ≠ peer.capId ∨ cephSeqCmp tcap.core.seq peer.seq < 0) from hc)]
    exact ⟨rfl, hp⟩

theorem handleCapExport_seen (mds : ℕ) (m : Msg) (hp : l.inode.Plain) (henv : env.retains = true) :
    ∃ l', l.handleCapExport env mds m = .ok l' ∧ l'.inode.seen = l.inode.seen.exportCap mds m ∧ l'.inode.Plain := by
  rw [Local.handleCapExport, View.exportCap]
  rcases Option.eq_none_or_eq_some l.inode.caps[mds]? with hcap | ⟨cap, hcap⟩
  · rw [seen_none hcap, hcap]
    exact ⟨l, rfl, rfl, hp⟩
  rw [seen_eq hcap, hcap]
  by_cases hid : cap.capId ≠ m.capId
  · simp only [if_pos hid]
    rw [if_pos (show cap.core.capId ≠ m.capId from hid)]
    exact ⟨l, rfl, rfl, hp⟩
  simp only [if_neg hid]
  rw [if_neg (show ¬ cap.core.capId ≠ m.capId from hid)]
  -- The cap itself is there after the peer has got its part.
  have hto : ∃ l₁, l.exportTo env mds cap m.peer = .ok l₁ ∧ l₁.inode.seen = l.inode.seen.exportTo mds cap.core m.peer ∧
      l₁.inode.Plain ∧ ∃ cap₁, l₁.inode.caps[mds]? = some cap₁ := by
    have hknown : ∀ l₁ : Local, l₁.inode.seen = l.inode.seen.exportTo mds cap.core m.peer →
        ∃ cap₁, l₁.inode.caps[mds]? = some cap₁ := by
      intro l₁ hseen
      have hsome : ∃ c, (l.inode.seen.exportTo mds cap.core m.peer).caps mds = some c := by
        unfold View.exportTo
        split
        · exact ⟨_, seen_eq hcap⟩
        · split
          · unfold View.updatePeer
            split
            · by_cases hr : mds = m.peer.mds
              · exact ⟨_, (congrArg _ hr).trans (Function.update_self _ _ _)⟩
              · exact ⟨_, (Function.update_of_ne hr _ _).trans (seen_eq hcap)⟩
            · exact ⟨_, seen_eq hcap⟩
          · by_cases hr : mds = m.peer.mds
            · exact ⟨_, (congrArg _ hr).trans (Function.update_self _ _ _)⟩
            · exact ⟨_, (Function.update_of_ne hr _ _).trans (seen_eq hcap)⟩
      obtain ⟨c, hc⟩ := hsome
      rw [← hseen] at hc
      obtain ⟨cap₁, hcap₁, -⟩ := Option.map_eq_some_iff.mp hc
      exact ⟨cap₁, hcap₁⟩
    rw [Local.exportTo]
    by_cases hzero : m.peer.capId = 0
    · have hv : l.inode.seen.exportTo mds cap.core m.peer = l.inode.seen := by rw [View.exportTo, if_pos hzero]
      rw [if_pos hzero, hv]
      exact ⟨l, rfl, rfl, hp, cap, hcap⟩
    · rw [if_neg hzero]
      rcases Option.eq_none_or_eq_some l.inode.caps[m.peer.mds]? with htcap | ⟨tcap, htcap⟩
      · have hv : l.inode.seen.exportTo mds cap.core m.peer = l.inode.seen.add m.peer.mds
            ⟨m.peer.capId, cap.issued, m.peer.seq - 1, m.peer.mseq, l.inode.authCap == some mds⟩ := by
          rw [View.exportTo, if_neg hzero, seen_none htcap]
          rfl
        have hmerge : l.inode.merge m.peer.mds
            ⟨m.peer.capId, cap.issued, m.peer.seq - 1, m.peer.mseq, l.inode.authCap == some mds⟩ =
            .ok ⟨m.peer.capId, cap.issued, m.peer.seq - 1, m.peer.mseq, l.inode.authCap == some mds⟩ := by
          rw [Inode.merge, htcap]
          rfl
        obtain ⟨l₁, hok₁, hseen₁, hp₁⟩ := addUpdateCap_seen hp henv hmerge (hp.issued mds cap hcap)
        rw [htcap]
        exact ⟨l₁, hok₁, hseen₁.trans hv.symm, hp₁, hknown l₁ (hseen₁.trans hv.symm)⟩
      · have hv : l.inode.seen.exportTo mds cap.core m.peer =
            l.inode.seen.updatePeer mds cap.core tcap.core m.peer := by
          rw [View.exportTo, if_neg hzero, seen_eq htcap]
        obtain ⟨hseen₁, hp₁⟩ := updatePeer_seen hp hcap htcap
        rw [htcap]
        exact ⟨_, rfl, hseen₁.trans hv.symm, hp₁, hknown _ (hseen₁.trans hv.symm)⟩
  obtain ⟨l₁, hok₁, hseen₁, hp₁, cap₁, hcap₁⟩ := hto
  obtain ⟨inode₂, hok₂, hseen₂, hp₂⟩ := removeCap_seen hp₁ hcap₁
  refine ⟨{ l₁ with inode := inode₂ }, ?_, ?_, hp₂⟩
  · rw [hok₁]
    show (l₁.inode.removeCap mds >>= _) = _
    rw [hok₂]
    rfl
  · rw [← hseen₁]
    exact hseen₂

end CephMds.Caps
