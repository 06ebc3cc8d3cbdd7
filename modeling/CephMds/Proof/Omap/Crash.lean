import CephMds.Proof.Omap.Durable

/-!
# A crash in the middle of a commit

`contentAfter` is what a history makes of the contents of the dentries. The
cache has the content of the whole history (`Traced.cached`), and so will the
object for every dentry that is not dirty (`Traced.settled`). After each of the
writes under way, the header promises no more than what is there (`Promises`):
a dentry has the content of some part of the history that leaves out only
updates later than the header.
-/

namespace CephMds.Omap

open Checked Dentries Writes

variable {ι φ : Type} {o : InodeOps ι} {e : Surroundings} {s s' : State ι φ} {k : Key} {dn : Dentry ι}
  {snaps : Option (Finset Snapid)} {R : Option (Entry ι) → Option (Entry ι) → Prop} {E : Key → Prop}

/-! ## Histories -/

def Entry.purge (o : InodeOps ι) (snaps : Finset Snapid) (x : Entry ι) : Entry ι :=
  match x.stored with
  | .primary i => { x with stored := .primary (o.purgeStaleSnapData snaps i) }
  | .remote _ _ => x

/-- The contents after a change. -/
def Change.apply (o : InodeOps ι) (f : Key → Option (Entry ι)) : Change ι → Key → Option (Entry ι)
  | .update _ k x => Function.update f k x
  | .trim k => Function.update f k none
  | .purge k snaps => Function.update f k ((f k).map (Entry.purge o snaps))

def contentAfter (o : InodeOps ι) (init : Key → Option (Entry ι)) (hist : List (Change ι)) : Key → Option (Entry ι) :=
  hist.foldl (Change.apply o) init

theorem contentAfter_append (o : InodeOps ι) (init : Key → Option (Entry ι)) (hist cs : List (Change ι)) :
    contentAfter o init (hist ++ cs) = contentAfter o (contentAfter o init hist) cs := List.foldl_append

theorem contentAfter_nil {f : Key → Option (Entry ι)} (h : dn.entry = f k) (k' : Key) :
    contentAfter o f [] k' = if k' = k then dn.entry else f k' := by
  show f k' = _
  split
  · rename_i hk
    rw [h, hk]
  · rfl

theorem contentAfter_purged {f : Key → Option (Entry ι)} (h : dn.entry = f k) (k' : Key) :
    contentAfter o f (Batch.purged k dn snaps) k' =
      if k' = k then (o.encodeDentry snaps dn).entry else f k' := by
  cases snaps with
  | none =>
    rw [show o.encodeDentry none dn = dn by unfold InodeOps.encodeDentry; split <;> simp_all]
    exact contentAfter_nil h k'
  | some snaps =>
    cases hl : dn.linkage with
    | null =>
      rw [encodeDentry_of_null hl, Batch.purged, hl]
      exact contentAfter_nil h k'
    | remote ino dType =>
      rw [show o.encodeDentry (some snaps) dn = dn by unfold InodeOps.encodeDentry; rw [hl], Batch.purged, hl]
      exact contentAfter_nil h k'
    | primary i =>
      rw [Dentry.entry, hl] at h
      have henc : o.encodeDentry (some snaps) dn =
          { dn with linkage := .primary (o.purgeStaleSnapData snaps i) } := by
        unfold InodeOps.encodeDentry
        rw [hl]
      rw [henc, Batch.purged, hl]
      show Function.update f k ((f k).map (Entry.purge o snaps)) k' = _
      rw [Function.update_apply, ← h]
      rfl

/-- What a commit does to a dentry is what the history says of it. -/
theorem contentAfter_changed (o : InodeOps ι) (e : Surroundings) (snaps : Option (Finset Snapid))
    {f : Key → Option (Entry ι)} (h : dn.entry = f k) (k' : Key) :
    contentAfter o f (changed e snaps k dn) k' = if k' = k then (kept o e snaps k dn).bind Dentry.entry else f k' := by
  rw [changed, kept]
  by_cases ht : trims e snaps k dn = true
  · rw [if_pos ht, if_pos ht]
    exact Function.update_apply f k none k'
  rw [if_neg ht, if_neg ht]
  by_cases hs : dn.skipped = true
  · rw [if_pos hs, if_pos hs]
    exact contentAfter_nil h k'
  · rw [if_neg hs, if_neg hs]
    exact contentAfter_purged h k'

theorem contentAfter_flatMap_of_not_mem {f : Key → Option (Entry ι)} {ps : List (Key × Dentry ι)}
    (hf : ∀ p ∈ ps, p.2.entry = f p.1) (hps : (ps.map Prod.fst).Nodup) (hk : k ∉ ps.map Prod.fst) :
    contentAfter o f (ps.flatMap fun p => changed e snaps p.1 p.2) k = f k := by
  induction ps generalizing f with
  | nil => rfl
  | cons p ps ih =>
    rw [List.map_cons, List.nodup_cons] at hps
    rw [List.map_cons, List.mem_cons, not_or] at hk
    have hstep := contentAfter_changed o e snaps (hf p List.mem_cons_self)
    rw [List.flatMap_cons, contentAfter_append, ih ?_ hps.2 hk.2, hstep, if_neg hk.1]
    intro q hq
    rw [hstep, if_neg, hf q (List.mem_cons_of_mem p hq)]
    rintro he
    exact hps.1 (List.mem_map.mpr ⟨q, hq, he⟩)

theorem contentAfter_flatMap_of_mem {f : Key → Option (Entry ι)} {ps : List (Key × Dentry ι)}
    (hf : ∀ p ∈ ps, p.2.entry = f p.1) (hps : (ps.map Prod.fst).Nodup) (hk : (k, dn) ∈ ps) :
    contentAfter o f (ps.flatMap fun p => changed e snaps p.1 p.2) k = (kept o e snaps k dn).bind Dentry.entry := by
  induction ps generalizing f with
  | nil => cases hk
  | cons p ps ih =>
    rw [List.map_cons, List.nodup_cons] at hps
    have hstep := contentAfter_changed o e snaps (hf p List.mem_cons_self)
    have hrest : ∀ q ∈ ps, q.2.entry = contentAfter o f (changed e snaps p.1 p.2) q.1 := by
      intro q hq
      rw [hstep, if_neg, hf q (List.mem_cons_of_mem p hq)]
      rintro he
      exact hps.1 (List.mem_map.mpr ⟨q, hq, he⟩)
    rw [List.flatMap_cons, contentAfter_append]
    rcases List.mem_cons.mp hk with rfl | hk
    · rw [contentAfter_flatMap_of_not_mem hrest hps.2 hps.1, hstep, if_pos rfl]
    · exact ih hrest hps.2 hk

/-- What is on disk for each dentry. -/
def Disk.content (disk : Disk ι φ) (k : Key) : Option (Entry ι) := disk.omap[k.encode]?

namespace State

/-! ## The invariant -/

variable {init : Key → Option (Entry ι)} {hist cs : List (Change ι)} {d : Disk ι φ}

/-- The header promises no more than what is there. -/
def Promises (o : InodeOps ι) (init : Key → Option (Entry ι)) (hist : List (Change ι)) (d : Disk ι φ) : Prop :=
  ∀ f, d.header = some f → ∀ k : Key, ∃ n, (∀ v k' x, .update v k' x ∈ hist.drop n → f.version < v) ∧
    d.omap[k.encode]? = contentAfter o init (hist.take n) k

structure Traced (o : InodeOps ι) (init : Key → Option (Entry ι)) (s : State ι φ) : Prop where
  cached : ∀ k dn, s.dir.items[k]? = some dn → dn.entry = contentAfter o init s.history k
  settled : ∀ k, (∀ dn, s.dir.items[k]? = some dn → dn.dirty = false) →
    (putAll s.disk.omap s.ops)[k.encode]? = contentAfter o init s.history k
  headers : ∀ p, p <+: s.pending → ∀ f, (p.foldl Disk.mutate s.disk).header = some f →
    f.version ≤ s.dir.fnode.version
  promises : ∀ p, p <+: s.pending → Promises o init s.history (p.foldl Disk.mutate s.disk)

/-- Later updates do not matter to the header. -/
theorem Promises.append (h : Promises o init hist d)
    (hcs : ∀ f, d.header = some f → ∀ v k x, .update v k x ∈ cs → f.version < v) :
    Promises o init (hist ++ cs) d := by
  intro f hf k
  obtain ⟨n, hn, hk⟩ := h f hf k
  refine ⟨min n hist.length, fun v k' x hx => ?_, ?_⟩
  · rw [List.drop_append_of_le_length (min_le_right _ _), List.mem_append] at hx
    rcases hx with hx | hx
    · by_cases hle : n ≤ hist.length
      · rw [min_eq_left hle] at hx
        exact hn v k' x hx
      · rw [min_eq_right (by omega), List.drop_length] at hx
        cases hx
    · exact hcs f hf v k' x hx
  · rw [List.take_append_of_le_length (min_le_right _ _), ← List.take_eq_take_min]
    exact hk

theorem foldl_mutate_omap (d : Disk ι φ) (ms : List (Mutation ι φ)) :
    (ms.foldl Disk.mutate d).omap = putAll d.omap (ms.flatMap Mutation.ops) := by
  induction ms generalizing d with
  | nil => rfl
  | cons m ms ih =>
    rw [List.foldl_cons, ih, List.flatMap_cons, putAll_append]
    rfl

theorem foldl_mutate_header {ms : List (Mutation ι φ)} (h : ∀ m ∈ ms, m.header = none) (d : Disk ι φ) :
    (ms.foldl Disk.mutate d).header = d.header := by
  induction ms generalizing d with
  | nil => rfl
  | cons m ms ih =>
    rw [List.foldl_cons, ih fun x hx => h x (List.mem_cons_of_mem m hx)]
    show m.header.or d.header = d.header
    rw [h m List.mem_cons_self, Option.none_or]

/-! ## Steps -/

theorem Traced.prepare (h : Traced o init s) (min : ℕ) (u : Update ι φ) : Traced o init (s.prepare min u) :=
  ⟨h.cached, h.settled, h.headers, h.promises⟩

theorem Traced.withWaiters (h : Traced o init s) (ws : List ℕ) :
    Traced o init { s with dir := { s.dir with waitingForCommit := ws } } :=
  ⟨h.cached, h.settled, h.headers, h.promises⟩

theorem contentAfter_update (pv : ℕ) (x : Option (Entry ι)) (k k' : Key) :
    contentAfter o init (hist ++ [.update pv k x]) k' = if k' = k then x else contentAfter o init hist k' := by
  rw [contentAfter_append]
  exact Function.update_apply _ k x k'

theorem Traced.apply (h : Traced o init s) (hs : s.apply = .ok s') : Traced o init s' := by
  by_cases hp : s.prepared = []
  · rw [apply_nil hs hp]
    exact h
  obtain ⟨pv, u, us, -, hlt, rfl⟩ := apply_ok hs hp
  have hd := Update.dentry_dirty u pv s.dir.items[u.key]?
  refine ⟨fun k dn hdn => ?_, fun k hk => ?_, fun p hp f hf => ?_, fun p hp => ?_⟩
  · rw [getElem?_insert] at hdn
    rw [contentAfter_update]
    split at hdn
    · rename_i hku
      cases hdn
      rw [if_pos hku]
    · rename_i hku
      rw [if_neg hku]
      exact h.cached k dn hdn
  · rw [contentAfter_update]
    by_cases hku : k = u.key
    · have := hk (u.dentry pv s.dir.items[u.key]?) (by rw [getElem?_insert, if_pos hku])
      rw [hd.1] at this
      cases this
    · rw [if_neg hku]
      refine h.settled k fun dn hdn => hk dn ?_
      rw [getElem?_insert, if_neg hku]
      exact hdn
  · exact (h.headers p hp f hf).trans hlt.le
  · refine (h.promises p hp).append fun f hf v k x hx => ?_
    rw [List.mem_singleton] at hx
    cases hx
    exact (h.headers p hp f hf).trans_lt hlt

theorem Traced.write (h : Traced o init s) : Traced o init s.write := by
  rw [State.write]
  split
  · exact h
  · rename_i m ms hp
    have hpre : ∀ p, p <+: ms → m :: p <+: s.pending := by
      intro p hpms
      rw [hp]
      exact List.cons_prefix_cons.mpr ⟨rfl, hpms⟩
    refine ⟨h.cached, fun k hk => ?_, fun p hpms => h.headers _ (hpre p hpms), fun p hpms => h.promises _ (hpre p hpms)⟩
    have := h.settled k hk
    rwa [ops, hp, List.flatMap_cons, putAll_append] at this

theorem Traced.note {v : ℕ} (h : Traced o init s) (hs : Sound R E s) (hE : ∀ k, ¬ E k) (hv : v ∈ s.acked)
    (hlt : s.dir.committedVersion < v) :
    Traced o init (State.note e { s with acked := s.acked.erase v } v) := by
  obtain ⟨-, hvc⟩ := hs.acks v hv hlt
  -- What becomes clean has been written.
  have hfly : ∀ (k : Key) (dn : Dentry ι), s.dir.items[k]? = some dn → dn.dirty = true → dn.version ≤ v →
      (putAll s.disk.omap s.ops)[k.encode]? = dn.entry := by
    intro k dn hdn hdirty hle
    exact hs.flying (by omega) k dn (hE k) hdn hdirty (by omega)
  have hitems : ∀ k : Key, (State.note e { s with acked := s.acked.erase v } v).dir.items[k]? =
      (s.dir.items[k]?).bind fun dn => if v ≥ dn.version && dn.dirty then
        if e.stray && e.idle k && !e.projected k && dn.linkage.isNull then none else some { dn with dirty := false }
      else some dn := fun k => Std.ExtTreeMap.getElem?_filterMap'
  refine ⟨fun k dn' hdn' => ?_, fun k hk => ?_, h.headers, h.promises⟩
  · rw [hitems, Option.bind_eq_some_iff] at hdn'
    obtain ⟨dn, hdn, hkeep⟩ := hdn'
    have := h.cached k dn hdn
    split at hkeep
    · split at hkeep
      · cases hkeep
      · cases hkeep
        exact this
    · cases hkeep
      exact this
  · cases hdn : s.dir.items[k]? with
    | none => exact h.settled k fun dn hdn' => by rw [hdn] at hdn'; cases hdn'
    | some dn =>
      by_cases hc : dn.dirty = true ∧ dn.version ≤ v
      · exact (hfly k dn hdn hc.1 hc.2).trans (h.cached k dn hdn)
      · refine h.settled k fun dn' hdn' => ?_
        rw [hdn, Option.some.injEq] at hdn'
        subst hdn'
        refine hk dn ?_
        rw [hitems, hdn, Option.bind_some, if_neg]
        simpa [and_comm] using hc

/-! ## Commits -/

theorem keys_nodup (s : State ι φ) : (s.dir.items.toList.map Prod.fst).Nodup := by
  refine List.Pairwise.map Prod.fst (fun p q h => ?_) s.dir.items.ordered_keys_toList
  rintro he
  rw [he, Std.compare_self] at h
  cases h

theorem getElem?_of_mem_toList {p : Key × Dentry ι} (hp : p ∈ s.dir.items.toList) : s.dir.items[p.1]? = some p.2 :=
  Std.ExtTreeMap.mem_toList_iff_getElem?_eq_some.mp hp

/-- The contents after a commit: what is left of the cached dentries. -/
theorem Traced.contentAfter_commit (h : Traced o init s) (hs : Commits o e s s') (k : Key) :
    contentAfter o init s'.history k = match s.dir.items[k]? with
      | some dn => (kept o e (snapPurge e.realm s.dir.fnode) k dn).bind Dentry.entry
      | none => contentAfter o init s.history k := by
  have hf : ∀ p ∈ s.dir.items.toList, p.2.entry = contentAfter o init s.history p.1 := by
    intro p hp
    exact h.cached p.1 p.2 (getElem?_of_mem_toList hp)
  rw [hs.history, contentAfter_append]
  cases hdn : s.dir.items[k]? with
  | some dn =>
    exact contentAfter_flatMap_of_mem hf s.keys_nodup (Std.ExtTreeMap.mem_toList_iff_getElem?_eq_some.mpr hdn)
  | none =>
    refine contentAfter_flatMap_of_not_mem hf s.keys_nodup fun hk => ?_
    obtain ⟨p, hp, rfl⟩ := List.mem_map.mp hk
    rw [getElem?_of_mem_toList hp] at hdn
    cases hdn

/-- What is written for a dentry is what is left of it. -/
theorem kept_of_written {v : Option (Entry ι)} (h : written o e snaps k dn = some v) :
    (kept o e snaps k dn).bind Dentry.entry = v := by
  rw [written] at h
  rw [kept]
  split at h
  · rename_i ht
    cases h
    rw [if_pos ht]
    rfl
  · rename_i ht
    split at h
    · cases h
    · rename_i hs
      cases h
      rw [if_neg ht, if_neg hs]
      rfl

/-- When nothing is written for a dentry, it is clean and stays as it is. -/
theorem kept_of_not_written (h : written o e snaps k dn = none) : dn.dirty = false ∧ kept o e snaps k dn = some dn := by
  rw [written] at h
  split at h
  · cases h
  · rename_i ht
    split at h
    · rename_i hs
      refine ⟨?_, by rw [kept, if_neg ht, if_pos hs]⟩
      by_contra hd
      rw [not_skipped_of_dirty (by simpa using hd)] at hs
      cases hs
    · cases h

/-- All that a commit writes is the content after it. -/
theorem Traced.content_of_mem (h : Traced o init s) (hs : Commits o e s s')
    {l : List (List Byte × Option (Entry ι))} {q : List Byte × Option (Entry ι)}
    (hl : ∀ q, q ∈ l ↔ ∃ k dn v, s.dir.items[k]? = some dn ∧
      written o e (snapPurge e.realm s.dir.fnode) k dn = some v ∧ q = (k.encode, v))
    (hq : q ∈ l) (hk : q.1 = k.encode) : q.2 = contentAfter o init s'.history k := by
  obtain ⟨k', dn, v, hdn, hv, rfl⟩ := (hl q).mp hq
  obtain rfl := encode_injective hk
  rw [h.contentAfter_commit hs, hdn]
  exact (kept_of_written hv).symm

/-- With the last write of a commit everything is on disk. -/
theorem Traced.settled_commit (h : Traced o init s) (hs : Commits o e s s') (hdisk : s'.disk = s.disk) (k : Key) :
    (putAll s'.disk.omap s'.ops)[k.encode]? = contentAfter o init s'.history k := by
  obtain ⟨l, hops, hl⟩ := hs.ops
  rw [hdisk, hops, putAll_append]
  refine putAll_of_agree (fun q hq hqk => h.content_of_mem hs hl hq hqk) ?_
  rw [h.contentAfter_commit hs]
  cases hdn : s.dir.items[k]? with
  | none => exact .inr (h.settled k fun dn hdn' => by rw [hdn] at hdn'; cases hdn')
  | some dn =>
    cases hw : written o e (snapPurge e.realm s.dir.fnode) k dn with
    | some v => exact .inl (List.mem_map.mpr ⟨_, (hl _).mpr ⟨k, dn, v, hdn, hw, rfl⟩, rfl⟩)
    | none =>
      obtain ⟨hclean, hkept⟩ := kept_of_not_written hw
      refine .inr ?_
      rw [show (match some dn with
        | some dn => (kept o e (snapPurge e.realm s.dir.fnode) k dn).bind Dentry.entry
        | none => contentAfter o init s.history k) = dn.entry by simp [hkept], h.cached k dn hdn]
      refine h.settled k fun dn' hdn' => ?_
      rw [hdn, Option.some.injEq] at hdn'
      rw [← hdn']
      exact hclean

theorem not_update_of_commit (hs : Commits o e s s') : ∃ cs, s'.history = s.history ++ cs ∧
    ∀ v k x, Change.update v k x ∉ cs := by
  refine ⟨_, hs.history, fun v k x hx => ?_⟩
  obtain ⟨p, -, hp⟩ := List.mem_flatMap.mp hx
  rw [changed] at hp
  split at hp
  · simp at hp
  · split at hp
    · cases hp
    · unfold Batch.purged at hp
      split at hp
      · split at hp <;> simp at hp
      · cases hp

/-- The writes of a commit one after the other: before those of the commit, between them, and with the last. -/
theorem prefix_cases {α : Type} {p l ms : List α} {m : α} (h : p <+: l ++ ms ++ [m]) :
    p <+: l ∨ (∃ p', p' <+: ms ∧ p = l ++ p') ∨ p = l ++ ms ++ [m] := by
  rcases List.prefix_concat_iff.mp h with h | ⟨q, hq⟩
  · exact .inr (.inr h)
  · rcases List.append_eq_append_iff.mp hq with ⟨a, ha, -⟩ | ⟨c, hc, hms⟩
    · exact .inl ⟨a, ha.symm⟩
    · exact .inr (.inl ⟨c, ⟨q, hms.symm⟩, hc⟩)

theorem Traced.start (h : Traced o init s) : Traced o init (s.committing.omapCommit o e) := by
  have h : Traced o init s.committing := ⟨h.cached, h.settled, h.headers, h.promises⟩
  have hs := commits o e s.committing
  obtain ⟨ms, m, hpend, hms, hm⟩ := hs.pending
  obtain ⟨l, hops, hl⟩ := hs.ops
  obtain ⟨cs, hhist, hcs⟩ := not_update_of_commit hs
  have hl' : l = ms.flatMap Mutation.ops ++ m.ops := by
    rw [ops, hpend, List.append_assoc, List.flatMap_append, ops, List.append_right_inj] at hops
    rw [← hops, List.flatMap_append, List.flatMap_singleton]
  have hall := h.settled_commit hs rfl
  have hheader : ((s.pending ++ ms ++ [m]).foldl Disk.mutate s.disk).header = some s.dir.fnode := by
    rw [List.foldl_append]
    show m.header.or _ = _
    rw [hm]
    rfl
  have homap : ((s.pending ++ ms ++ [m]).foldl Disk.mutate s.disk).omap =
      putAll s.disk.omap (s.committing.omapCommit o e).ops := by
    rw [foldl_mutate_omap, ops, hpend]
    rfl
  refine ⟨fun k dn' hdn' => ?_, fun k _ => hall k, fun p hp f hf => ?_, fun p hp => ?_⟩
  · rw [hs.items, Option.bind_eq_some_iff] at hdn'
    obtain ⟨dn, hdn, hkeep⟩ := hdn'
    rw [h.contentAfter_commit hs, hdn]
    show dn'.entry = (kept o e (snapPurge e.realm s.committing.dir.fnode) k dn).bind Dentry.entry
    rw [hkeep, Option.bind_some]
  · rw [hpend] at hp
    rcases prefix_cases hp with hp | ⟨p', hp', rfl⟩ | rfl
    · exact h.headers p hp f hf
    · rw [List.foldl_append, foldl_mutate_header fun x hx => hms x (hp'.subset hx)] at hf
      exact h.headers _ (List.prefix_refl _) f hf
    · have hf' := hheader.symm.trans hf
      rw [Option.some.injEq] at hf'
      rw [← hf']
      exact le_rfl
  · rw [hpend] at hp
    have hold : ∀ p, p <+: s.pending →
        Promises o init (s.committing.omapCommit o e).history (p.foldl Disk.mutate s.disk) := by
      intro p hp
      rw [hhist]
      exact (h.promises p hp).append fun f _ v k x hx => absurd hx (hcs v k x)
    rcases prefix_cases hp with hp | ⟨p', hp', rfl⟩ | rfl
    · exact hold p hp
    · intro f hf k
      -- A dentry has what it had before the commit, or what the commit writes.
      rw [List.foldl_append, foldl_mutate_header fun x hx => hms x (hp'.subset hx)] at hf
      rw [List.foldl_append, foldl_mutate_omap]
      rcases putAll_cases ((s.committing.pending.foldl Disk.mutate s.disk).omap) (p'.flatMap Mutation.ops) k.encode
        with heq | ⟨q, hq, hqk, heq⟩
      · obtain ⟨n, hn, hk⟩ := hold _ (List.prefix_refl _) f hf k
        exact ⟨n, hn, heq.trans hk⟩
      · refine ⟨(s.committing.omapCommit o e).history.length, fun v k' x hx => ?_, ?_⟩
        · rw [List.drop_length] at hx
          cases hx
        · rw [List.take_length]
          refine heq.trans (h.content_of_mem hs hl ?_ hqk)
          rw [hl', List.mem_append]
          obtain ⟨x, hx, hqx⟩ := List.mem_flatMap.mp hq
          exact .inl (List.mem_flatMap.mpr ⟨x, hp'.subset hx, hqx⟩)
    · intro f hf k
      refine ⟨(s.committing.omapCommit o e).history.length, fun v k' x hx => ?_, ?_⟩
      · rw [List.drop_length] at hx
        cases hx
      · rw [List.take_length, ← hall k]
        exact congrArg (fun m : Std.ExtTreeMap (List Byte) (Entry ι) => m[k.encode]?) homap

theorem Traced._commit {want : ℕ} (h : Traced o init s) (hs : s._commit o e want = .ok s') : Traced o init s' := by
  rcases _commit_ok hs with rfl | ⟨-, rfl⟩
  · exact h
  · exact h.start

theorem Traced.step {a : Action ι φ} (h : Traced o init s) (hsound : Sound R E s) (hE : ∀ k, ¬ E k)
    (hl : a.linked = true) (hs : s.step o a = some s') : Traced o init s' := by
  rcases step_cases hl hs with ⟨min, u, rfl⟩ | hs | rfl | ⟨e, ws, want, he, hs⟩ | ⟨e, v, he, hv, hlt, hs⟩
  · exact h.prepare min u
  · exact h.apply hs
  · exact h.write
  · exact (h.withWaiters ws)._commit hs
  · have hnote : Traced o init (State.note e { s with acked := s.acked.erase v } v) := h.note hsound hE hv hlt
    obtain ⟨ws, rfl | ⟨want, hs⟩⟩ := kickWaiters_ok hs
    · exact hnote.withWaiters ws
    · exact (hnote.withWaiters ws)._commit hs

/-! ## Runs -/

theorem traced_load {disk : Disk ι φ} {fnode : Fnode φ} {items : Std.ExtTreeMap Key (Dentry ι)}
    (h : Loads disk items) (hheader : ∀ f, disk.header = some f → f = fnode) :
    Traced o disk.content (load disk fnode items) := by
  refine ⟨fun k dn hdn => (h.content k dn hdn).symm, fun k _ => rfl, fun p hp f hf => ?_, fun p hp => ?_⟩
  · rw [List.prefix_nil.mp hp] at hf
    rw [hheader f hf]
    exact le_rfl
  · rw [List.prefix_nil.mp hp]
    exact fun f hf k => ⟨0, (fun v k' x hx => by cases hx), rfl⟩

/-- A crash never leaves a header that promises too much: in every state of every run, each dentry
has on disk the content of a part of the history that leaves out only updates later than the header. -/
theorem run_promises {disk : Disk ι φ} {fnode f : Fnode φ} {items : Std.ExtTreeMap Key (Dentry ι)}
    {as : List (Action ι φ)} (hload : Loads disk items) (hheader : ∀ f, disk.header = some f → f = fnode)
    (hl : ∀ a ∈ as, a.linked = true) (h : run (step o) (load disk fnode items) as = some s)
    (hf : s.disk.header = some f) (k : Key) :
    ∃ n, (∀ v k' x, .update v k' x ∈ s.history.drop n → f.version < v) ∧
      s.disk.omap[k.encode]? = contentAfter o disk.content (s.history.take n) k := by
  obtain ⟨-, htraced⟩ : Sound (Purged o) (fun _ => False) s ∧ Traced o disk.content s := by
    refine run_invariant_of (P := fun s => Sound (Purged o) (fun _ => False) s ∧ Traced o disk.content s)
      ?_ ⟨sound_load (fun x => .refl x) hload, traced_load hload hheader⟩
      (meets_of_forall hl _) h
    intro s a s' hs hl hstep
    exact ⟨hs.1.step (fun x => .refl x) hl (fun e _ => encodes_purged o _) hstep,
      hs.2.step hs.1 (fun _ => id) hl hstep⟩
  exact htraced.promises [] List.nil_prefix f hf k

/-- A crash when the removal of `a` is on disk, with the header or without. -/
theorem run_promises_unlink : ∃ s f, run (step oneOps) (oneLoaded false)
    [.prepare 0 unlinkOne, .apply, .commit 2 around, .write, .write] = some s ∧ s.disk.header = some f ∧
    f.version = 2 ∧ ∃ n, (∀ v k' x, .update v k' x ∈ s.history.drop n → f.version < v) ∧
      s.disk.omap[oneKey.encode]? = contentAfter oneOps oneDisk.content (s.history.take n) oneKey := by
  have hrun : ∃ s, run (step oneOps) (oneLoaded false)
      [.prepare 0 unlinkOne, .apply, .commit 2 around, .write, .write] = some s ∧
      s.disk.header = some ⟨2, 0, ()⟩ := ⟨_, rfl, by decide +kernel⟩
  obtain ⟨s, hs, hf⟩ := hrun
  refine ⟨s, _, hs, hf, rfl, ?_⟩
  exact run_promises (loads_one false) (fun f hf => (Option.some.inj hf).symm) (by decide) hs hf oneKey

/-- A dentry of the snapshot 3. -/
def oldKey : Key := ⟨[98], 3⟩

/-- A dentry of a destroyed snapshot is removed, though no update has unlinked it; and in a
directory without links a commit that was asked for before goes through, with the header
but without the removal. -/
theorem not_promises :
    (∃ s, run (step oneOps) (oneLoaded false)
      [.prepare 0 ⟨oldKey, 2, .remote 6 8, ()⟩, .apply, .commit 2 { purging with idle := fun _ => true },
        .write] = some s ∧
      s.disk.header = some ⟨2, 0, ()⟩ ∧ s.disk.omap[oldKey.encode]? = none ∧
      s.history = [.update 2 oldKey (some ⟨2, .remote 6 8⟩), .trim oldKey]) ∧
    ∃ s, run (step oneOps) (oneLoaded false)
      [.prepare 0 ⟨oldKey, 2, .remote 6 8, ()⟩, .apply, .commit 2 around, .prepare 0 unlinkOne, .apply,
        .commit 3 around, .commit 3 { around with unlinked := true }, .write, .write,
        .committed 2 { around with unlinked := true }, .write] = some s ∧
      s.disk.header = some ⟨3, 0, ()⟩ ∧ s.disk.omap[oneKey.encode]? = some ⟨2, .primary 5⟩ ∧
      s.history = [.update 2 oldKey (some ⟨2, .remote 6 8⟩), .update 3 oneKey none] :=
  ⟨⟨_, rfl, by decide +kernel, by decide +kernel, by decide +kernel⟩,
    ⟨_, rfl, by decide +kernel, by decide +kernel, by decide +kernel⟩⟩

end State

end CephMds.Omap
