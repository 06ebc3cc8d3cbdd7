import CephMds.Proof.Refragment.Split

/-!
# Merge

The new dirfrag takes all dentries of a dirfrag (`Drained`, `drain_ok`), and of
one dirfrag after the other (`Taken`, `mergeFrag_ok`). In the end it has the
dentries of all of them, its counters and pins are right, and of its statistics
the inode has been told what it had been told of the old ones (`Joined`,
`merge_ok`).
-/

namespace CephMds.Refragment

open Checked Dentries Writes Stat

namespace CDir

variable {ν κ : Type} [LinearOrder ν] {d x old : CDir ν κ} {i : Diri} {replay : Bool} {subs done : List (CDir ν κ)}

/-! ## One dirfrag -/

/-- The dentries of the keys `done` have gone from `old` to `x`. -/
structure Drained (x old : CDir ν κ) (done : List Key) (p : CDir ν κ × CDir ν κ) : Prop where
  filling : Filling x p.1
  frame : p.2.frame = old.frame
  held : Held p.2
  left (k : Key) : p.2.items[k]? = if k ∈ done then none else old.items[k]?
  items (k : Key) : p.1.items[k]? = if k ∈ done then old.items[k]? else x.items[k]?
  sums {M : Type} [AddCommGroup M] (w : Dentry → M) :
    total w p.1.items + total w p.2.items = total w x.items + total w old.items
  stamped : Stamped x → Stamped p.1

omit [LinearOrder ν] in
theorem Drained.empty {p : CDir ν κ × CDir ν κ} (h : Drained x old (old.items.toList.map Prod.fst) p) : p.2.items = ∅ := by
  refine Std.ExtTreeMap.ext_getElem? fun k => ?_
  rw [h.left, Std.ExtTreeMap.getElem?_empty]
  split
  · rfl
  · rename_i hk
    rw [mem_itemKeys, not_exists] at hk
    exact Option.eq_none_iff_forall_ne_some.mpr hk

omit [LinearOrder ν] in
/-- All dentries of a dirfrag are stolen. -/
theorem drain_ok (hx : Held x) (hc : Counted x) (hs : Summed x) (hq : Quiet x) (ho : Held old) (hqo : Quiet old)
    (hdisj : ∀ k : Key, old.items[k]? = none ∨ x.items[k]? = none) :
    ∃ p, (old.items.toList.map Prod.fst).foldlM (fun (p : CDir ν κ × CDir ν κ) k => p.1.stealDentry i p.2 k) (x, old) =
      .ok p ∧ Drained x old (old.items.toList.map Prod.fst) p := by
  refine foldlM_done ?_ ?_
  · intro done k rest p hkeys h
    have hnodup := nodup_itemKeys old.items
    obtain ⟨dn, hdn⟩ := mem_itemKeys (m := old.items).mp (hkeys ▸ List.mem_append_right done List.mem_cons_self)
    have hk : k ∉ done := by
      rw [hkeys] at hnodup
      exact fun hmem => List.disjoint_of_nodup_append hnodup hmem List.mem_cons_self
    have hleft : p.2.items[k]? = some dn := by rw [h.left, if_neg hk, hdn]
    have hkey := h.held.keyed hleft
    have hnone : p.1.items[dn.key]? = none := by
      rw [hkey, h.items, if_neg hk]
      exact (hdisj k).resolve_left (by rw [hdn]; simp)
    obtain ⟨calls, calls', hsteal⟩ := stealDentry_eq (i := i) h.filling.held h.filling.counted
      (quiet_of_frame h.filling.frame hq) h.held (quiet_of_frame h.frame hqo) hleft
    refine ⟨_, hsteal, h.filling.gain hnone (h.held.dirPins hleft), (lose_frame p.2 dn).trans h.frame,
      h.held.lose (hkey.symm ▸ hleft), fun k' => ?_, fun k' => ?_, fun {M} _ w => ?_,
      fun hx => (h.stamped hx).gain hnone⟩
    · rw [lose_items, getElem?_erase, hkey, h.left]
      by_cases heq : k' = k
      · rw [if_pos heq, if_pos (heq ▸ List.mem_concat_self)]
      · have hmem : k' ∈ done ++ [k] ↔ k' ∈ done := by simp [heq]
        rw [if_neg heq, if_congr hmem rfl rfl]
    · rw [gain_items, getElem?_insert, hkey, h.items]
      by_cases heq : k' = k
      · rw [if_pos heq, heq, if_pos List.mem_concat_self, hdn]
      · have hmem : k' ∈ done ++ [k] ↔ k' ∈ done := by simp [heq]
        rw [if_neg heq, if_congr hmem rfl rfl]
    · rw [gain_items, lose_items, total_move w (hkey.symm ▸ hleft) hnone, h.sums w]
  · exact ⟨⟨rfl, hx, hc, hs⟩, rfl, ho, fun k => (if_neg List.not_mem_nil).symm, fun k => (if_neg List.not_mem_nil).symm,
      fun {M} _ w => rfl, id⟩

/-! ## One after the other -/

/-- The new dirfrag of a merge, with what it has of the dirfrags `done` and has added up of what
the inode has not been told of them. -/
structure Taken (i : Diri) (x : CDir ν κ) (replay : Bool) (done : List (CDir ν κ))
    (s : CDir ν κ × NestInfo × FragInfo) : Prop where
  frag : s.1.frag = x.frag
  isAuth : s.1.isAuth = x.isAuth
  calm : Calm 0 replay s.1.freeze
  pins {p : Pin} : p ≠ .child → s.1.pins p = 0
  sticky : s.1.sticky = false
  replicas : s.1.isAuth = false → s.1.replicaMap.isEmpty = true
  held : Held s.1
  counted : Counted s.1
  summed : Summed s.1
  items {k : Key} {dn : Dentry} : s.1.items[k]? = some dn ↔ ∃ f ∈ done, f.items[k]? = some dn
  sums {M : Type} [AddCommGroup M] (w : Dentry → M) : total w s.1.items = (done.map fun f => total w f.items).sum
  fragDiff : s.2.2.count = (done.map fun f => f.fragDiff i).sum
  nestDiff : s.2.1.count = (done.map fun f => f.nestDiff i).sum
  stamped : Stamped s.1

omit [LinearOrder ν] in
/-- "Merge replica map" leaves a replica without replicas. -/
theorem mergeReplicas_empty (h : d.replicaMap.isEmpty = true) (ho : old.replicaMap.isEmpty = true) :
    (d.mergeReplicas old).replicaMap.isEmpty = true := by
  have hlist : (∅ : Std.ExtTreeMap ℤ ℕ).toList = [] := by simp
  rw [Std.ExtTreeMap.isEmpty_iff] at ho
  rw [mergeReplicas, ho, hlist]
  exact h

theorem mergeFrag_ok {s : CDir ν κ × NestInfo × FragInfo} (h : Taken i x replay done s) (hd : Sound 0 replay d)
    (hh : Held d) (hauth : d.isAuth = x.isAuth)
    (hdisj : ∀ f ∈ done, ∀ k : Key, f.items[k]? = none ∨ d.items[k]? = none) :
    ∃ s', mergeFrag i replay s d = .ok s' ∧ Taken i x replay (done ++ [d]) s' := by
  obtain ⟨z, hprep, -, -⟩ := prepareOldFragment_eq d replay
  set d' := d.prepareOldFragment replay with hd'
  have hauth' : d'.isAuth = d.isAuth := prepareOldFragment_isAuth d replay
  have hsound : Sound (d'.isAuth && !replay).toNat replay d' := by
    rw [hauth']
    exact hd.prepare
  have hitems : d'.items = d.items := by rw [hprep]
  have hnone : ∀ k : Key, d'.items[k]? = none ∨ s.1.items[k]? = none := by
    intro k
    rw [hitems]
    cases hk : s.1.items[k]? with
    | none => exact .inr rfl
    | some dn =>
      obtain ⟨f, hf, hfk⟩ := h.items.mp hk
      exact .inl ((hdisj f hf k).resolve_left (by rw [hfk]; simp))
  obtain ⟨p, hdrain, hp⟩ := drain_ok (i := i) h.held h.counted h.summed ⟨h.calm.freezingDir, h.calm.freezingTree⟩
    hh.prepare hsound.quiet hnone
  have hpauth : p.2.isAuth = d'.isAuth := (congrArg (fun y : CDir ν κ => y.isAuth) hp.frame :)
  have hready : Sound (p.2.isAuth && !replay).toNat replay p.2 := by
    rw [hpauth]
    exact hsound.congr hp.frame
  obtain ⟨e, hfinish, -, -⟩ := finishOldFragment_ok (i := i) hready hp.held (Std.ExtTreeMap.isEmpty_iff.mpr hp.empty)
  have hassert : (!d.isAuth || d.complete || replay) = true := by
    cases hr : replay with
    | true => exact Bool.or_true _
    | false =>
      cases ha : d.isAuth with
      | false => rfl
      | true => rw [hd.complete hr ha]; rfl
  refine ⟨(p.1.takeState p.2, d.addDiffs i s.2), ?_, ?_⟩
  · rw [mergeFrag]
    exact bind_ok.mpr ⟨(), assert_ok.mpr hassert, bind_ok.mpr ⟨p, hdrain, bind_ok.mpr ⟨e, hfinish, rfl⟩⟩⟩
  · have hframe := hp.filling.frame
    have hsums {M : Type} [AddCommGroup M] (w : Dentry → M) : total w p.1.items =
        ((done ++ [d]).map fun f => total w f.items).sum := by
      have := hp.sums w
      rw [hp.empty, total_empty, add_zero, hitems, h.sums w] at this
      rw [this, List.map_append, List.sum_append]
      exact congrArg (_ + ·) (List.sum_singleton).symm
    constructor
    · exact (congrArg (fun y : CDir ν κ => y.frag) hframe :).trans h.frag
    · exact (congrArg (fun y : CDir ν κ => y.isAuth) hframe :).trans h.isAuth
    · exact h.calm.congr (congrArg (fun y : CDir ν κ => still y.freeze) hframe :)
    · intro q hq
      have := (congrArg (fun y : CDir ν κ => y.pins q) hframe :)
      simp only [frame, Function.update_of_ne hq] at this
      exact this.trans (h.pins hq)
    · exact (congrArg (fun y : CDir ν κ => y.sticky) hframe :).trans h.sticky
    · intro ha
      have hpa : p.1.isAuth = s.1.isAuth := (congrArg (fun y : CDir ν κ => y.isAuth) hframe :)
      have hmap : p.1.replicaMap = s.1.replicaMap := (congrArg (fun y : CDir ν κ => y.replicaMap) hframe :)
      have hmap' : p.2.replicaMap = d'.replicaMap := (congrArg (fun y : CDir ν κ => y.replicaMap) hp.frame :)
      have hsa : s.1.isAuth = false := hpa.symm.trans ha
      have hda : d'.isAuth = false := by rw [hauth', hauth, ← h.isAuth, hsa]
      exact mergeReplicas_empty (by rw [hmap]; exact h.replicas hsa) (by rw [hmap']; exact hsound.replicas hda)
    · exact ⟨hp.filling.held.keyed, hp.filling.held.dirPins, hp.filling.held.child, hp.filling.held.nestedAuthPins,
        hp.filling.held.dirAuthPins⟩
    · exact ⟨hp.filling.counted.headItems, hp.filling.counted.headNull, hp.filling.counted.snapItems,
        hp.filling.counted.snapNull, hp.filling.counted.dirty⟩
    · exact ⟨hp.filling.summed.fragstat, hp.filling.summed.rstat⟩
    · intro k dn
      show p.1.items[k]? = some dn ↔ _
      rw [hp.items, hitems]
      simp only [List.mem_append, List.mem_singleton, or_and_right, exists_or, exists_eq_left]
      rw [← h.items]
      split
      · rename_i hk
        obtain ⟨dn', hdn'⟩ := mem_itemKeys.mp hk
        have hsk := (hnone k).resolve_left (by rw [hitems, hdn']; simp)
        rw [hsk]
        simp
      · rename_i hk
        rw [mem_itemKeys, not_exists] at hk
        simp [hk]
    · exact hsums
    · rw [(addDiffs_count d i s.2).2, h.fragDiff, List.map_append, List.sum_append]
      exact congrArg (_ + ·) (List.sum_singleton).symm
    · rw [(addDiffs_count d i s.2).1, h.nestDiff, List.map_append, List.sum_append]
      exact congrArg (_ + ·) (List.sum_singleton).symm
    · exact ⟨(hp.stamped h.stamped).mtime, (hp.stamped h.stamped).rctime⟩

/-! ## The result -/

/-- What the new dirfrag of a merge is. -/
structure Joined (i : Diri) (subs : List (CDir ν κ)) (replay : Bool) (d : CDir ν κ) : Prop where
  sound : Sound 0 replay d
  held : Held d
  counted : Counted d
  summed : Summed d
  items {k : Key} {dn : Dentry} : d.items[k]? = some dn ↔ ∃ f ∈ subs, f.items[k]? = some dn
  sums {M : Type} [AddCommGroup M] (w : Dentry → M) : total w d.items = (subs.map fun f => total w f.items).sum
  told : Told i d
  accountedFragstat : d.fnode.accountedFragstat.count =
    total Dentry.fragCount d.items + (subs.map fun f => f.fragDiff i).sum
  accountedRstat : d.fnode.accountedRstat.count =
    total Dentry.nestCount d.items + (subs.map fun f => f.nestDiff i).sum
  versions : d.fnode.fragstat.version = i.dirstatVersion ∧ d.fnode.rstat.version = i.rstatVersion
  stamped : Stamped d

/-- No assertion of `merge` fails, and the new dirfrag has all that the old ones had. -/
theorem merge_ok (frag : Frag) (auth : Bool) (hne : subs ≠ [])
    (hs : ∀ f ∈ subs, Sound 0 replay f ∧ Held f ∧ f.isAuth = auth)
    (hdisj : subs.Pairwise fun f g => ∀ k : Key, f.items[k]? = none ∨ g.items[k]? = none) :
    ∃ d : CDir ν κ, (CDir.new frag auth).merge i subs replay = .ok d ∧ d.frag = frag ∧ d.isAuth = auth ∧
      Joined i subs replay d := by
  obtain ⟨front, rest, rfl⟩ := List.exists_cons_of_ne_nil hne
  obtain ⟨calls, hset⟩ := setDirAuth_calls i.surroundings (z := (Freeze.CDir.new auth : Freeze.CDir ν κ))
    (show cdirAuthDefault.second < 0 by decide) front.freeze.dirAuth
  set z : Freeze.CDir ν κ := { Freeze.CDir.new auth with dirAuth := front.freeze.dirAuth, calls := calls } with hz
  have hcalm : Calm 0 true z := (calm_new auth).congr rfl
  have hset' : (CDir.new frag auth : CDir ν κ).setDirAuth i front.freeze.dirAuth =
      .ok { CDir.new frag auth with freeze := z } := bind_ok.mpr ⟨z, hset, rfl⟩
  set x : CDir ν κ := CDir.prepareNewFragment { CDir.new frag auth with freeze := z } replay with hx
  obtain ⟨hauth, -, hnest, hdir⟩ := doFreezeDir_keeps z (!replay && z.isAuth)
  have htaken : Taken i x replay [] (x, .zero, .zero) := by
    rw [hx, prepareNewFragment_eq]
    exact {
      frag := rfl
      isAuth := rfl
      calm := calm_prepare hcalm rfl replay
      pins := fun _ => rfl
      sticky := rfl
      replicas := fun _ => Std.ExtTreeMap.isEmpty_empty
      held := held_empty rfl rfl hnest hdir
      counted := ⟨rfl, rfl, rfl, rfl, rfl⟩
      summed := ⟨(total_empty _).symm, (total_empty _).symm⟩
      items := by
        intro k dn
        show (∅ : Std.ExtTreeMap Key Dentry)[k]? = some dn ↔ _
        simp
      sums := fun w => total_empty w
      fragDiff := rfl
      nestDiff := rfl
      stamped := by
        refine ⟨rfl, fun t => ⟨fun _ k dn hk => ?_, fun _ => t.zero_le⟩⟩
        have hnone : (∅ : Std.ExtTreeMap Key Dentry)[k]? = some dn := hk
        simp at hnone }
  have hxauth : x.isAuth = auth := by
    rw [hx, prepareNewFragment_eq]
    exact hauth
  obtain ⟨s, hrun, hs'⟩ : ∃ s, (front :: rest).foldlM (mergeFrag i replay) (x, .zero, .zero) = .ok s ∧
      Taken i x replay (front :: rest) s := by
    refine foldlM_done (fun done d rest' s heq hdone => ?_) htaken
    obtain ⟨hsd, hhd, had⟩ := hs d (heq ▸ List.mem_append_right done List.mem_cons_self)
    rw [heq, List.pairwise_append] at hdisj
    exact mergeFrag_ok hdone hsd hhd (had.trans hxauth.symm) fun f hf => hdisj.2.2 f hf d List.mem_cons_self
  set y : CDir ν κ := ((s.1.markComplete (s.1.isAuth && !replay)).fixUp i).give s.2 with hy
  have hraw : Raw replay y := ⟨hs'.calm, hs'.pins, hs'.sticky⟩
  obtain ⟨pins, hpins, hchild, hown⟩ := hraw.initPins
  refine ⟨y.initFragmentPins, ?_, ?_⟩
  · rw [merge]
    exact bind_ok.mpr ⟨front, rfl, bind_ok.mpr ⟨_, hset', bind_ok.mpr ⟨s, hrun, rfl⟩⟩⟩
  · rw [hpins]
    refine ⟨hs'.frag.trans (by rw [hx, prepareNewFragment_eq]; rfl), hs'.isAuth.trans hxauth, ?_⟩
    constructor
    · refine ⟨hs'.calm, fun {p} hp => (hown hp).trans ?_, fun hr ha => ?_, hs'.replicas⟩
      · cases p <;> rfl
      · show (s.1.complete || (s.1.isAuth && !replay)) = true
        have ha' : s.1.isAuth = true := ha
        rw [ha', hr]
        exact Bool.or_true _
    · exact ⟨hs'.held.keyed, hs'.held.dirPins, hchild.trans hs'.held.child, hs'.held.nestedAuthPins, hs'.held.dirAuthPins⟩
    · exact ⟨hs'.counted.headItems, hs'.counted.headNull, hs'.counted.snapItems, hs'.counted.snapNull, hs'.counted.dirty⟩
    · exact ⟨hs'.summed.fragstat, hs'.summed.rstat⟩
    · exact hs'.items
    · exact hs'.sums
    · exact ⟨rfl, rfl⟩
    · show s.1.fnode.fragstat.count + s.2.2.count = total Dentry.fragCount s.1.items + _
      rw [hs'.summed.fragstat, hs'.fragDiff]
    · show s.1.fnode.rstat.count + s.2.1.count = total Dentry.nestCount s.1.items + _
      rw [hs'.summed.rstat, hs'.nestDiff]
    · exact ⟨rfl, rfl⟩
    · exact ⟨hs'.stamped.mtime, hs'.stamped.rctime⟩

end CDir

end CephMds.Refragment
