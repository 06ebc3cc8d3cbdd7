import CephMds.Proof.Refragment.Finish

/-!
# Split

`repartition` takes the dentries of the old dirfrag one by one to the new ones,
by their place (`Dealt`, `repartition_ok`, `deal_ok`). When all are gone, each of
the new dirfrags has what hashes to its frag and is as the old one was, so that
it can be split or merged itself, and the statistics add up to those of the
old one (`Parted`, `split_ok`).
-/

namespace CephMds.Refragment

open Checked Dentries Writes Stat

namespace CDir

variable {ν κ : Type} [LinearOrder ν] {d : CDir ν κ} {i : Diri} {replay : Bool} {bits : ℕ}

/-- A new dirfrag while it takes dentries. -/
structure Filling (f₀ f : CDir ν κ) : Prop where
  frame : f.frame = f₀.frame
  held : Held f
  counted : Counted f
  summed : Summed f

omit [LinearOrder ν] in
theorem Filling.gain {f₀ f : CDir ν κ} {dn : Dentry} {calls : List Freeze.InodeCall} (h : Filling f₀ f)
    (hk : f.items[dn.key]? = none) (hdap : dn.dirAuthPins ≤ dn.authPins + dn.nestedAuthPins) :
    Filling f₀ (f.gain dn calls) :=
  ⟨(gain_frame f dn).trans h.frame, h.held.gain hk hdap, h.counted.gain hk, h.summed.gain hk⟩

/-- Where a dentry goes. -/
def placeOf (i : Diri) (frag : Frag) (dn : Dentry) : ℕ := frag.index (i.pickDirfrag dn.name)

/-- The dentries of the keys `done` have gone to their places. -/
structure Dealt (place : Dentry → ℕ) (d : CDir ν κ) (subs : List (CDir ν κ)) (done : List Key)
    (s : CDir ν κ × List (CDir ν κ)) : Prop where
  frame : s.1.frame = d.frame
  held : Held s.1
  left (k : Key) : s.1.items[k]? = if k ∈ done then none else d.items[k]?
  length : s.2.length = subs.length
  filling {n : ℕ} {f₀ f : CDir ν κ} : subs[n]? = some f₀ → s.2[n]? = some f → Filling f₀ f
  items {n : ℕ} {f : CDir ν κ} (k : Key) : s.2[n]? = some f →
    f.items[k]? = if k ∈ done then (d.items[k]?).filter fun dn => place dn = n else none
  sums {M : Type} [AddCommGroup M] (w : Dentry → M) :
    (s.2.map fun f => total w f.items).sum + total w s.1.items = total w d.items

variable {subs : List (CDir ν κ)} {done rest : List Key} {s : CDir ν κ × List (CDir ν κ)} {k : Key} {dn : Dentry}
  {frag : Frag}

omit [LinearOrder ν] in
/-- The sum over the new dirfrags, where one of them takes a dentry from the old one. -/
theorem sum_set_gain {M : Type} [AddCommGroup M] (w : Dentry → M) {l : List (CDir ν κ)} {n : ℕ} {old f f' : CDir ν κ}
    (hn : l[n]? = some f) (hk : old.items[k]? = some dn) (hf : f.items[k]? = none)
    (hf' : f'.items = f.items.insert k dn) :
    ((l.set n f').map fun f => total w f.items).sum + total w (old.items.erase k) =
      (l.map fun f => total w f.items).sum + total w old.items := by
  obtain ⟨hlt, hget⟩ := List.getElem?_eq_some_iff.mp hn
  have hlt' : n < (l.map fun f => total w f.items).length := by rw [List.length_map]; exact hlt
  rw [List.map_set, List.sum_set', dif_pos hlt', List.getElem_map, hget, hf', total_insert w hf, total_erase w hk]
  abel

omit [LinearOrder ν] in
/-- One dentry is dealt. -/
theorem repartition_ok (h : Dealt (placeOf i frag) d subs done s) (hq : Quiet d) (hqs : ∀ f ∈ subs, Quiet f)
    (hk : k ∉ done) (hdn : d.items[k]? = some dn) (hplace : placeOf i frag dn < subs.length) :
    ∃ s', repartition i frag s k = .ok s' ∧ Dealt (placeOf i frag) d subs (done ++ [k]) s' := by
  have hleft : s.1.items[k]? = some dn := by rw [h.left, if_neg hk, hdn]
  have hkey := h.held.keyed hleft
  set n := placeOf i frag dn with hn
  have hlt : n < s.2.length := by rw [h.length]; exact hplace
  have hf : s.2[n]? = some s.2[n] := List.getElem?_eq_getElem hlt
  have hf₀ : subs[n]? = some subs[n] := List.getElem?_eq_getElem hplace
  have hfill := h.filling hf₀ hf
  have hquiet : Quiet s.2[n] := quiet_of_frame hfill.frame (hqs _ (List.getElem_mem hplace))
  have hnone : (s.2[n]).items[dn.key]? = none := by rw [h.items _ hf, hkey, if_neg hk]
  obtain ⟨calls, calls', hsteal⟩ := stealDentry_eq (i := i) hfill.held hfill.counted hquiet h.held
    (quiet_of_frame h.frame hq) hleft
  refine ⟨((s.1).lose dn calls', s.2.set n ((s.2[n]).gain dn calls)), ?_, ?_⟩
  · rw [repartition, hleft, deref_some_bind]
    show deref s.2[n]? >>= _ = _
    rw [hf, deref_some_bind]
    exact bind_ok.mpr ⟨_, hsteal, rfl⟩
  · refine ⟨(lose_frame s.1 dn).trans h.frame, h.held.lose (hkey.symm ▸ hleft), fun k' => ?_, ?_, ?_, ?_, ?_⟩
    · rw [lose_items, getElem?_erase, hkey, h.left]
      by_cases heq : k' = k
      · rw [if_pos heq, if_pos (heq ▸ List.mem_concat_self)]
      · have hmem : k' ∈ done ++ [k] ↔ k' ∈ done := by simp [heq]
        rw [if_neg heq, if_congr hmem rfl rfl]
    · rw [List.length_set, h.length]
    · intro m f₀ f hm₀ hm
      rw [List.getElem?_set] at hm
      split at hm
      · rename_i heq
        subst heq
        rw [Option.some_inj] at hm
        rw [← hm, ← Option.some_inj.mp (hf₀.symm.trans hm₀)]
        exact hfill.gain hnone (h.held.dirPins hleft)
      · exact h.filling hm₀ hm
    · intro m f k' hm
      rw [List.getElem?_set] at hm
      split at hm
      · rename_i heq
        subst heq
        rw [Option.some_inj] at hm
        rw [← hm, gain_items, getElem?_insert, hkey, h.items k' hf]
        by_cases heq : k' = k
        · have hpick : (some dn).filter (fun dn => placeOf i frag dn = n) = some dn :=
            Option.filter_some_pos (decide_eq_true hn.symm)
          rw [if_pos heq, heq, if_pos List.mem_concat_self, hdn, hpick]
        · have hmem : k' ∈ done ++ [k] ↔ k' ∈ done := by simp [heq]
          rw [if_neg heq, if_congr hmem rfl rfl]
      · rename_i hne
        rw [h.items k' hm]
        by_cases heq : k' = k
        · have hpick : (some dn).filter (fun dn => placeOf i frag dn = m) = none :=
            Option.filter_some_neg (by simpa using hne)
          rw [heq, if_neg hk, if_pos List.mem_concat_self, hdn, hpick]
        · have hmem : k' ∈ done ++ [k] ↔ k' ∈ done := by simp [heq]
          rw [if_congr hmem rfl rfl]
    · intro M _ w
      rw [lose_items, hkey, sum_set_gain w hf hleft (hkey ▸ hnone) (by rw [gain_items, hkey]), h.sums w]

/-- The keys that a loop over the items goes through. -/
theorem nodup_itemKeys (m : Std.ExtTreeMap Key Dentry) : (m.toList.map Prod.fst).Nodup := by
  rw [Std.ExtTreeMap.map_fst_toList_eq_keys]
  exact m.nodup_keys

theorem mem_itemKeys {m : Std.ExtTreeMap Key Dentry} {k : Key} : k ∈ m.toList.map Prod.fst ↔ ∃ dn, m[k]? = some dn := by
  rw [Std.ExtTreeMap.map_fst_toList_eq_keys, Std.ExtTreeMap.mem_keys, ← Std.ExtTreeMap.isSome_getElem?_iff_mem,
    Option.isSome_iff_exists]

omit [LinearOrder ν] in
/-- All dentries are dealt. -/
theorem deal_ok (frag : Frag) (hd : Held d) (hq : Quiet d)
    (hsubs : ∀ f ∈ subs, f.items = ∅ ∧ Quiet f ∧ Held f ∧ Counted f ∧ Summed f)
    (hplace : ∀ {k : Key} {dn : Dentry}, d.items[k]? = some dn → placeOf i frag dn < subs.length) :
    ∃ s, (d.items.toList.map Prod.fst).foldlM (repartition i frag) (d, subs) = .ok s ∧
      Dealt (placeOf i frag) d subs (d.items.toList.map Prod.fst) s := by
  refine foldlM_done ?_ ?_
  · intro done k rest s hkeys hs
    have hnodup := nodup_itemKeys d.items
    obtain ⟨dn, hdn⟩ := mem_itemKeys (m := d.items).mp (hkeys ▸ List.mem_append_right done List.mem_cons_self)
    have hk : k ∉ done := by
      rw [hkeys] at hnodup
      exact fun hmem => List.disjoint_of_nodup_append hnodup hmem List.mem_cons_self
    exact repartition_ok hs hq (fun f hf => (hsubs f hf).2.1) hk hdn (hplace hdn)
  · refine ⟨rfl, hd, fun k => (if_neg List.not_mem_nil).symm, rfl, ?_, ?_, ?_⟩
    · intro n f₀ f hf₀ hf
      obtain ⟨-, -, hh, hc, hs⟩ := hsubs f (List.mem_of_getElem? hf)
      rw [← Option.some_inj.mp (hf.symm.trans hf₀)]
      exact ⟨rfl, hh, hc, hs⟩
    · intro n f k hf
      rw [(hsubs f (List.mem_of_getElem? hf)).1, if_neg List.not_mem_nil]
      simp
    · intro M _ w
      have hzero : (subs.map fun f => total w f.items).sum = 0 := by
        refine List.sum_eq_zero fun x hx => ?_
        obtain ⟨f, hf, rfl⟩ := List.mem_map.mp hx
        rw [(hsubs f hf).1, total_empty]
      rw [hzero, zero_add]

/-! ## The result -/

/-- What the inode was told of the dirfrag, less what it has. -/
def fragDiff (d : CDir ν κ) (i : Diri) : FragCount :=
  if d.fnode.accountedFragstat.version = i.dirstatVersion then d.fnode.accountedFragstat.count - d.fnode.fragstat.count
  else 0

def nestDiff (d : CDir ν κ) (i : Diri) : NestCount :=
  if d.fnode.accountedRstat.version = i.rstatVersion then d.fnode.accountedRstat.count - d.fnode.rstat.count else 0

omit [LinearOrder ν] in
theorem addDiffs_count (d : CDir ν κ) (i : Diri) (diffs : NestInfo × FragInfo) :
    (d.addDiffs i diffs).1.count = diffs.1.count + d.nestDiff i ∧
    (d.addDiffs i diffs).2.count = diffs.2.count + d.fragDiff i := by
  refine ⟨?_, ?_⟩
  · show (if _ then diffs.1.addDelta _ _ else diffs.1).count = _
    rw [nestDiff]
    split
    · rfl
    · rw [add_zero]
  · show (if _ then diffs.2.addDelta _ _ else diffs.2).count = _
    rw [fragDiff]
    split
    · rfl
    · rw [add_zero]

/-- The inode has been told statistics of its version. -/
def Told (i : Diri) (f : CDir ν κ) : Prop :=
  f.fnode.accountedFragstat.version = i.dirstatVersion ∧ f.fnode.accountedRstat.version = i.rstatVersion

/-- What the new dirfrags of a split are. -/
structure Parted (i : Diri) (d : CDir ν κ) (bits : ℕ) (h : d.frag.bits + bits ≤ 24) (replay : Bool)
    (subs : List (CDir ν κ)) : Prop where
  length : subs.length = 2 ^ bits
  frag {n : ℕ} {f : CDir ν κ} : subs[n]? = some f → f.frag = d.frag.child bits h n
  isAuth {f : CDir ν κ} : f ∈ subs → f.isAuth = d.isAuth
  sound {f : CDir ν κ} : f ∈ subs → Sound 0 replay f
  held {f : CDir ν κ} : f ∈ subs → Held f
  counted {f : CDir ν κ} : f ∈ subs → Counted f
  summed {f : CDir ν κ} : f ∈ subs → Summed f
  items {f : CDir ν κ} (k : Key) : f ∈ subs →
    f.items[k]? = (d.items[k]?).filter fun dn => f.frag.contains (i.hashDentryName dn.name)
  told {f : CDir ν κ} : f ∈ subs → Told i f
  fragstat : (subs.map fun f => f.fnode.fragstat.count).sum = total Dentry.fragCount d.items
  rstat : (subs.map fun f => f.fnode.rstat.count).sum = total Dentry.nestCount d.items
  accountedFragstat : (subs.map fun f => f.fnode.accountedFragstat.count).sum =
    total Dentry.fragCount d.items + d.fragDiff i
  accountedRstat : (subs.map fun f => f.fnode.accountedRstat.count).sum =
    total Dentry.nestCount d.items + d.nestDiff i

omit [LinearOrder ν] in
/-- The sum of what the new dirfrags have accounted, where the first is given the differences. -/
theorem sum_modifyHead {M α : Type} [AddCommGroup M] {l : List α} (hl : l ≠ []) {g : α → α} {w : α → M} {x : M}
    (hg : ∀ a, w (g a) = w a + x) : ((l.modifyHead g).map w).sum = (l.map w).sum + x := by
  cases l with
  | nil => exact absurd rfl hl
  | cons a l =>
    rw [List.modifyHead_cons, List.map_cons, List.map_cons, List.sum_cons, List.sum_cons, hg]
    abel

omit [LinearOrder ν] in
theorem placeOf_eq {h : frag.bits + bits ≤ 24} (hc : i.dirfragtree.SplitAt frag bits h)
    (hv : frag.contains (i.hashDentryName dn.name) = true) :
    placeOf i frag dn = frag.childOf bits (i.hashDentryName dn.name) := by
  rw [placeOf, Diri.pickDirfrag, Cover.pick_eq_child hc hv]
  exact Leading.index_child h (frag.childOf_lt bits _)

/-- All of the new dirfrags. -/
theorem subfrags_ok (h : d.isAuth = false → d.replicaMap.isEmpty = true) (i : Diri) (replay : Bool) (frags : List Frag) :
    ∃ subs, frags.mapM (d.subfrag i replay) = .ok subs ∧ subs.map (fun f => f.frag) = frags ∧
      ∀ f ∈ subs, f.isAuth = d.isAuth ∧ f.items = ∅ ∧ Sound 0 replay f ∧ Held f ∧ Counted f ∧ Summed f := by
  induction frags with
  | nil => exact ⟨[], rfl, rfl, fun f hf => absurd hf List.not_mem_nil⟩
  | cons frag frags ih =>
    obtain ⟨f, hf, hfrag, hrest⟩ := subfrag_ok h i replay frag
    obtain ⟨subs, hsubs, hfrags, hall⟩ := ih
    refine ⟨f :: subs, ?_, by rw [List.map_cons, hfrag, hfrags], List.forall_mem_cons.mpr ⟨hrest, hall⟩⟩
    rw [List.mapM_cons]
    exact bind_ok.mpr ⟨f, hf, bind_ok.mpr ⟨subs, hsubs, rfl⟩⟩

/-! ## The statistics -/

/-- The dirfrag with other statistics, and with the same numbers in them. -/
def Restated (i : Diri) (f f' : CDir ν κ) : Prop := ∃ fnode : Fnode, f' = { f with fnode := fnode } ∧
  fnode.fragstat.count = f.fnode.fragstat.count ∧ fnode.rstat.count = f.fnode.rstat.count ∧ Told i f'

omit [LinearOrder ν] in
theorem restated_fixUp (f : CDir ν κ) (i : Diri) : Restated i f (f.fixUp i) := ⟨_, rfl, rfl, rfl, rfl, rfl⟩

omit [LinearOrder ν] in
theorem Restated.give {f f' : CDir ν κ} (h : Restated i f f') (diffs : NestInfo × FragInfo) :
    Restated i f (f'.give diffs) := by
  obtain ⟨fnode, rfl, hfrag, hnest, htold⟩ := h
  exact ⟨_, rfl, hfrag, hnest, htold⟩

omit [LinearOrder ν] in
/-- The new dirfrags after "fix up new frag fragstats". -/
theorem getElem?_told {l : List (CDir ν κ)} {diffs : NestInfo × FragInfo} {n : ℕ} {f' : CDir ν κ}
    (h : ((l.map fun f => f.fixUp i).modifyHead fun f => f.give diffs)[n]? = some f') :
    ∃ f, l[n]? = some f ∧ Restated i f f' := by
  rw [List.getElem?_modifyHead, List.getElem?_map] at h
  split at h
  · rw [Option.map_map, Option.map_eq_some_iff] at h
    obtain ⟨f, hf, rfl⟩ := h
    exact ⟨f, hf, (restated_fixUp f i).give diffs⟩
  · rw [Option.map_eq_some_iff] at h
    obtain ⟨f, hf, rfl⟩ := h
    exact ⟨f, hf, restated_fixUp f i⟩

theorem Restated.sound {f f' : CDir ν κ} (h : Restated i f f') (hf : Sound 0 replay f) : Sound 0 replay f' := by
  obtain ⟨fnode, rfl, -⟩ := h
  refine ⟨hf.calm, fun {p} hp => (hf.pins hp).trans ?_, hf.complete, hf.replicas⟩
  cases p <;> rfl

omit [LinearOrder ν] in
theorem Restated.held {f f' : CDir ν κ} (h : Restated i f f') (hf : Held f) : Held f' := by
  obtain ⟨fnode, rfl, -⟩ := h
  exact ⟨hf.keyed, hf.dirPins, hf.child, hf.nestedAuthPins, hf.dirAuthPins⟩

omit [LinearOrder ν] in
theorem Restated.counted {f f' : CDir ν κ} (h : Restated i f f') (hf : Counted f) : Counted f' := by
  obtain ⟨fnode, rfl, -⟩ := h
  exact ⟨hf.headItems, hf.headNull, hf.snapItems, hf.snapNull, hf.dirty⟩

omit [LinearOrder ν] in
theorem Restated.summed {f f' : CDir ν κ} (h : Restated i f f') (hf : Summed f) : Summed f' := by
  obtain ⟨fnode, rfl, hfrag, hnest, -⟩ := h
  exact ⟨hfrag.trans hf.fragstat, hnest.trans hf.rstat⟩

omit [LinearOrder ν] in
/-- What the inode has been told of the new dirfrags: all they have, and what the first is given. -/
theorem sum_told {l : List (CDir ν κ)} (hl : l ≠ []) (hs : ∀ f ∈ l, Summed f) (diffs : NestInfo × FragInfo) :
    let told := (l.map fun f => f.fixUp i).modifyHead fun f => f.give diffs
    (told.map fun f => f.fnode.fragstat.count).sum = (l.map fun f => total Dentry.fragCount f.items).sum ∧
    (told.map fun f => f.fnode.rstat.count).sum = (l.map fun f => total Dentry.nestCount f.items).sum ∧
    (told.map fun f => f.fnode.accountedFragstat.count).sum =
      (l.map fun f => total Dentry.fragCount f.items).sum + diffs.2.count ∧
    (told.map fun f => f.fnode.accountedRstat.count).sum =
      (l.map fun f => total Dentry.nestCount f.items).sum + diffs.1.count := by
  have hne : (l.map fun f => f.fixUp i) ≠ [] := by rwa [ne_eq, List.map_eq_nil_iff]
  have hsum : ∀ {M : Type} [AddCommGroup M] (w : CDir ν κ → M) (v : CDir ν κ → M) (x : M),
      (∀ f, w (f.give diffs) = w f + x) → (∀ f ∈ l, w (f.fixUp i) = v f) →
      (((l.map fun f => f.fixUp i).modifyHead fun f => f.give diffs).map w).sum = (l.map v).sum + x := by
    intro M _ w v x hgive hfix
    rw [sum_modifyHead hne hgive, List.map_map]
    exact congrArg (· + x) (congrArg List.sum (List.map_congr_left hfix))
  have hfrag : ∀ f ∈ l, f.fnode.fragstat.count = total Dentry.fragCount f.items := fun f hf => (hs f hf).fragstat
  have hnest : ∀ f ∈ l, f.fnode.rstat.count = total Dentry.nestCount f.items := fun f hf => (hs f hf).rstat
  refine ⟨?_, ?_, ?_, ?_⟩
  · rw [hsum (fun f => f.fnode.fragstat.count) _ 0 (fun f => (add_zero _).symm) hfrag, add_zero]
  · rw [hsum (fun f => f.fnode.rstat.count) _ 0 (fun f => (add_zero _).symm) hnest, add_zero]
  · exact hsum (fun f => f.fnode.accountedFragstat.count) _ diffs.2.count (fun f => rfl) hfrag
  · exact hsum (fun f => f.fnode.accountedRstat.count) _ diffs.1.count (fun f => rfl) hnest

omit [LinearOrder ν] in
theorem prepareOldFragment_isAuth (d : CDir ν κ) (replay : Bool) : (d.prepareOldFragment replay).isAuth = d.isAuth := by
  rw [prepareOldFragment]
  split
  · rw [Freeze.authPin_eq]
    split <;> rfl
  · rfl

omit [LinearOrder ν] in
theorem Dealt.empty {place : Dentry → ℕ} (h : Dealt place d subs (d.items.toList.map Prod.fst) s) :
    s.1.items.isEmpty = true := by
  rw [Std.ExtTreeMap.isEmpty_iff]
  refine Std.ExtTreeMap.ext_getElem? fun k => ?_
  rw [h.left, Std.ExtTreeMap.getElem?_empty]
  split
  · rfl
  · rename_i hk
    rw [mem_itemKeys, not_exists] at hk
    exact Option.eq_none_iff_forall_ne_some.mpr hk

/-- The new dirfrags, when all dentries are dealt. -/
theorem parted_of_dealt {d' : CDir ν κ} (h : d.frag.bits + bits ≤ 24) (hc : i.dirfragtree.SplitAt d.frag bits h)
    (hv : ∀ {k : Key} {dn : Dentry}, d.items[k]? = some dn → d.frag.contains (i.hashDentryName dn.name) = true)
    (hitems : d'.items = d.items) (hlength : subs.length = 2 ^ bits)
    (hfrags : subs.map (fun f => f.frag) = (List.range (2 ^ bits)).map (d.frag.child bits h))
    (hall : ∀ f ∈ subs, f.isAuth = d.isAuth ∧ Sound 0 replay f)
    (hs : Dealt (placeOf i d.frag) d' subs (d'.items.toList.map Prod.fst) s) :
    Parted i d bits h replay ((s.2.map fun f => f.fixUp i).modifyHead fun f => f.give (d.addDiffs i (.zero, .zero))) := by
  -- Each of them was empty, then filled, and then only its statistics changed.
  have htold {n : ℕ} {f' : CDir ν κ} (hn : ((s.2.map fun f => f.fixUp i).modifyHead fun f =>
      f.give (d.addDiffs i (.zero, .zero)))[n]? = some f') :
      ∃ f₀ f, subs[n]? = some f₀ ∧ s.2[n]? = some f ∧ Filling f₀ f ∧ Restated i f f' := by
    obtain ⟨f, hf, hre⟩ := getElem?_told hn
    have hlt : n < subs.length := hs.length ▸ (List.getElem?_eq_some_iff.mp hf).1
    exact ⟨subs[n], f, List.getElem?_eq_getElem hlt, hf, hs.filling (List.getElem?_eq_getElem hlt) hf, hre⟩
  have hmem {f' : CDir ν κ} (hf : f' ∈ ((s.2.map fun f => f.fixUp i).modifyHead fun f =>
      f.give (d.addDiffs i (.zero, .zero)))) :
      ∃ (n : ℕ) (f₀ f : CDir ν κ), subs[n]? = some f₀ ∧ s.2[n]? = some f ∧ Filling f₀ f ∧ Restated i f f' := by
    obtain ⟨n, hn⟩ := List.mem_iff_getElem?.mp hf
    exact ⟨n, htold hn⟩
  have hchild {n : ℕ} {f₀ f f' : CDir ν κ} (hf₀ : subs[n]? = some f₀) (hfill : Filling f₀ f) (hre : Restated i f f') :
      n < 2 ^ bits ∧ f'.frag = d.frag.child bits h n := by
    obtain ⟨fnode, rfl, -⟩ := hre
    have hlt : n < 2 ^ bits := hlength ▸ (List.getElem?_eq_some_iff.mp hf₀).1
    have hframe : f.frag = f₀.frag := (congrArg (fun x : CDir ν κ => x.frag) hfill.frame :)
    have hn := congrArg (fun l => l[n]?) hfrags
    simp only [List.getElem?_map, hf₀, Option.map_some, List.getElem?_range hlt, Option.some_inj] at hn
    exact ⟨hlt, hframe.trans hn⟩
  have hne : s.2 ≠ [] := by
    rw [← List.length_pos_iff_ne_nil, hs.length, hlength]
    exact Nat.two_pow_pos bits
  have hsummed : ∀ f ∈ s.2, Summed f := by
    intro f hf
    obtain ⟨n, hn⟩ := List.mem_iff_getElem?.mp hf
    have hlt : n < subs.length := hs.length ▸ (List.getElem?_eq_some_iff.mp hn).1
    exact (hs.filling (List.getElem?_eq_getElem hlt) hn).summed
  have hsums {M : Type} [AddCommGroup M] (w : Dentry → M) : (s.2.map fun f => total w f.items).sum = total w d.items := by
    have := hs.sums w
    rwa [total_of_isEmpty w hs.empty, add_zero, hitems] at this
  obtain ⟨h₁, h₂, h₃, h₄⟩ := sum_told (i := i) hne hsummed (d.addDiffs i (.zero, .zero))
  constructor
  · rw [List.length_modifyHead, List.length_map, hs.length, hlength]
  · intro n f' hn
    obtain ⟨f₀, f, hf₀, -, hfill, hre⟩ := htold hn
    exact (hchild hf₀ hfill hre).2
  · intro f' hf
    obtain ⟨n, f₀, f, hf₀, -, hfill, ⟨fnode, rfl, -⟩⟩ := hmem hf
    have hframe : f.isAuth = f₀.isAuth := (congrArg (fun x : CDir ν κ => x.isAuth) hfill.frame :)
    exact hframe.trans (hall f₀ (List.mem_of_getElem? hf₀)).1
  · intro f' hf
    obtain ⟨n, f₀, f, hf₀, -, hfill, hre⟩ := hmem hf
    exact hre.sound ((hall f₀ (List.mem_of_getElem? hf₀)).2.congr hfill.frame)
  · intro f' hf
    obtain ⟨n, f₀, f, -, -, hfill, hre⟩ := hmem hf
    exact hre.held hfill.held
  · intro f' hf
    obtain ⟨n, f₀, f, -, -, hfill, hre⟩ := hmem hf
    exact hre.counted hfill.counted
  · intro f' hf
    obtain ⟨n, f₀, f, -, -, hfill, hre⟩ := hmem hf
    exact hre.summed hfill.summed
  · intro f' k hf
    obtain ⟨n, f₀, f, hf₀, hget, hfill, hre⟩ := hmem hf
    obtain ⟨hlt, hfrag⟩ := hchild hf₀ hfill hre
    obtain ⟨fnode, rfl, -⟩ := hre
    show f.items[k]? = _
    rw [hs.items k hget, hfrag, hitems]
    cases hk : d.items[k]? with
    | none => rw [Option.filter_none, ite_self, Option.filter_none]
    | some dn =>
      have hplace : decide (placeOf i d.frag dn = n) = (d.frag.child bits h n).contains (i.hashDentryName dn.name) := by
        rw [Bool.eq_iff_iff, decide_eq_true_eq, Leading.contains_child_iff h hlt, placeOf_eq hc (hv hk)]
        exact (and_iff_right (hv hk)).symm
      rw [if_pos (mem_itemKeys.mpr ⟨dn, hk⟩), Option.filter_some, Option.filter_some, hplace]
  · intro f' hf
    obtain ⟨n, f₀, f, -, -, -, ⟨fnode, -, -, -, htold'⟩⟩ := hmem hf
    exact htold'
  · rw [h₁, hsums]
  · rw [h₂, hsums]
  · rw [h₃, hsums, (addDiffs_count d i _).2]
    exact congrArg (total Dentry.fragCount d.items + ·) (zero_add _)
  · rw [h₄, hsums, (addDiffs_count d i _).1]
    exact congrArg (total Dentry.nestCount d.items + ·) (zero_add _)

/-- No assertion of `split` fails, the old dirfrag is left with nothing, and the new ones have all of it. -/
theorem split_ok (hd : Sound 0 replay d) (hh : Held d) (h : d.frag.bits + bits ≤ 24)
    (hc : i.dirfragtree.SplitAt d.frag bits h)
    (hv : ∀ {k : Key} {dn : Dentry}, d.items[k]? = some dn → d.frag.contains (i.hashDentryName dn.name) = true) :
    ∃ old subs, d.split i bits h replay = .ok (old, subs) ∧ old.items.isEmpty = true ∧
      old.getNumRef = d.sticky.toNat ∧ Parted i d bits h replay subs := by
  obtain ⟨z, hprep, -, -⟩ := prepareOldFragment_eq d replay
  set d' := d.prepareOldFragment replay with hd'
  have hsound : Sound (d'.isAuth && !replay).toNat replay d' := by
    rw [prepareOldFragment_isAuth]
    exact hd.prepare
  have hauth' : d'.isAuth = d.isAuth := prepareOldFragment_isAuth d replay
  have hitems : d'.items = d.items := by rw [hprep]
  obtain ⟨subs, hsubs, hfrags, hall⟩ := subfrags_ok hsound.replicas i replay
    ((List.range (2 ^ bits)).map (d.frag.child bits h))
  have hlength : subs.length = 2 ^ bits := by
    have := congrArg List.length hfrags
    simpa using this
  obtain ⟨s, hdeal, hs⟩ := deal_ok (i := i) d.frag hh.prepare hsound.quiet
    (fun f hf => ⟨(hall f hf).2.1, (hall f hf).2.2.1.quiet, (hall f hf).2.2.2⟩)
    (fun {k dn} hk => by rw [hlength, placeOf_eq hc (hv (hitems ▸ hk))]; exact d.frag.childOf_lt bits _)
  have hempty : s.1.items.isEmpty = true := hs.empty
  have hsticky' : d'.sticky = d.sticky := by rw [hprep]
  have hsticky : s.1.sticky = d.sticky := (congrArg (fun x : CDir ν κ => x.sticky) hs.frame :).trans hsticky'
  have hauth : s.1.isAuth = d'.isAuth := (congrArg (fun x : CDir ν κ => x.isAuth) hs.frame :)
  have hready : Sound (s.1.isAuth && !replay).toNat replay s.1 := by
    rw [hauth]
    exact hsound.congr hs.frame
  obtain ⟨old, hold, hold', href⟩ := finishOldFragment_ok (i := i) hready hs.held hempty
  refine ⟨old, _, ?_, hold', href.trans (congrArg Bool.toNat hsticky),
    parted_of_dealt h hc hv hitems hlength hfrags (fun f hf => ⟨(hall f hf).1.trans hauth', (hall f hf).2.2.1⟩) hs⟩
  have hassert : (replay || d.complete || !d.isAuth) = true := by
    cases hr : replay with
    | true => rfl
    | false =>
      cases ha : d.isAuth with
      | false => rw [Bool.not_false, Bool.or_true]
      | true => rw [hd.complete hr ha]; rfl
  rw [split]
  exact bind_ok.mpr ⟨(), assert_ok.mpr hassert, bind_ok.mpr ⟨subs, hsubs, bind_ok.mpr ⟨s, hdeal,
    bind_ok.mpr ⟨old, hold, rfl⟩⟩⟩⟩

end CDir

end CephMds.Refragment
