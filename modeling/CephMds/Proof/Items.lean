import CephMds.Model.Items
import CephMds.Proof.DentryKey

/-!
# The counters of the dentries

`Kept` says of a dirfrag that its items are keyed by their own keys, that
`PIN_CHILD` is held while there are any, and which dentries have
`PIN_FRAGMENTING`; `Counted` that the four counters are the numbers of dentries
of the four kinds. A function whose preconditions are met returns and keeps
both; `steal_dentry` keeps `Kept` of both dirfrags and `Counted` of the new one.
-/

namespace CephMds.Items

open Checked Dentries Writes

namespace CDir

variable {d d' : CDir} {k : Key} {dn : Dentry}

/-- A kind of dentries. -/
def isKind (head null : Bool) (dn : Dentry) : Bool := dn.isHead == head && dn.isNull == null

/-- The counter of a kind. -/
def counter (d : CDir) : Bool → Bool → ℤ
  | true, true => d.numHeadNull
  | true, false => d.numHeadItems
  | false, true => d.numSnapNull
  | false, false => d.numSnapItems

structure Kept (d : CDir) : Prop where
  keyed : ∀ (k : Key) (dn : Dentry), d.items[k]? = some dn → dn.key = k
  child : d.child = if d.items.isEmpty then 0 else 1
  pinned : d.dnPinnedFrag = true → ∀ (k : Key) (dn : Dentry), d.items[k]? = some dn → dn.fragmenting = 1
  notPinned : d.dnPinnedFrag = false → ∀ (k : Key) (dn : Dentry), d.items[k]? = some dn → dn.stolen = false →
    dn.fragmenting = 0

def Counted (d : CDir) : Prop := ∀ head null, d.counter head null = tally (isKind head null) d.items

/-! ## Counting -/

theorem length_eq_countP (l : List (Key × Dentry)) : l.length =
    l.countP (fun q => isKind true false q.2) + l.countP (fun q => isKind true true q.2) +
      l.countP (fun q => isKind false false q.2) + l.countP (fun q => isKind false true q.2) := by
  induction l with
  | nil => rfl
  | cons p l ih =>
    simp only [List.length_cons, List.countP_cons, ih, isKind]
    cases p.2.isHead <;> cases p.2.isNull <;> simp <;> omega

theorem Counted.getNumAny (h : Counted d) : d.getNumAny = d.items.size := by
  have h₁ := h true false
  have h₂ := h true true
  have h₃ := h false false
  have h₄ := h false true
  have hsize := length_eq_countP d.items.toList
  rw [Std.ExtTreeMap.length_toList] at hsize
  simp only [counter, tally] at h₁ h₂ h₃ h₄
  rw [CDir.getNumAny, h₁, h₂, h₃, h₄, hsize]
  push_cast
  ring

theorem counter_count (d : CDir) (h n : Bool) (z : ℤ) (head null : Bool) :
    (d.count h n z).counter head null = d.counter head null + if head = h ∧ null = n then z else 0 := by
  cases h <;> cases n <;> cases head <;> cases null <;> simp [count, counter]

@[simp] theorem count_items (d : CDir) (h n : Bool) (z : ℤ) : (d.count h n z).items = d.items := by
  cases h <;> cases n <;> rfl

@[simp] theorem count_child (d : CDir) (h n : Bool) (z : ℤ) : (d.count h n z).child = d.child := by
  cases h <;> cases n <;> rfl

@[simp] theorem count_dnPinnedFrag (d : CDir) (h n : Bool) (z : ℤ) :
    (d.count h n z).dnPinnedFrag = d.dnPinnedFrag := by
  cases h <;> cases n <;> rfl

@[simp] theorem count_corpse (d : CDir) (h n : Bool) (z : ℤ) : (d.count h n z).corpse = d.corpse := by
  cases h <;> cases n <;> rfl

theorem isKind_toNat (dn : Dentry) (head null : Bool) :
    ((isKind head null dn).toNat : ℤ) = if head = dn.isHead ∧ null = dn.isNull then 1 else 0 := by
  rw [isKind]
  cases dn.isHead <;> cases dn.isNull <;> cases head <;> cases null <;> rfl

/-- The counters follow an insertion. -/
theorem Counted.insert (h : Counted d) (hk : d.items[k]? = none) (dn : Dentry) :
    Counted ({ d with items := d.items.insert k dn }.count dn.isHead dn.isNull 1) := by
  intro head null
  rw [counter_count, count_items, tally_insert _ hk]
  push_cast
  rw [isKind_toNat, ← h head null]
  rfl

theorem Counted.erase (h : Counted d) (hk : d.items[k]? = some dn) :
    Counted { (d.count dn.isHead dn.isNull (-1)) with items := d.items.erase k } := by
  intro head null
  have ht := tally_erase (isKind head null) hk
  have hc := h head null
  have hi := isKind_toNat dn head null
  show (d.count dn.isHead dn.isNull (-1)).counter head null = tally (isKind head null) (d.items.erase k)
  rw [counter_count, hc, ht]
  push_cast
  rw [hi]
  split <;> omega

theorem Counted.relink (h : Counted d) (hk : d.items[dn.key]? = some dn) (l : Linkage) : Counted (d.relink dn l) := by
  intro head null
  have ht := tally_replace (isKind head null) hk { dn with linkage := l }
  have hi := isKind_toNat dn head null
  have hi' := isKind_toNat { dn with linkage := l } head null
  rw [CDir.relink, counter_count, counter_count, count_items, count_items]
  have hc : d.counter head null = tally (isKind head null) d.items := h head null
  change d.counter head null + _ + _ = _
  have ht' : (tally (isKind head null) (d.items.insert dn.key { dn with linkage := l }) : ℤ) +
      ((isKind head null dn).toNat : ℤ) = tally (isKind head null) d.items +
      ((isKind head null { dn with linkage := l }).toNat : ℤ) := by exact_mod_cast ht
  rw [hi, hi'] at ht'
  have hneg : (if head = dn.isHead ∧ null = dn.isNull then (-1 : ℤ) else 0) =
      -(if head = dn.isHead ∧ null = dn.isNull then (1 : ℤ) else 0) := by
    split <;> rfl
  rw [hneg, hc]
  change _ = _ + (if head = dn.isHead ∧ null = l.isNull then (1 : ℤ) else 0) at ht'
  linarith

/-- A dentry of the same kind takes the place of another. -/
theorem Counted.replace (h : Counted d) (hk : d.items[k]? = some dn) {dn' : Dentry}
    (hhead : dn'.isHead = dn.isHead) (hnull : dn'.isNull = dn.isNull) :
    Counted { d with items := d.items.insert k dn' } := by
  intro head null
  have ht := tally_replace (isKind head null) hk dn'
  have heq : isKind head null dn' = isKind head null dn := by rw [isKind, isKind, hhead, hnull]
  rw [heq] at ht
  show d.counter head null = tally (isKind head null) (d.items.insert k dn')
  rw [h head null]
  omega

/-! ## The items -/

theorem items_isEmpty_iff : d.items.isEmpty = true ↔ ∀ k : Key, d.items[k]? = none := by
  rw [Std.ExtTreeMap.isEmpty_iff, Std.ExtTreeMap.eq_empty_iff_size_eq_zero, size_eq_zero_iff]

theorem items_isEmpty_eq_false (hk : d.items[k]? = some dn) : d.items.isEmpty = false := by
  rw [Bool.eq_false_iff]
  intro h
  rw [items_isEmpty_iff.mp h k] at hk
  cases hk

theorem Counted.getNumAny_eq_zero (h : Counted d) : (d.getNumAny == 0) = d.items.isEmpty := by
  rw [h.getNumAny, Std.ExtTreeMap.isEmpty_eq_size_beq_zero]
  rw [Bool.eq_iff_iff]
  simp

theorem checkSize_of_counted (h : Counted d) : d.checkSize = .ok d := by
  simp only [checkSize, bind_ok, assert_ok, pure_ok, h.getNumAny, beq_self_eq_true]
  exact ⟨(), trivial, trivial⟩

/-- One dentry is inserted or replaced. -/
theorem Kept.insert (h : Kept d) (hkey : dn.key = k)
    (hp : d.dnPinnedFrag = true → dn.fragmenting = 1)
    (hn : d.dnPinnedFrag = false → dn.stolen = false → dn.fragmenting = 0) :
    Kept { d with items := d.items.insert k dn, child := 1 } := by
  have hcases : ∀ {k' : Key} {dn' : Dentry}, (d.items.insert k dn)[k']? = some dn' →
      k' = k ∧ dn' = dn ∨ d.items[k']? = some dn' := by
    intro k' dn' hk'
    rw [getElem?_insert] at hk'
    split at hk'
    · rename_i he
      cases hk'
      exact .inl ⟨he, rfl⟩
    · exact .inr hk'
  refine ⟨fun k' dn' hk' => ?_, ?_, fun hf k' dn' hk' => ?_, fun hf k' dn' hk' hs => ?_⟩
  · rcases hcases hk' with ⟨rfl, rfl⟩ | hk'
    · exact hkey
    · exact h.keyed k' dn' hk'
  · have hne := items_isEmpty_eq_false (d := { d with items := d.items.insert k dn }) (k := k)
      ((getElem?_insert d.items k k dn).trans (if_pos rfl))
    show 1 = if (d.items.insert k dn).isEmpty then 0 else 1
    rw [hne]
    rfl
  · rcases hcases hk' with ⟨-, rfl⟩ | hk'
    · exact hp hf
    · exact h.pinned hf k' dn' hk'
  · rcases hcases hk' with ⟨-, rfl⟩ | hk'
    · exact hn hf hs
    · exact h.notPinned hf k' dn' hk' hs

/-- One dentry is removed. -/
theorem Kept.erase (h : Kept d) {n : ℕ} (hn : n = if (d.items.erase k).isEmpty then 0 else 1) :
    Kept { d with items := d.items.erase k, child := n } := by
  have hcases : ∀ {k' : Key} {dn' : Dentry}, (d.items.erase k)[k']? = some dn' → d.items[k']? = some dn' := by
    intro k' dn' hk'
    rw [getElem?_erase] at hk'
    split at hk'
    · cases hk'
    · exact hk'
  exact ⟨fun k' dn' hk' => h.keyed k' dn' (hcases hk'), hn, fun hf k' dn' hk' => h.pinned hf k' dn' (hcases hk'),
    fun hf k' dn' hk' => h.notPinned hf k' dn' (hcases hk')⟩

theorem Kept.child_of_getElem? (h : Kept d) (hk : d.items[k]? = some dn) : d.child = 1 := by
  rw [h.child, items_isEmpty_eq_false hk]
  rfl

/-- The counters do not matter to `Kept`. -/
theorem Kept.congr (h : Kept d) (hi : d'.items = d.items) (hc : d'.child = d.child)
    (hf : d'.dnPinnedFrag = d.dnPinnedFrag) : Kept d' := by
  refine ⟨?_, ?_, ?_, ?_⟩
  · rw [hi]
    exact h.keyed
  · rw [hi, hc]
    exact h.child
  · rw [hi, hf]
    exact h.pinned
  · rw [hi, hf]
    exact h.notPinned

/-! ## The functions -/

/-- A function that returns and keeps the dirfrag as it should be. -/
def Keeps (d : CDir) (x : Checked CDir) (items : Std.ExtTreeMap Key Dentry) : Prop :=
  ∃ d', x = .ok d' ∧ Kept d' ∧ Counted d' ∧ d'.items = items ∧ d'.corpse = d.corpse ∧ d'.dnPinnedFrag = d.dnPinnedFrag

theorem addDentry_keeps (h : Kept d) (hc : Counted d) (hk : d.items.contains dn.key = false)
    (hf : dn.fragmenting = 0) : ∃ items, Keeps d (d.addDentry dn) items := by
  set dn' := if d.dnPinnedFrag then { dn with fragmenting := dn.fragmenting + 1, stateFragmenting := true } else dn
    with hdn'
  have hkey : dn'.key = dn.key := by
    rw [hdn']
    split <;> rfl
  have hnone : d.items[dn'.key]? = none := by
    rw [hkey]
    exact Std.ExtTreeMap.getElem?_eq_none_of_contains_eq_false hk
  have hcount := hc.insert hnone dn'
  refine ⟨d.items.insert dn'.key dn', ?_⟩
  set d₁ := { d with items := d.items.insert dn'.key dn' }.count dn'.isHead dn'.isNull 1 with hd₁
  set d₂ := if d₁.getNumAny = 1 then { d₁ with child := d₁.child + 1 } else d₁ with hd₂
  have hsize : d₁.getNumAny = d.items.size + 1 := by
    rw [hcount.getNumAny, hd₁, count_items]
    rw [Std.ExtTreeMap.size_insert, hkey, if_neg (by rw [hk]; exact Bool.false_ne_true)]
    push_cast
    rfl
  -- The first dentry takes the pin.
  have hchild : d₂.child = 1 := by
    rw [hd₂, hsize]
    have hempty : d.items.isEmpty = (d.items.size == 0) := Std.ExtTreeMap.isEmpty_eq_size_beq_zero
    have hchild := h.child
    rw [hempty] at hchild
    by_cases h0 : d.items.size = 0
    · rw [if_pos (by omega)]
      show d₁.child + 1 = 1
      rw [hd₁, count_child, hchild, h0]
      rfl
    · rw [if_neg (by omega), hd₁, count_child, hchild, if_neg (by simpa using h0)]
  have hfields : d₂.items = d.items.insert dn'.key dn' ∧ d₂.corpse = d.corpse ∧ d₂.dnPinnedFrag = d.dnPinnedFrag := by
    rw [hd₂]
    split <;> simp [hd₁]
  have hcount₂ : Counted d₂ := by
    rw [hd₂]
    split
    · exact hcount
    · exact hcount
  have hkept : Kept { d with items := d.items.insert dn'.key dn', child := 1 } := by
    refine h.insert rfl (fun hp => ?_) (fun hp _ => ?_)
    · rw [hdn', if_pos hp]
      show dn.fragmenting + 1 = 1
      rw [hf]
    · rw [hdn', if_neg (by rw [hp]; exact Bool.false_ne_true)]
      exact hf
  refine ⟨d₂, ?_, ?_, hcount₂, hfields⟩
  · simp only [addDentry, bind_ok, assert_ok]
    exact ⟨(), by simp [hk], checkSize_of_counted hcount₂⟩
  · exact hkept.congr hfields.1 hchild hfields.2.2

theorem relink_keeps (h : Kept d) (hc : Counted d) (hk : d.items[k]? = some dn) (l : Linkage) :
    Keeps d (d.relink dn l).checkSize (d.items.insert k { dn with linkage := l }) := by
  have hkey := h.keyed k dn hk
  have hcount := hc.relink (hkey.symm ▸ hk) l
  have hkept : Kept { d with items := d.items.insert k { dn with linkage := l }, child := 1 } :=
    h.insert hkey (fun hp => h.pinned hp k dn hk) (fun hp hs => h.notPinned hp k dn hk hs)
  have hitems : (d.relink dn l).items = d.items.insert k { dn with linkage := l } := by
    rw [relink, count_items, count_items, hkey]
  refine ⟨d.relink dn l, checkSize_of_counted hcount, hkept.congr hitems ?_ ?_, hcount, hitems, ?_, ?_⟩
  · rw [relink, count_child, count_child]
    exact h.child_of_getElem? hk
  · rw [relink, count_dnPinnedFrag, count_dnPinnedFrag]
  · rw [relink, count_corpse, count_corpse]
  · rw [relink, count_dnPinnedFrag, count_dnPinnedFrag]

theorem link_keeps (h : Kept d) (hc : Counted d) (hk : d.items[k]? = some dn) (hnull : dn.isNull = true)
    (l : Linkage) : Keeps d (d.link k l) (d.items.insert k { dn with linkage := l }) := by
  have hlink : d.link k l = (d.relink dn l).checkSize := by
    rw [link, hk, deref_some_bind, hnull, assert_true_bind]
  rw [hlink]
  exact relink_keeps h hc hk l

theorem unlinkInode_keeps (h : Kept d) (hc : Counted d) (hk : d.items[k]? = some dn) (hnull : dn.isNull = false) :
    Keeps d (d.unlinkInode k) (d.items.insert k { dn with linkage := .null }) := by
  have hunlink : d.unlinkInode k = (d.relink dn .null).checkSize := by
    rw [unlinkInode, hk, deref_some_bind, if_neg (by rw [hnull]; exact Bool.false_ne_true)]
  rw [hunlink]
  exact relink_keeps h hc hk .null

theorem removeDentry_keeps (h : Kept d) (hc : Counted d) (hk : d.items[k]? = some dn) (hl : dn.leases = false) :
    Keeps d (d.removeDentry k) (d.items.erase k) := by
  have hkey := h.keyed k dn hk
  have hcount := hc.erase hk
  set d₁ := { (d.count dn.isHead dn.isNull (-1)) with items := d.items.erase k } with hd₁
  have hchild : d₁.child = 1 := (count_child d _ _ _).trans (h.child_of_getElem? hk)
  have hunpin : ∃ d₂, d₁.unpinChild (d₁.getNumAny == 0) = .ok d₂ ∧
      d₂ = { d₁ with child := if (d.items.erase k).isEmpty then 0 else 1 } := by
    rw [hcount.getNumAny_eq_zero, unpinChild]
    show ∃ d₂, (if (d.items.erase k).isEmpty = true then d₁.putChild else pure d₁) = .ok d₂ ∧ _
    split
    · refine ⟨_, ?_, rfl⟩
      rw [putChild, hchild]
      rfl
    · refine ⟨_, rfl, ?_⟩
      rw [← hchild]
  obtain ⟨d₂, hok, hd₂⟩ := hunpin
  have hcount₂ : Counted d₂ := by
    rw [hd₂]
    exact hcount
  have hkept := h.erase (k := k) rfl
  refine ⟨d₂, ?_, ?_, hcount₂, ?_, ?_, ?_⟩
  · simp only [removeDentry, bind_ok, assert_ok, deref_ok]
    refine ⟨dn, hk, (), by rw [hl]; rfl, (), ?_, (), ?_, d₂, ?_, checkSize_of_counted hcount₂⟩
    · cases hp : d.dnPinnedFrag with
      | false => rfl
      | true => simp [h.pinned hp k dn hk]
    · rw [count_items, hkey, Std.ExtTreeMap.contains_eq_isSome_getElem?, hk]
      rfl
    · rw [count_items, hkey]
      exact hok
  · refine hkept.congr ?_ ?_ ?_ <;> rw [hd₂]
    exact count_dnPinnedFrag d _ _ _
  · rw [hd₂]
  · rw [hd₂]
    exact count_corpse d _ _ _
  · rw [hd₂]
    exact count_dnPinnedFrag d _ _ _

/-- Nothing is done. -/
theorem pure_keeps (h : Kept d) (hc : Counted d) : Keeps d (pure d) d.items := ⟨d, rfl, h, hc, rfl, rfl, rfl⟩

theorem leases_of_numRef (h : dn.numRef = dn.dirty.toNat) : dn.leases = false := by
  cases hl : dn.leases with
  | false => rfl
  | true =>
    simp only [Dentry.numRef, hl, Bool.toNat_true] at h
    omega

theorem removeIf_keeps (h : Kept d) (hc : Counted d) (hk : d.items[k]? = some dn) {b : Bool}
    (hb : b = true → dn.leases = false) : ∃ items, Keeps d (if b then d.removeDentry k else pure d) items := by
  split
  · rename_i hb'
    exact ⟨_, removeDentry_keeps h hc hk (hb hb')⟩
  · exact ⟨_, pure_keeps h hc⟩

theorem tryRemoveUnlinkedDn_keeps (h : Kept d) (hc : Counted d) (hk : d.items[k]? = some dn)
    (hnull : dn.isNull = true) : ∃ items, Keeps d (d.tryRemoveUnlinkedDn k) items := by
  have heq : d.tryRemoveUnlinkedDn k = if dn.numRef ≠ dn.dirty.toNat then pure d
      else if dn.isNew then d.removeDentry k else pure d := by
    rw [tryRemoveUnlinkedDn, hk, deref_some_bind, hnull, assert_true_bind]
  rw [heq]
  split
  · exact ⟨_, pure_keeps h hc⟩
  · rename_i hr
    exact removeIf_keeps h hc hk fun _ => leases_of_numRef (not_not.mp hr)

theorem tryTrimSnapDentry_keeps (h : Kept d) (hc : Counted d) (hk : d.items[k]? = some dn)
    (hhead : dn.isHead = false) (snaps : Finset Snapid) : ∃ items, Keeps d (d.tryTrimSnapDentry k snaps) items := by
  have hlast : (dn.last ≠ cephNosnap : Bool) = true := by simpa [Dentry.isHead] using hhead
  rw [tryTrimSnapDentry, hk, deref_some_bind, hlast, assert_true_bind]
  refine removeIf_keeps h hc hk fun hcond => leases_of_numRef ?_
  simp only [Bool.and_eq_true, beq_iff_eq] at hcond
  exact hcond.1.2

/-! ## The loops -/

/-- The entries of a list are items of the dirfrag, under different keys. -/
def Lists (d : CDir) (ps : List (Key × Dentry)) : Prop :=
  (ps.map Prod.fst).Nodup ∧ ∀ p ∈ ps, d.items[p.1]? = some p.2

theorem lists_toList (d : CDir) : Lists d d.items.toList := by
  refine ⟨?_, fun p hp => Std.ExtTreeMap.mem_toList_iff_getElem?_eq_some.mp hp⟩
  refine List.Pairwise.map Prod.fst (fun p q h he => ?_) d.items.distinct_keys_toList
  exact h (by rw [he, Std.compare_self])

/-- The rest of the list is still there when only the first entry has changed. -/
theorem Lists.tail {p : Key × Dentry} {ps : List (Key × Dentry)} (h : Lists d (p :: ps))
    (hd : ∀ k, k ≠ p.1 → d'.items[k]? = d.items[k]?) : Lists d' ps := by
  obtain ⟨hnodup, hmem⟩ := h
  rw [List.map_cons, List.nodup_cons] at hnodup
  refine ⟨hnodup.2, fun q hq => ?_⟩
  rw [hd q.1 fun he => hnodup.1 (List.mem_map.mpr ⟨q, hq, he⟩)]
  exact hmem q (List.mem_cons_of_mem p hq)

theorem removeNull_loop {ps : List (Key × Dentry)} (h : Kept d) (hc : Counted d) (hps : Lists d ps)
    (hl : ∀ p ∈ ps, p.2.isNull = true → p.2.projected = false ∧ p.2.leases = false) :
    ∃ d', ps.foldlM (fun (d : CDir) p => if p.2.isNull && !p.2.projected then d.removeDentry p.1 else pure d) d =
        .ok d' ∧ Kept d' ∧ Counted d' ∧ d'.corpse = d.corpse ∧ d'.dnPinnedFrag = d.dnPinnedFrag ∧
      (∀ (k : Key) (dn : Dentry), d'.items[k]? = some dn → d.items[k]? = some dn) ∧
      ∀ p ∈ ps, p.2.isNull = true → d'.items[p.1]? = none := by
  induction ps generalizing d with
  | nil => exact ⟨d, rfl, h, hc, rfl, rfl, fun _ _ => id, fun p hp => by cases hp⟩
  | cons p ps ih =>
    rw [List.foldlM_cons]
    have hp := hps.2 p List.mem_cons_self
    have htail := fun q hq => hl q (List.mem_cons_of_mem p hq)
    cases hnull : p.2.isNull with
    | false =>
      obtain ⟨d', hok, hk', hc', hco, hdf, hsub, hgone⟩ := ih h hc (hps.tail fun k _ => rfl) htail
      refine ⟨d', hok, hk', hc', hco, hdf, hsub, fun q hq hn => ?_⟩
      rcases List.mem_cons.mp hq with rfl | hq
      · rw [hnull] at hn
        cases hn
      · exact hgone q hq hn
    | true =>
      obtain ⟨hproj, hlease⟩ := hl p List.mem_cons_self hnull
      obtain ⟨d₁, hok₁, hk₁, hc₁, hi₁, hco₁, hdf₁⟩ := removeDentry_keeps h hc hp hlease
      have hother : ∀ k, k ≠ p.1 → d₁.items[k]? = d.items[k]? := by
        intro k hk
        rw [hi₁, getElem?_erase, if_neg hk]
      obtain ⟨d', hok, hk', hc', hco, hdf, hsub, hgone⟩ := ih hk₁ hc₁ (hps.tail hother) htail
      have hsub₁ : ∀ (k : Key) (dn : Dentry), d₁.items[k]? = some dn → d.items[k]? = some dn := by
        intro k dn hk
        rw [hi₁, getElem?_erase] at hk
        split at hk
        · cases hk
        · exact hk
      refine ⟨d', ?_, hk', hc', hco.trans hco₁, hdf.trans hdf₁, fun k dn hk => hsub₁ k dn (hsub k dn hk), ?_⟩
      · simp only [hproj, Bool.not_false, Bool.and_self, if_true, hok₁]
        exact hok
      · intro q hq hn
        rcases List.mem_cons.mp hq with rfl | hq
        · cases hg : d'.items[q.1]? with
          | none => rfl
          | some dn =>
            have := hsub _ _ hg
            rw [hi₁, getElem?_erase, if_pos rfl] at this
            cases this
        · exact hgone q hq hn

theorem tally_eq_zero {p : Dentry → Bool} (h : ∀ (k : Key) (dn : Dentry), d.items[k]? = some dn → p dn = false) :
    tally p d.items = 0 := by
  rw [tally, List.countP_eq_zero]
  intro q hq
  rw [h q.1 q.2 (Std.ExtTreeMap.mem_toList_iff_getElem?_eq_some.mp hq)]
  exact Bool.false_ne_true

theorem removeNullDentries_keeps (h : Kept d) (hc : Counted d)
    (hl : ∀ (k : Key) (dn : Dentry), d.items[k]? = some dn → dn.isNull = true →
      dn.projected = false ∧ dn.leases = false) : ∃ items, Keeps d d.removeNullDentries items := by
  have hlists := lists_toList d
  obtain ⟨d', hok, hk', hc', hco, hdf, hsub, hgone⟩ :=
    removeNull_loop h hc hlists fun p hp => hl p.1 p.2 (hlists.2 p hp)
  have hnull : ∀ (k : Key) (dn : Dentry), d'.items[k]? = some dn → dn.isNull = false := by
    intro k dn hk
    cases hn : dn.isNull with
    | false => rfl
    | true =>
      have := hgone (k, dn) (Std.ExtTreeMap.mem_toList_iff_getElem?_eq_some.mpr (hsub k dn hk)) hn
      rw [hk] at this
      cases this
  have hzero : ∀ head, d'.counter head true = 0 := by
    intro head
    rw [hc' head true, tally_eq_zero]
    · rfl
    · intro k dn hk
      rw [isKind, hnull k dn hk]
      simp
  refine ⟨d'.items, d', ?_, hk', hc', rfl, hco, hdf⟩
  simp only [removeNullDentries, bind_ok, assert_ok, beq_iff_eq]
  exact ⟨d', hok, (), hzero false, (), hzero true, checkSize_of_counted hc'⟩

theorem releaseForStray_same (clearDirty : Bool) (dn : Dentry) :
    (releaseForStray clearDirty dn).key = dn.key ∧ (releaseForStray clearDirty dn).isNull = dn.isNull ∧
    (releaseForStray clearDirty dn).fragmenting = dn.fragmenting ∧
    (releaseForStray clearDirty dn).stolen = dn.stolen := by
  unfold releaseForStray
  cases clearDirty <;> simp only [Bool.false_eq_true, if_false, if_true] <;> split <;>
    first
      | exact ⟨rfl, rfl, rfl, rfl⟩
      | (split <;> rename_i hl <;> refine ⟨rfl, ?_, rfl, rfl⟩ <;> simp_all [Dentry.isNull, Linkage.isNull])

theorem isHead_of_key {dn dn' : Dentry} (h : dn'.key = dn.key) : dn'.isHead = dn.isHead := by
  have hlast : dn'.last = dn.last := congrArg Key.snapid h
  rw [Dentry.isHead, Dentry.isHead, hlast]

/-- A dentry is replaced by one with the same key, kind and pin. -/
theorem replace_keeps (h : Kept d) (hc : Counted d) (hk : d.items[k]? = some dn) {dn' : Dentry}
    (hkey : dn'.key = dn.key) (hnull : dn'.isNull = dn.isNull) (hfrag : dn'.fragmenting = dn.fragmenting)
    (hst : dn'.stolen = dn.stolen) :
    Kept { d with items := d.items.insert k dn' } ∧ Counted { d with items := d.items.insert k dn' } := by
  have hkept : Kept { d with items := d.items.insert k dn', child := 1 } := by
    refine h.insert (hkey.trans (h.keyed k dn hk)) (fun hp => ?_) (fun hp hs => ?_)
    · rw [hfrag]
      exact h.pinned hp k dn hk
    · rw [hfrag]
      exact h.notPinned hp k dn hk (hst ▸ hs)
  refine ⟨hkept.congr rfl (h.child_of_getElem? hk) rfl, hc.replace hk (isHead_of_key hkey) hnull⟩

theorem removeForStray_loop (clearDirty : Bool) {ps : List (Key × Dentry)} (h : Kept d) (hc : Counted d)
    (hps : Lists d ps) : ∃ d', ps.foldlM (removeForStray clearDirty) d = .ok d' ∧ Kept d' ∧ Counted d' ∧
      d'.corpse = d.corpse ∧ d'.dnPinnedFrag = d.dnPinnedFrag := by
  induction ps generalizing d with
  | nil => exact ⟨d, rfl, h, hc, rfl, rfl⟩
  | cons p ps ih =>
    rw [List.foldlM_cons]
    have hp := hps.2 p List.mem_cons_self
    have hstep : ∃ d₁, removeForStray clearDirty d p = .ok d₁ ∧ Kept d₁ ∧ Counted d₁ ∧ d₁.corpse = d.corpse ∧
        d₁.dnPinnedFrag = d.dnPinnedFrag ∧ ∀ k, k ≠ p.1 → d₁.items[k]? = d.items[k]? := by
      rw [removeForStray]
      split
      · exact ⟨d, rfl, h, hc, rfl, rfl, fun _ _ => rfl⟩
      · obtain ⟨hkey, hnull, hfrag, hst⟩ := releaseForStray_same clearDirty p.2
        obtain ⟨hk₁, hc₁⟩ := replace_keeps h hc hp hkey hnull hfrag hst
        have hget : (d.items.insert p.1 (releaseForStray clearDirty p.2))[p.1]? =
            some (releaseForStray clearDirty p.2) := (getElem?_insert _ _ _ _).trans (if_pos rfl)
        dsimp only
        split
        · rename_i hr
          have hlease : (releaseForStray clearDirty p.2).leases = false := by
            cases hl : (releaseForStray clearDirty p.2).leases with
            | false => rfl
            | true =>
              simp only [Dentry.numRef, hl, Bool.toNat_true] at hr
              omega
          obtain ⟨d₂, hok, hk₂, hc₂, hi₂, hco, hdf⟩ := removeDentry_keeps hk₁ hc₁ hget hlease
          refine ⟨d₂, hok, hk₂, hc₂, hco, hdf, fun k hk => ?_⟩
          rw [hi₂, getElem?_erase, if_neg hk, getElem?_insert, if_neg hk]
        · refine ⟨_, rfl, hk₁, hc₁, rfl, rfl, fun k hk => ?_⟩
          rw [getElem?_insert, if_neg hk]
    obtain ⟨d₁, hok₁, hk₁, hc₁, hco₁, hdf₁, hother⟩ := hstep
    obtain ⟨d', hok, hk', hc', hco, hdf⟩ := ih hk₁ hc₁ (hps.tail hother)
    refine ⟨d', ?_, hk', hc', hco.trans hco₁, hdf.trans hdf₁⟩
    rw [hok₁]
    exact hok

theorem tryRemoveDentriesForStray_keeps (h : Kept d) (hc : Counted d) (snaprealm : Bool) :
    ∃ items, Keeps d (d.tryRemoveDentriesForStray snaprealm) items := by
  obtain ⟨d', hok, hk', hc', hco, hdf⟩ := removeForStray_loop (!snaprealm) h hc (lists_toList d)
  refine ⟨d'.items, if snaprealm then d' else { d' with stateDirty := false }, ?_, ?_⟩
  · rw [tryRemoveDentriesForStray, hok]
    rfl
  · split
    · exact ⟨hk', hc', rfl, hco, hdf⟩
    · exact ⟨hk'.congr rfl rfl rfl, hc', rfl, hco, hdf⟩

theorem touch_keeps (h : Kept d) (hc : Counted d) (hk : d.items[k]? = some dn) (t : Touch) :
    ∃ items, Keeps d (d.touch k t) items := by
  have hnull : (t.dentry dn).isNull = dn.isNull := by
    simp only [Touch.dentry, Dentry.isNull]
    cases dn.linkage <;> rfl
  obtain ⟨hk', hc'⟩ := replace_keeps h hc hk (show (t.dentry dn).key = dn.key from rfl) hnull rfl rfl
  refine ⟨_, _, ?_, hk', hc', rfl, rfl, rfl⟩
  rw [touch, hk, deref_some_bind]
  rfl

theorem has_iff {p : Dentry → Bool} : d.has k p = true ↔ ∃ dn, d.items[k]? = some dn ∧ p dn = true := by
  rw [has]
  cases d.items[k]? <;> simp

/-- A function whose preconditions are met returns, and keeps the dirfrag. -/
theorem perform_keeps (h : Kept d) (hc : Counted d) {o : Op} (ho : d.admits o = true) :
    ∃ items, Keeps d (d.perform o) items := by
  cases o with
  | addNull name first last =>
    have hk : d.items.contains ⟨name, last⟩ = false := by simpa [admits] using ho
    exact addDentry_keeps h hc hk rfl
  | addPrimary name i first last =>
    have hk : d.items.contains ⟨name, last⟩ = false := by simpa [admits] using ho
    exact addDentry_keeps h hc hk rfl
  | addRemote name ino dType first last =>
    have hk : d.items.contains ⟨name, last⟩ = false := by simpa [admits] using ho
    exact addDentry_keeps h hc hk rfl
  | linkPrimary k i =>
    obtain ⟨dn, hk, hn⟩ := has_iff.mp ho
    exact ⟨_, link_keeps h hc hk hn _⟩
  | linkRemote k ino dType =>
    obtain ⟨dn, hk, hn⟩ := has_iff.mp ho
    exact ⟨_, link_keeps h hc hk hn _⟩
  | unlink k =>
    obtain ⟨dn, hk, hn⟩ := has_iff.mp ho
    exact ⟨_, unlinkInode_keeps h hc hk (by simpa using hn)⟩
  | remove k =>
    obtain ⟨dn, hk, hl⟩ := has_iff.mp ho
    exact ⟨_, removeDentry_keeps h hc hk (by simpa using hl)⟩
  | tryRemoveUnlinked k =>
    obtain ⟨dn, hk, hn⟩ := has_iff.mp ho
    exact tryRemoveUnlinkedDn_keeps h hc hk hn
  | tryTrimSnap k snaps =>
    obtain ⟨dn, hk, hn⟩ := has_iff.mp ho
    exact tryTrimSnapDentry_keeps h hc hk (by simpa using hn) snaps
  | removeNull =>
    refine removeNullDentries_keeps h hc fun k dn hk hn => ?_
    have := List.all_eq_true.mp ho (k, dn) (Std.ExtTreeMap.mem_toList_iff_getElem?_eq_some.mpr hk)
    simpa [hn] using this
  | removeForStray snaprealm => exact tryRemoveDentriesForStray_keeps h hc snaprealm
  | touch k t =>
    obtain ⟨dn, hk, -⟩ := has_iff.mp ho
    exact touch_keeps h hc hk t

end CDir

open CDir

/-! ## Stealing -/

/-- The new dirfrag counts the dentry, and the old one does not have it any more. -/
theorem stealDentry_keeps {d old : CDir} {k : Key} {dn : Dentry} (h : Kept d) (hc : Counted d) (hold : Kept old)
    (hk : old.items[k]? = some dn) (hd : d.items[k]? = none) (hp : d.dnPinnedFrag = false) :
    ∃ d' old', stealDentry d old k = .ok (d', old') ∧ Kept d' ∧ Counted d' ∧ d'.corpse = d.corpse ∧ Kept old' ∧
      old'.corpse = true := by
  have hkey := hold.keyed k dn hk
  set dn' : Dentry := { dn with stolen := true } with hdn'
  set d₁ : CDir := { d with items := d.items.insert k dn' } with hd₁
  set d₂ := if d₁.getNumAny = 0 then { d₁ with child := d₁.child + 1 } else d₁ with hd₂
  have hany : d₁.getNumAny = d.items.size := hc.getNumAny
  have hchild : d₂.child = 1 := by
    have hchild := h.child
    rw [Std.ExtTreeMap.isEmpty_eq_size_beq_zero] at hchild
    rw [hd₂, hany]
    by_cases h0 : d.items.size = 0
    · rw [if_pos (by exact_mod_cast h0)]
      show d.child + 1 = 1
      rw [hchild, h0]
      rfl
    · rw [if_neg (by exact_mod_cast h0)]
      show d.child = 1
      rw [hchild, if_neg (by simpa using h0)]
  have hd₂' : d₂ = { d with items := d.items.insert k dn', child := 1 } := by
    rw [← hchild, hd₂]
    split <;> rfl
  have hkept : Kept { d with items := d.items.insert k dn', child := 1 } := by
    refine h.insert hkey (fun hf => ?_) (fun _ hs => ?_)
    · rw [hp] at hf
      cases hf
    · cases hs
  have hcount : Counted (d₂.count dn.isHead dn.isNull 1) := by
    rw [hd₂']
    exact Counted.insert (d := { d with child := 1 }) hc hd dn'
  set old₁ : CDir := { old with items := old.items.erase k, corpse := true } with hold₁
  have hold' : ∃ old', old₁.unpinChild (old.items.erase k).isEmpty = .ok old' ∧
      old' = { old₁ with child := if (old.items.erase k).isEmpty then 0 else 1 } := by
    have hone := hold.child_of_getElem? hk
    rw [unpinChild]
    split
    · refine ⟨_, ?_, rfl⟩
      rw [putChild, hone]
      rfl
    · refine ⟨_, rfl, ?_⟩
      rw [← hone]
  obtain ⟨old', hok, hold'⟩ := hold'
  refine ⟨d₂.count dn.isHead dn.isNull 1, old', ?_, ?_, hcount, ?_, ?_, ?_⟩
  · simp only [stealDentry, bind_ok, deref_ok, pure_ok]
    refine ⟨dn, hk, old', ?_, ?_⟩
    · rw [hkey]
      exact hok
    · rw [hkey]
  · rw [hd₂']
    exact hkept.congr (count_items _ _ _ _) (count_child _ _ _ _) (count_dnPinnedFrag _ _ _ _)
  · rw [hd₂', count_corpse]
  · rw [hold']
    exact (hold.erase rfl).congr rfl rfl rfl
  · rw [hold']

theorem finishOldFragment_keeps {d : CDir} (h : Kept d) (he : d.items.isEmpty = true) :
    Kept d.finishOldFragment ∧ Counted d.finishOldFragment := by
  refine ⟨h.congr rfl rfl rfl, fun head null => ?_⟩
  have hzero : tally (isKind head null) d.finishOldFragment.items = 0 := by
    refine tally_eq_zero fun k dn hk => ?_
    rw [show d.finishOldFragment.items = d.items from rfl, items_isEmpty_iff.mp he k] at hk
    cases hk
  rw [hzero]
  cases head <;> cases null <;> rfl

/-! ## Runs -/

namespace State

/-- What holds of all the dirfrags in every state. -/
def Tended (s : State) : Prop := ∀ i, Kept (s i) ∧ ((s i).corpse = false → Counted (s i))

theorem Tended.update {s : State} (h : Tended s) {i : ℕ} {d : CDir} (hk : Kept d)
    (hc : d.corpse = false → Counted d) : Tended (Function.update s i d) := by
  intro j
  by_cases hj : j = i
  · subst hj
    rw [Function.update_self]
    exact ⟨hk, hc⟩
  · rw [Function.update_of_ne hj]
    exact h j

theorem Tended.step {s : State} (h : Tended s) {a : Action} (ha : s.admits a = true) :
    ∃ s', s.step a = some s' ∧ Tended s' := by
  cases a with
  | op i o =>
    simp only [admits, Bool.and_eq_true, Bool.not_eq_eq_eq_not, Bool.not_true] at ha
    obtain ⟨items, d', hok, hk, hc, -, hco, -⟩ := perform_keeps (h i).1 ((h i).2 ha.1) ha.2
    refine ⟨Function.update s i d', ?_, h.update hk fun _ => hc⟩
    rw [State.step, hok]
    rfl
  | steal i old k =>
    simp only [admits, Bool.and_eq_true, Bool.not_eq_eq_eq_not, Bool.not_true, bne_iff_ne] at ha
    obtain ⟨⟨⟨⟨hne, hco⟩, hp⟩, hd⟩, hold⟩ := ha
    rw [Std.ExtTreeMap.contains_eq_isSome_getElem?, Option.isSome_iff_exists] at hold
    obtain ⟨dn, hdn⟩ := hold
    obtain ⟨d', old', hok, hk', hc', -, hkold, hcold⟩ := stealDentry_keeps (h i).1 ((h i).2 hco) (h old).1 hdn
      (Std.ExtTreeMap.getElem?_eq_none_of_contains_eq_false hd) hp
    refine ⟨Function.update (Function.update s old old') i d', ?_, ?_⟩
    · rw [State.step, hok]
      rfl
    · refine (h.update hkold fun hf => ?_).update hk' fun _ => hc'
      rw [hcold] at hf
      cases hf
  | finishOld i =>
    obtain ⟨hk, hc⟩ := finishOldFragment_keeps (h i).1 ha
    exact ⟨_, rfl, h.update hk fun _ => hc⟩

/-- Dirfrags without dentries. -/
def empty (dnPinnedFrag : ℕ → Bool) : State := fun i =>
  ⟨∅, 0, 0, 0, 0, 0, dnPinnedFrag i, false, false⟩

theorem tended_empty (dnPinnedFrag : ℕ → Bool) : Tended (empty dnPinnedFrag) := by
  intro i
  refine ⟨⟨fun k dn hk => ?_, rfl, fun _ k dn hk => ?_, fun _ k dn hk => ?_⟩, fun _ head null => ?_⟩
  · simp [empty] at hk
  · simp [empty] at hk
  · simp [empty] at hk
  · cases head <;> cases null <;> rfl

theorem run_tended {s : State} (h : Tended s) {as : List Action} (has : Meets step (fun s a => s.admits a = true) s as) :
    ∃ s', run step s as = some s' ∧ Tended s' := by
  induction as generalizing s with
  | nil => exact ⟨s, rfl, h⟩
  | cons a as ih =>
    obtain ⟨t, ht, hts⟩ := h.step has.1
    obtain ⟨s', hs', h'⟩ := ih hts (has.2 t ht)
    exact ⟨s', run_cons.mpr ⟨t, ht, hs'⟩, h'⟩

/-- The bookkeeping of the dentries: in every run the functions return, and the counters and pins
are those of the dentries that are there, but for the counters of a dirfrag that has lost a dentry
to `steal_dentry`. -/
theorem run_bookkeeping (dnPinnedFrag : ℕ → Bool) {as : List Action}
    (has : Meets step (fun s a => s.admits a = true) (empty dnPinnedFrag) as) :
    ∃ s, run step (empty dnPinnedFrag) as = some s ∧ ∀ i,
      (∀ (k : Key) (dn : Dentry), (s i).items[k]? = some dn → dn.key = k) ∧
      (s i).child = (if (s i).items.isEmpty then 0 else 1) ∧
      ((s i).dnPinnedFrag = true → ∀ (k : Key) (dn : Dentry), (s i).items[k]? = some dn → dn.fragmenting = 1) ∧
      ((s i).dnPinnedFrag = false → ∀ (k : Key) (dn : Dentry), (s i).items[k]? = some dn → dn.stolen = false →
        dn.fragmenting = 0) ∧
      ((s i).corpse = false →
        (s i).numHeadItems = tally (fun dn => dn.isHead && !dn.isNull) (s i).items ∧
        (s i).numHeadNull = tally (fun dn => dn.isHead && dn.isNull) (s i).items ∧
        (s i).numSnapItems = tally (fun dn => !dn.isHead && !dn.isNull) (s i).items ∧
        (s i).numSnapNull = tally (fun dn => !dn.isHead && dn.isNull) (s i).items ∧
        (s i).getNumAny = (s i).items.size) := by
  obtain ⟨s, hs, ht⟩ := run_tended (tended_empty dnPinnedFrag) has
  refine ⟨s, hs, fun i => ⟨(ht i).1.keyed, (ht i).1.child, (ht i).1.pinned, (ht i).1.notPinned, fun hc => ?_⟩⟩
  have hcount := (ht i).2 hc
  have hkind : ∀ head null, (fun dn : Dentry => isKind head null dn) =
      fun dn => (if head then dn.isHead else !dn.isHead) && (if null then dn.isNull else !dn.isNull) := by
    intro head null
    funext dn
    rw [isKind]
    cases head <;> cases null <;> simp
  have hof : ∀ head null, (s i).counter head null = tally
      (fun dn => (if head then dn.isHead else !dn.isHead) && (if null then dn.isNull else !dn.isNull)) (s i).items := by
    intro head null
    rw [hcount head null, ← hkind head null]
  exact ⟨hof true false, hof true true, hof false false, hof false true, hcount.getNumAny⟩

/-! ## Single runs -/

def oneKey : Key := ⟨[97], cephNosnap⟩

/-- A dentry is added to a dirfrag that is being refragmented, and stolen from it. -/
def stealOne : List Action := [.op 0 (.addRemote [97] 5 8 2 cephNosnap), .steal 1 0 oneKey]

/-- The dirfrag 0 is being refragmented. -/
def marked (i : ℕ) : Bool := i == 0

/-- The dentry is stolen, and the old dirfrag is finished. -/
theorem run_bookkeeping_steal : ∃ s, run step (empty marked) (stealOne ++ [.finishOld 0]) = some s ∧
    (s 0).numHeadItems = tally (fun dn => dn.isHead && !dn.isNull) (s 0).items ∧
    (s 1).numHeadItems = tally (fun dn => dn.isHead && !dn.isNull) (s 1).items := by
  have has : Meets step (fun s a => s.admits a = true) (empty marked) (stealOne ++ [.finishOld 0]) := by
    decide +kernel
  obtain ⟨s, hs, h⟩ := run_bookkeeping marked has
  refine ⟨s, hs, ?_, ?_⟩
  · refine ((h 0).2.2.2.2 ?_).1
    cases hs
    rfl
  · refine ((h 1).2.2.2.2 ?_).1
    cases hs
    rfl

/-- A dentry that is projected. -/
def projectOne : List Action := [.op 0 (.addNull [97] 2 cephNosnap),
  .op 0 (.touch oneKey ⟨false, false, true, false, 0, ⟨0, false, 0⟩⟩)]

/-- A dirfrag that has lost its dentry still counts it, and the dentry keeps its pin where it is
not refragmented; and `remove_null_dentries` stumbles over a null dentry that is projected. -/
theorem not_bookkeeping :
    (∃ s, run step (empty marked) stealOne = some s ∧ (s 0).numHeadItems = 1 ∧ (s 0).items.isEmpty = true ∧
      (s 1).dnPinnedFrag = false ∧ ((s 1).items[oneKey]?).map Dentry.fragmenting = some 1) ∧
    ∃ s, run step (empty fun _ => false) projectOne = some s ∧ (s 0).numHeadNull = 1 ∧
      step s (.op 0 .removeNull) = none := by
  refine ⟨⟨_, rfl, ?_, ?_, ?_, ?_⟩, ⟨_, rfl, ?_, ?_⟩⟩
  · decide +kernel
  · decide +kernel
  · decide +kernel
  · decide +kernel
  · decide +kernel
  · rfl

end State

end CephMds.Items
