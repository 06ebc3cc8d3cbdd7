import Mathlib.Tactic.Common
import Std.Data.ExtTreeMap

/-!
# Writes to a map

A write sets some keys of a map and removes others, as a list of keys with
their new values (`put`, `putAll`). Where all the writes of a key agree on its
value, the value after them is that one (`putAll_of_agree`), or the old one
when there are none. `tally` counts the values of a kind.
-/

namespace CephMds.Writes

universe u v

variable {κ : Type u} {β : Type v} [Ord κ] [Std.TransOrd κ]

/-- Sets a key, or removes it. -/
def put (m : Std.ExtTreeMap κ β) (p : κ × Option β) : Std.ExtTreeMap κ β :=
  match p.2 with
  | some b => m.insert p.1 b
  | none => m.erase p.1

def putAll (m : Std.ExtTreeMap κ β) (ps : List (κ × Option β)) : Std.ExtTreeMap κ β := ps.foldl put m

theorem putAll_append (m : Std.ExtTreeMap κ β) (ps qs : List (κ × Option β)) :
    putAll m (ps ++ qs) = putAll (putAll m ps) qs := List.foldl_append

variable [Std.LawfulEqOrd κ]

theorem getElem?_insert (m : Std.ExtTreeMap κ β) (a k : κ) (b : β) [Decidable (k = a)] :
    (m.insert a b)[k]? = if k = a then some b else m[k]? := by
  rw [Std.ExtTreeMap.getElem?_insert]
  by_cases h : k = a
  · simp [h]
  · simp [h, Ne.symm h]

theorem getElem?_erase (m : Std.ExtTreeMap κ β) (a k : κ) [Decidable (k = a)] :
    (m.erase a)[k]? = if k = a then none else m[k]? := by
  rw [Std.ExtTreeMap.getElem?_erase]
  by_cases h : k = a
  · simp [h]
  · simp [h, Ne.symm h]

theorem getElem?_put (m : Std.ExtTreeMap κ β) (p : κ × Option β) (k : κ) [Decidable (k = p.1)] :
    (put m p)[k]? = if k = p.1 then p.2 else m[k]? := by
  obtain ⟨a, b⟩ := p
  cases b with
  | some b => exact getElem?_insert m a k b
  | none => exact getElem?_erase m a k

/-- A key that is not written keeps its value. -/
theorem putAll_of_not_mem {m : Std.ExtTreeMap κ β} {ps : List (κ × Option β)} {k : κ}
    (h : k ∉ ps.map Prod.fst) : (putAll m ps)[k]? = m[k]? := by
  classical
  induction ps generalizing m with
  | nil => rfl
  | cons p ps ih =>
    rw [List.map_cons, List.mem_cons, not_or] at h
    show (putAll (put m p) ps)[k]? = _
    rw [ih h.2, getElem?_put, if_neg h.1]

/-- The value of a key is the old one, or one that is written. -/
theorem putAll_cases (m : Std.ExtTreeMap κ β) (ps : List (κ × Option β)) (k : κ) :
    (putAll m ps)[k]? = m[k]? ∨ ∃ p ∈ ps, p.1 = k ∧ (putAll m ps)[k]? = p.2 := by
  classical
  induction ps generalizing m with
  | nil => exact .inl rfl
  | cons p ps ih =>
    show (putAll (put m p) ps)[k]? = _ ∨ ∃ q ∈ p :: ps, q.1 = k ∧ (putAll (put m p) ps)[k]? = q.2
    rcases ih (put m p) with h | ⟨q, hq, hk, h⟩
    · rw [h, getElem?_put]
      by_cases hp : k = p.1
      · exact .inr ⟨p, List.mem_cons_self, hp.symm, if_pos hp⟩
      · exact .inl (if_neg hp)
    · exact .inr ⟨q, List.mem_cons_of_mem p hq, hk, h⟩

/-- All the writes of a key set the same value. -/
theorem putAll_of_agree {m : Std.ExtTreeMap κ β} {ps : List (κ × Option β)} {k : κ} {v : Option β}
    (h : ∀ p ∈ ps, p.1 = k → p.2 = v) (hk : k ∈ ps.map Prod.fst ∨ m[k]? = v) : (putAll m ps)[k]? = v := by
  classical
  induction ps generalizing m with
  | nil => exact hk.resolve_left (by simp)
  | cons p ps ih =>
    show (putAll (put m p) ps)[k]? = v
    refine ih (fun q hq => h q (List.mem_cons_of_mem p hq)) ?_
    rw [getElem?_put]
    by_cases hp : k = p.1
    · exact .inr ((if_pos hp).trans (h p List.mem_cons_self hp.symm))
    · rw [if_neg hp]
      rw [List.map_cons, List.mem_cons] at hk
      exact hk.imp_left fun hk => hk.resolve_left hp

/-! ## Counting -/

/-- The number of values with a property. -/
def tally (p : β → Bool) (m : Std.ExtTreeMap κ β) : ℕ := m.toList.countP fun q => p q.2

theorem nodup_toList (m : Std.ExtTreeMap κ β) : m.toList.Nodup := by
  refine m.distinct_keys_toList.imp fun {p q} h he => ?_
  apply h
  rw [he, Std.compare_self]

theorem toList_perm_of_getElem? {m : Std.ExtTreeMap κ β} {k : κ} {b : β} (h : m[k]? = some b) :
    m.toList.Perm ((k, b) :: (m.erase k).toList) := by
  classical
  have herase : (k, b) ∉ (m.erase k).toList := by
    rw [Std.ExtTreeMap.mem_toList_iff_getElem?_eq_some, getElem?_erase, if_pos rfl]
    simp
  rw [List.perm_ext_iff_of_nodup (nodup_toList m) (List.nodup_cons.mpr ⟨herase, nodup_toList _⟩)]
  intro q
  rw [List.mem_cons, Std.ExtTreeMap.mem_toList_iff_getElem?_eq_some (k := q.1),
    Std.ExtTreeMap.mem_toList_iff_getElem?_eq_some (k := q.1), getElem?_erase, Prod.ext_iff]
  by_cases hq : q.1 = k
  · simp [hq, h, eq_comm]
  · simp [hq]

theorem tally_erase {m : Std.ExtTreeMap κ β} {k : κ} {b : β} (p : β → Bool) (h : m[k]? = some b) :
    tally p m = tally p (m.erase k) + (p b).toNat := by
  rw [tally, (toList_perm_of_getElem? h).countP_eq, List.countP_cons, tally]
  cases p b <;> rfl

/-- The map before an insertion under a new key. -/
theorem erase_insert {m : Std.ExtTreeMap κ β} {k : κ} (h : m[k]? = none) (b : β) : (m.insert k b).erase k = m := by
  classical
  refine Std.ExtTreeMap.ext_getElem? fun a => ?_
  rw [getElem?_erase, getElem?_insert]
  split
  · rename_i ha
    rw [ha, h]
  · rfl

theorem tally_insert {m : Std.ExtTreeMap κ β} {k : κ} (p : β → Bool) (h : m[k]? = none) (b : β) :
    tally p (m.insert k b) = tally p m + (p b).toNat := by
  classical
  rw [tally_erase p (k := k) (b := b) (by rw [getElem?_insert, if_pos rfl]), erase_insert h]

/-- A value is replaced. -/
theorem tally_replace {m : Std.ExtTreeMap κ β} {k : κ} {b : β} (p : β → Bool) (h : m[k]? = some b) (b' : β) :
    tally p (m.insert k b') + (p b).toNat = tally p m + (p b').toNat := by
  classical
  rw [tally_erase p h, tally_erase p (k := k) (b := b') (by rw [getElem?_insert, if_pos rfl])]
  have hm : (m.insert k b').erase k = m.erase k := by
    refine Std.ExtTreeMap.ext_getElem? fun a => ?_
    rw [getElem?_erase, getElem?_erase, getElem?_insert]
    split <;> rfl
  rw [hm]
  omega

theorem size_eq_zero_iff {m : Std.ExtTreeMap κ β} : m.size = 0 ↔ ∀ k : κ, m[k]? = none := by
  rw [← Std.ExtTreeMap.eq_empty_iff_size_eq_zero]
  constructor
  · rintro rfl k
    simp
  · intro h
    refine Std.ExtTreeMap.ext_getElem? fun k => ?_
    rw [h]
    simp

end CephMds.Writes
