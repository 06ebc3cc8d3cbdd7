import CephMds.Model.Sessions

/-!
# The transitions of a session and the journal

`InOrder` ties the states of the sessions to the entries in flight: an entry
of a session carries no later number than the last transition, and where it
carries that number the session is in the state that the entry is for. No
inode is created for a session after such a close, so that the updates of a
session have completed when its close does. `Registered` says which sessions
the map has: those that are neither closed nor killed, and those that are
being killed. Neither says anything of the inode numbers or the imports, and
every step keeps both.
-/

namespace CephMds.Sessions

/-- The entry closes session `i` by its transition `q`. -/
def Entry.Closes (i q : ℕ) : Entry → Prop
  | .session j sseq isOpen _ _ _ => j = i ∧ sseq = q ∧ isOpen = false
  | _ => False

/-- The entry creates an inode for session `i`. -/
def Entry.Updates (i : ℕ) : Entry → Prop
  | .update j .. => j = i
  | _ => False

/-- The session is in the state that an entry opens it from, or closes it from. -/
def Session.Awaits (s : Session) (isOpen : Bool) : Prop :=
  if isOpen then s.state = .opening ∧ s.connected = true else s.state = .closing ∨ s.state = .killing

structure InOrder (S : ℕ → Session) (J : List Entry) : Prop where
  entry : ∀ i q o pv inos piv, Entry.session i q o pv inos piv ∈ J →
    q ≤ (S i).stateSeq ∧ (q = (S i).stateSeq → (S i).Awaits o)
  last : J.Pairwise fun e e' => ∀ i, e.Closes i (S i).stateSeq → ¬ e'.Updates i ∧ ¬ e'.Closes i (S i).stateSeq

structure Registered (S : ℕ → Session) (made : ℕ) (M : ℕ → Option ℕ) (J : List Entry) : Prop where
  client : ∀ c i, M c = some i → (S i).client = c ∧ i < made ∧ (S i).state ≠ .closed
  mapped : ∀ i, (S i).state ≠ .closed → (S i).state ≠ .killing → M (S i).client = some i
  fresh : ∀ i, made ≤ i → S i = { client := (S i).client }
  closes : ∀ e ∈ J, ∀ i, e.Closes i (S i).stateSeq → M (S i).client = some i
  updates : ∀ e ∈ J, ∀ i, e.Updates i → i < made

variable {S : ℕ → Session} {made : ℕ} {M : ℕ → Option ℕ} {J : List Entry} {i : ℕ} {s : Session} {e : Entry}

namespace InOrder

theorem of_closes (h : InOrder S J) (he : e ∈ J) {q : ℕ} (hc : e.Closes i q) :
    q ≤ (S i).stateSeq ∧ (q = (S i).stateSeq → (S i).state = .closing ∨ (S i).state = .killing) := by
  unfold Entry.Closes at hc
  split at hc
  · obtain ⟨rfl, rfl, rfl⟩ := hc
    exact h.entry _ _ _ _ _ _ he
  · exact hc.elim

/-- A session keeps its place in the order as long as it makes no transition. -/
theorem same (h : InOrder S J) (hs : s.state = (S i).state) (hq : s.stateSeq = (S i).stateSeq)
    (hconn : (S i).connected = true → s.connected = true) : InOrder (Function.update S i s) J := by
  have hawait : ∀ o, (S i).Awaits o → s.Awaits o := by
    intro o ho
    unfold Session.Awaits at ho ⊢
    rw [hs]
    cases o with
    | true => exact ⟨ho.1, hconn ho.2⟩
    | false => exact ho
  have hseq : ∀ j, (Function.update S i s j).stateSeq = (S j).stateSeq := by
    intro j
    by_cases hj : j = i
    · subst hj
      simp [hq]
    · simp [hj]
  constructor
  · intro j q o pv inos piv hm
    obtain ⟨hle, heq⟩ := h.entry j q o pv inos piv hm
    rw [hseq]
    refine ⟨hle, fun hnow => ?_⟩
    by_cases hj : j = i
    · subst hj
      simpa using hawait o (heq hnow)
    · simpa [hj] using heq hnow
  · simpa only [hseq] using h.last

/-- After a transition, no entry in flight is for the state of the session. -/
theorem bump (h : InOrder S J) (hq : (S i).stateSeq < s.stateSeq) : InOrder (Function.update S i s) J := by
  constructor
  · intro j q o pv inos piv hm
    obtain ⟨hle, heq⟩ := h.entry j q o pv inos piv hm
    by_cases hj : j = i
    · subst hj
      rw [Function.update_self]
      exact ⟨by omega, fun hq => by omega⟩
    · rw [Function.update_of_ne hj]
      exact ⟨hle, heq⟩
  · apply h.last.imp_of_mem
    intro e e' he _ hlast j hclose
    by_cases hj : j = i
    · subst hj
      rw [Function.update_self] at hclose
      have := (h.of_closes he hclose).1
      omega
    · rw [Function.update_of_ne hj] at hclose ⊢
      exact hlast j hclose

/-- A session makes a transition, and an entry is submitted for it. -/
theorem transit (h : InOrder S J) (hq : (S i).stateSeq < s.stateSeq) {o : Bool} (ha : s.Awaits o) (pv piv : ℕ)
    (inos : Finset ℕ) : InOrder (Function.update S i s) (J ++ [.session i s.stateSeq o pv inos piv]) := by
  have hb := h.bump hq
  constructor
  · intro j q o' pv' inos' piv' hm
    rcases List.mem_append.mp hm with hm | hm
    · exact hb.entry j q o' pv' inos' piv' hm
    · cases List.mem_singleton.mp hm
      rw [Function.update_self]
      exact ⟨le_rfl, fun _ => ha⟩
  · rw [List.pairwise_append]
    refine ⟨hb.last, List.pairwise_singleton _ _, fun e₀ he₀ e₁ he₁ j hclose => ?_⟩
    cases List.mem_singleton.mp he₁
    refine ⟨fun hu => hu, fun hc => ?_⟩
    cases hc.1
    rw [Function.update_self] at hclose
    have := (h.of_closes he₀ hclose).1
    omega

/-- An entry of another kind is submitted: it creates an inode for no session that is shut. -/
theorem submit (h : InOrder S J) (hc : ∀ i q, ¬ e.Closes i q) (hs : ∀ i q o pv inos piv, e ≠ .session i q o pv inos piv)
    (hu : ∀ i, e.Updates i → (S i).shut = false) : InOrder S (J ++ [e]) := by
  constructor
  · intro i q o pv inos piv hm
    rcases List.mem_append.mp hm with hm | hm
    · exact h.entry i q o pv inos piv hm
    · exact absurd (List.mem_singleton.mp hm).symm (hs i q o pv inos piv)
  · rw [List.pairwise_append]
    refine ⟨h.last, List.pairwise_singleton _ _, fun e₀ he₀ e₁ he₁ i hclose => ?_⟩
    rw [List.mem_singleton.mp he₁]
    refine ⟨fun hup => ?_, hc i _⟩
    have hshut := hu i hup
    rcases (h.of_closes he₀ hclose).2 rfl with ha | ha <;> simp [Session.shut, ha] at hshut

/-- The head of the journal completes. -/
theorem tail (h : InOrder S (e :: J)) : InOrder S J :=
  ⟨fun i q o pv inos piv hm => h.entry i q o pv inos piv (List.mem_cons_of_mem _ hm), (List.pairwise_cons.mp h.last).2⟩

/-- A session is made anew where there was none. -/
theorem new (h : InOrder S J) (hseq : (S i).stateSeq = 0) (hstate : (S i).state = .closed) {c : ℕ} {b : Bool} :
    InOrder (Function.update S i { client := c, connected := b }) J := by
  constructor
  · intro j q o pv inos piv hm
    obtain ⟨hle, heq⟩ := h.entry j q o pv inos piv hm
    by_cases hj : j = i
    · subst hj
      rw [Function.update_self]
      refine ⟨by omega, fun hq => ?_⟩
      have ha : (S j).Awaits o := heq (hq.trans hseq.symm)
      unfold Session.Awaits at ha
      rw [hstate] at ha
      cases o <;> simp at ha
    · rw [Function.update_of_ne hj]
      exact ⟨hle, heq⟩
  · apply h.last.imp
    intro e e' hlast j hclose
    by_cases hj : j = i
    · subst hj
      rw [Function.update_self] at hclose ⊢
      exact hseq ▸ hlast j (hseq ▸ hclose)
    · rw [Function.update_of_ne hj] at hclose ⊢
      exact hlast j hclose

end InOrder

namespace Registered

theorem lt (h : Registered S made M J) (hs : (S i).state ≠ .closed) : i < made := by
  by_contra hi
  rw [h.fresh i (by omega)] at hs
  exact hs rfl

theorem tail (h : Registered S made M (e :: J)) : Registered S made M J :=
  ⟨h.client, h.mapped, h.fresh, fun e he => h.closes e (List.mem_cons_of_mem _ he),
    fun e he => h.updates e (List.mem_cons_of_mem _ he)⟩

theorem submit (h : Registered S made M J) (hc : ∀ i, e.Closes i (S i).stateSeq → M (S i).client = some i)
    (hu : ∀ i, e.Updates i → i < made) : Registered S made M (J ++ [e]) := by
  refine ⟨h.client, h.mapped, h.fresh, fun e he => ?_, fun e he => ?_⟩
  · rcases List.mem_append.mp he with he | he
    · exact h.closes e he
    · exact List.mem_singleton.mp he ▸ hc
  · rcases List.mem_append.mp he with he | he
    · exact h.updates e he
    · exact List.mem_singleton.mp he ▸ hu

/-- A session that the map has takes another state, or changes in other ways. -/
theorem put (h : Registered S made M J) (hM : M (S i).client = some i) (hc : s.client = (S i).client)
    (hs : s.state ≠ .closed) : Registered (Function.update S i s) made M J := by
  have hi : i < made := (h.client _ i hM).2.1
  refine ⟨fun c j hm => ?_, fun j => ?_, fun j hj => ?_, fun e he j => ?_, h.updates⟩
  · by_cases hj : j = i
    · subst hj
      rw [Function.update_self, hc]
      exact ⟨(h.client c j hm).1, hi, hs⟩
    · rw [Function.update_of_ne hj]
      exact h.client c j hm
  · by_cases hj : j = i
    · subst hj
      rw [Function.update_self, hc]
      exact fun _ _ => hM
    · rw [Function.update_of_ne hj]
      exact h.mapped j
  · have hne : j ≠ i := by omega
    rw [Function.update_of_ne hne]
    exact h.fresh j hj
  · by_cases hj : j = i
    · subst hj
      rw [Function.update_self, hc]
      exact fun _ => hM
    · rw [Function.update_of_ne hj]
      exact h.closes e he j

theorem same (h : Registered S made M J) (hi : i < made) (hc : s.client = (S i).client) (hs : s.state = (S i).state)
    (hq : s.stateSeq = (S i).stateSeq) : Registered (Function.update S i s) made M J := by
  have hall : ∀ j, (Function.update S i s j).client = (S j).client ∧ (Function.update S i s j).state = (S j).state ∧
      (Function.update S i s j).stateSeq = (S j).stateSeq := by
    intro j
    by_cases hj : j = i
    · subst hj
      simp [hc, hs, hq]
    · simp [hj]
  refine ⟨fun c j => ?_, fun j => ?_, fun j hj => ?_, fun e he j => ?_, h.updates⟩
  · rw [(hall j).1, (hall j).2.1]
    exact h.client c j
  · rw [(hall j).1, (hall j).2.1]
    exact h.mapped j
  · have hne : j ≠ i := by omega
    rw [Function.update_of_ne hne]
    exact h.fresh j hj
  · rw [(hall j).1, (hall j).2.2]
    exact h.closes e he j

theorem new (h : Registered S made M J) {c : ℕ} {b : Bool} :
    Registered (Function.update S made { client := c, connected := b }) (made + 1) M J := by
  refine ⟨fun c j hm => ?_, fun j => ?_, fun j hj => ?_, fun e he j => ?_, fun e he j hu => ?_⟩
  · obtain ⟨hc, hlt, hs⟩ := h.client c j hm
    have hj : j ≠ made := by omega
    rw [Function.update_of_ne hj]
    exact ⟨hc, by omega, hs⟩
  · by_cases hj : j = made
    · subst hj
      simp
    · rw [Function.update_of_ne hj]
      exact h.mapped j
  · have hne : j ≠ made := by omega
    rw [Function.update_of_ne hne]
    exact h.fresh j (by omega)
  · by_cases hj : j = made
    · subst hj
      intro hclose
      have hseq : (S j).stateSeq = 0 := by rw [h.fresh j le_rfl]
      rw [Function.update_self] at hclose
      have := (h.client _ j (h.closes e he j (hseq ▸ hclose))).2.1
      omega
    · rw [Function.update_of_ne hj]
      exact h.closes e he j
  · have := h.updates e he j hu
    omega

/-- A closed session goes into the map, and takes another state. -/
theorem add (h : Registered S made M J) (hi : i < made) (hM : M (S i).client = none) (hc : s.client = (S i).client)
    (hs : s.state ≠ .closed) : Registered (Function.update S i s) made (Function.update M (S i).client (some i)) J := by
  have hother : ∀ {j}, M (S j).client = some j → Function.update M (S i).client (some i) (S j).client = some j := by
    intro j hm
    have hne : (S j).client ≠ (S i).client := by
      intro heq
      rw [heq, hM] at hm
      cases hm
    rwa [Function.update_of_ne hne]
  refine ⟨fun c j hm => ?_, fun j => ?_, fun j hj => ?_, fun e he j => ?_, h.updates⟩
  · by_cases hcl : c = (S i).client
    · subst hcl
      rw [Function.update_self] at hm
      cases hm
      rw [Function.update_self]
      exact ⟨hc, hi, hs⟩
    · rw [Function.update_of_ne hcl] at hm
      have hj : j ≠ i := by
        rintro rfl
        exact hcl (h.client c j hm).1.symm
      rw [Function.update_of_ne hj]
      exact h.client c j hm
  · by_cases hj : j = i
    · subst hj
      rw [Function.update_self, hc, Function.update_self]
      exact fun _ _ => rfl
    · rw [Function.update_of_ne hj]
      exact fun h₁ h₂ => hother (h.mapped j h₁ h₂)
  · have hne : j ≠ i := by omega
    rw [Function.update_of_ne hne]
    exact h.fresh j hj
  · by_cases hj : j = i
    · subst hj
      rw [Function.update_self, hc, Function.update_self]
      exact fun _ => rfl
    · rw [Function.update_of_ne hj]
      exact fun hclose => hother (h.closes e he j hclose)

/-- A session that is closed or killed leaves the map. -/
theorem remove (h : Registered S made M J) (hM : M (S i).client = some i) (hc : s.client = (S i).client)
    (hs : s.state = .closed ∨ s.state = .killing) (hJ : ∀ e ∈ J, ¬ e.Closes i s.stateSeq) :
    Registered (Function.update S i s) made (Function.update M (S i).client none) J := by
  have hi : i < made := (h.client _ i hM).2.1
  have hother : ∀ {j}, j ≠ i → M (S j).client = some j → Function.update M (S i).client none (S j).client = some j := by
    intro j hj hm
    have hne : (S j).client ≠ (S i).client := by
      intro heq
      rw [heq, hM] at hm
      exact hj (Option.some.inj hm).symm
    rwa [Function.update_of_ne hne]
  refine ⟨fun c j hm => ?_, fun j => ?_, fun j hj => ?_, fun e he j => ?_, h.updates⟩
  · by_cases hcl : c = (S i).client
    · subst hcl
      rw [Function.update_self] at hm
      cases hm
    · rw [Function.update_of_ne hcl] at hm
      have hj : j ≠ i := by
        rintro rfl
        exact hcl (h.client c j hm).1.symm
      rw [Function.update_of_ne hj]
      exact h.client c j hm
  · by_cases hj : j = i
    · subst hj
      rw [Function.update_self]
      intro h₁ h₂
      rcases hs with hs | hs <;> contradiction
    · rw [Function.update_of_ne hj]
      exact fun h₁ h₂ => hother hj (h.mapped j h₁ h₂)
  · have hne : j ≠ i := by omega
    rw [Function.update_of_ne hne]
    exact h.fresh j hj
  · by_cases hj : j = i
    · subst hj
      rw [Function.update_self]
      exact fun hclose => absurd hclose (hJ e he)
    · rw [Function.update_of_ne hj]
      exact fun hclose => hother hj (h.closes e he j hclose)

end Registered

end CephMds.Sessions
