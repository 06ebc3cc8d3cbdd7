import CephMds.Model.Discover
import CephMds.Proof.DentryKey

/-!
# Discovering a path

`handle_discover` looks in one directory after the other, and none of its exits
but the last depends on more than the directory that it has come to
(`visit_cases`). What can go wrong there is the null dentry that it makes up: it is
valid at all snapshots, so that it must be the only dentry of its name
(`addNullDentry_iff`). A request is dealt with exactly if it asks for something and
that is so wherever the loop comes to a complete directory in which a name is not
found (`handleDiscover_iff`).
-/

namespace CephMds.Discover

open Checked Dentries

/-! ## The dentries of a name -/

/-- A dentry is valid at a snapshot, and no two of a name are at the same one. -/
structure CDir.Disjoint {ι : Type} (d : CDir ι) : Prop where
  nonempty {k : Key} {dn : Dentry ι} : d.items[k]? = some dn → dn.first ≤ k.snapid
  apart {k k' : Key} {dn dn' : Dentry ι} : d.items[k]? = some dn → d.items[k']? = some dn' → k.name = k'.name →
    ∀ x, dn.first ≤ x → x ≤ k.snapid → dn'.first ≤ x → x ≤ k'.snapid → k = k'

/-- No dentry of the name is valid at a snapshot from `first` to `last`. -/
def CDir.Free {ι : Type} (d : CDir ι) (name : List Byte) (first last : Snapid) : Prop :=
  ∀ (k : Key) (dn : Dentry ι), d.items[k]? = some dn → k.name = name → k.snapid < first ∨ last < dn.first

variable {ι : Type} {d : CDir ι} {k : Key} {dn : Dentry ι} {name : List Byte} {first last snap : Snapid}

theorem CDir.Disjoint.not_contains (hd : d.Disjoint) (hle : first ≤ last) (h : d.Free name first last) :
    d.items.contains ⟨name, last⟩ = false := by
  cases hc : d.items[(⟨name, last⟩ : Key)]? with
  | none => rw [Std.ExtTreeMap.contains_eq_isSome_getElem?, hc, Option.isSome_none]
  | some dn =>
    rcases h _ dn hc rfl with h | h
    · exact absurd (hle.trans_lt h) (lt_irrefl _)
    · exact absurd ((hd.nonempty hc).trans_lt h) (lt_irrefl _)

theorem getElem?_insert_key {items : Std.ExtTreeMap Key (Dentry ι)} {k' : Key} :
    (items.insert k dn)[k']? = if k' = k then some dn else items[k']? := by
  rw [Std.ExtTreeMap.getElem?_insert]
  exact if_congr (compare_eq_iff_eq.trans eq_comm) rfl rfl

/-- A dentry that is inserted is apart from the others exactly if there was room for it. -/
theorem CDir.Disjoint.insert_iff (hd : d.Disjoint) (hle : first ≤ last) (hn : d.items[(⟨name, last⟩ : Key)]? = none)
    (n : ℤ) :
    CDir.Disjoint { d with items := d.items.insert ⟨name, last⟩ (CDir.nullDentry first), numAny := n } ↔
      d.Free name first last := by
  constructor
  · intro h k dn hk hname
    by_contra hcon
    rw [not_or, not_lt, not_lt] at hcon
    have hne : k ≠ ⟨name, last⟩ := by
      rintro rfl
      rw [hn] at hk
      cases hk
    refine hne (h.apart ((getElem?_insert_key.trans (if_neg hne)).trans hk) (getElem?_insert_key.trans (if_pos rfl)) hname
      (max dn.first first) (le_max_left _ _) (max_le (hd.nonempty hk) hcon.1) (le_max_right _ _) (max_le hcon.2 hle))
  · intro h
    have hcases : ∀ {k : Key} {dn : Dentry ι}, (d.items.insert ⟨name, last⟩ (CDir.nullDentry first))[k]? = some dn →
        k = ⟨name, last⟩ ∧ dn.first = first ∨ d.items[k]? = some dn := by
      intro k dn hk
      rw [getElem?_insert_key] at hk
      split at hk
      · cases hk
        exact .inl ⟨‹_›, rfl⟩
      · exact .inr hk
    have hfree : ∀ {k : Key} {dn : Dentry ι} {x : Snapid}, d.items[k]? = some dn → k.name = name → dn.first ≤ x →
        x ≤ k.snapid → first ≤ x → x ≤ last → False := by
      intro k dn x hk hname hx hx' hf hl
      rcases h k dn hk hname with h | h
      · exact absurd (h.trans_le (hf.trans hx')) (lt_irrefl _)
      · exact absurd (h.trans_le (hx.trans hl)) (lt_irrefl _)
    constructor
    · intro k dn hk
      rcases hcases hk with ⟨rfl, hf⟩ | hk
      · rw [hf]
        exact hle
      · exact hd.nonempty hk
    · intro k k' dn dn' hk hk' hname x hx hxk hx' hxk'
      rcases hcases hk with ⟨rfl, hf⟩ | hk <;> rcases hcases hk' with ⟨rfl, hf'⟩ | hk'
      · rfl
      · exact (hfree hk' hname.symm hx' hxk' (hf ▸ hx) hxk).elim
      · exact (hfree hk hname hx hxk (hf' ▸ hx') hxk').elim
      · exact hd.apart hk hk' hname x hx hxk hx' hxk'

/-- A null dentry can be added, and leaves the dentries apart, exactly if there is room for it. -/
theorem addNullDentry_iff (hd : d.Disjoint) (hn : d.numAny = d.items.size) (hle : first ≤ last) :
    (∃ d', d.addNullDentry name first last = .ok d' ∧ d'.Disjoint) ↔ d.Free name first last := by
  cases hc : d.items.contains (⟨name, last⟩ : Key) with
  | true =>
    have hfail : d.addNullDentry name first last = .error .assert := by
      rw [CDir.addNullDentry, hc]
      rfl
    constructor
    · rintro ⟨d', hd', -⟩
      rw [hfail] at hd'
      cases hd'
    · intro h
      rw [hd.not_contains hle h] at hc
      cases hc
  | false =>
    have hnone : d.items[(⟨name, last⟩ : Key)]? = none := by
      rw [Std.ExtTreeMap.contains_eq_isSome_getElem?] at hc
      exact Option.not_isSome_iff_eq_none.mp (Bool.eq_false_iff.mp hc)
    have hsize : d.numAny + 1 = ((d.items.insert (⟨name, last⟩ : Key) (CDir.nullDentry first)).size : ℤ) := by
      rw [Std.ExtTreeMap.size_insert, hc, if_neg Bool.false_ne_true, hn]
      rfl
    have hadd : d.addNullDentry name first last =
        .ok { d with items := d.items.insert ⟨name, last⟩ (CDir.nullDentry first), numAny := d.numAny + 1 } := by
      rw [CDir.addNullDentry, hc]
      dsimp only
      rw [hsize, beq_self_eq_true]
      rfl
    rw [← hd.insert_iff hle hnone (d.numAny + 1)]
    constructor
    · rintro ⟨d', hd', h⟩
      rw [hadd, Except.ok.injEq] at hd'
      exact hd' ▸ h
    · exact fun h => ⟨_, hadd, h⟩

/-! ## The cache of an active MDS -/

def State.Disjoint (s : State ι) : Prop :=
  ∀ (i : ι) (fg : BinaryPath) (d : CDir ι), s.dirfrags i fg = some d → d.Disjoint

/-- What is always so of a dirfrag. -/
structure State.SoundDir (s : State ι) (i : ι) (fg : BinaryPath) (d : CDir ι) : Prop where
  counted : d.numAny = d.items.size
  /-- A dirfrag that has not been fetched is not complete. -/
  fetched : d.version = 0 → d.isComplete = false
  /-- A dirfrag is only frozen apart from its tree when it is fragmented. -/
  fragmenting : d.isAuth = true → d.isFrozenDir = true → ∃ p ∈ s.fragments i, p.1 <:+ fg
  /-- The authority only passes to another MDS while the tree is frozen. -/
  frozen : d.isAuth = true → d.isAmbiguousAuth = true → d.isFrozenTree = true
  isAuth {k : Key} {dn : Dentry ι} {next : ι} : d.isAuth = true → d.items[k]? = some dn → dn.linkage = .primary next →
    (s.inode next).isAuth = true
  known : d.isAuth = false → d.authority.first ≠ cdirAuthUnknown

structure State.Sound (s : State ι) : Prop where
  disjoint : s.Disjoint
  dir {i : ι} {fg : BinaryPath} {d : CDir ι} : s.dirfrags i fg = some d → s.SoundDir i fg d
  known {i : ι} : (s.inode i).isAuth = false → (s.inode i).authority.first ≠ cdirAuthUnknown

theorem disjoint_make (x : Inode) : (CDir.make x : CDir ι).Disjoint := by
  constructor
  · intro k dn hk
    rw [CDir.make, Std.ExtTreeMap.getElem?_empty] at hk
    cases hk
  · intro k k' dn dn' hk
    rw [CDir.make, Std.ExtTreeMap.getElem?_empty] at hk
    cases hk

variable {c : ReplyClass ι} {m : MDiscover} {s : State ι} {reply r : Reply ι} {i : ℕ} {cur next : ι}
  {fg : BinaryPath}

theorem State.Disjoint.setDir [DecidableEq ι] (h : s.Disjoint) (hd : d.Disjoint) : (s.setDir cur fg d).Disjoint := by
  intro j g d' hd'
  replace hd' : Function.update s.dirfrags cur (Function.update (s.dirfrags cur) fg (some d)) j g = some d' := hd'
  by_cases hj : j = cur
  · subst hj
    rw [Function.update_self] at hd'
    by_cases hg : g = fg
    · rw [hg, Function.update_self] at hd'
      cases hd'
      exact hd
    · rw [Function.update_of_ne hg] at hd'
      exact h j g d' hd'
  · rw [Function.update_of_ne hj] at hd'
    exact h j g d' hd'

theorem State.Disjoint.of_setDir [DecidableEq ι] (h : (s.setDir cur fg d).Disjoint) : d.Disjoint := by
  refine h cur fg d ?_
  show Function.update s.dirfrags cur (Function.update (s.dirfrags cur) fg (some d)) cur fg = some d
  rw [Function.update_self, Function.update_self]

/-! ## Replies -/

theorem ReplyClass.Lawful.isEmpty_of_trace (hc : c.Lawful) (h : r.trace ≠ []) : c.isEmpty r = false :=
  Bool.eq_false_iff.mpr fun he => h ((hc.isEmpty_iff r).mp he).1

theorem ReplyClass.Lawful.isEmpty_add (hc : c.Lawful) (r : Reply ι) (what : StartsWith) (x : Replica ι) :
    c.isEmpty (r.add what x) = false :=
  hc.isEmpty_of_trace (List.append_ne_nil_of_right_ne_nil _ (List.cons_ne_nil _ _))

theorem ReplyClass.Lawful.isEmpty_errorDir (hc : c.Lawful) (r : Reply ι) : c.isEmpty r.errorDir = false :=
  Bool.eq_false_iff.mpr fun he => Bool.noConfusion ((hc.isEmpty_iff _).mp he).2.1

theorem ReplyClass.Lawful.isEmpty_hint (hc : c.Lawful) {a : Auth} (ha : a.first ≠ cdirAuthUnknown) :
    c.isEmpty (hint c m i a r) = false := by
  rw [hint]
  cases he : c.isEmpty r with
  | false => rwa [if_neg Bool.false_ne_true]
  | true =>
    rw [if_pos rfl]
    exact Bool.eq_false_iff.mpr fun he => ha ((hc.isEmpty_iff _).mp he).2.2

theorem getDentry_eq (hname : m.want[i]? = some name) : m.getDentry i = .ok name := by
  rw [MDiscover.getDentry, hname]
  rfl

theorem noBase_spec (hc : c.Lawful) (m : MDiscover) : ∃ r, noBase c m = .ok r ∧ c.isEmpty r = false := by
  rw [noBase]
  split
  · rename_i h
    cases hw : m.want with
    | nil => simp [hw] at h
    | cons name rest =>
      rw [getDentry_eq (show m.want[0]? = some name by rw [hw]; rfl)]
      exact ⟨_, rfl, hc.isEmpty_errorDir _⟩
  · exact ⟨_, rfl, hc.isEmpty_errorDir _⟩

/-! ## The exits -/

/-- What is sent is not empty, and the dentries are apart. -/
def Step.Proper (c : ReplyClass ι) : Step ι → Prop
  | .descend reply _ => c.isEmpty reply = false
  | .stop s reply => c.isEmpty reply = false ∧ s.Disjoint
  | .retry s _ => s.Disjoint

def Ends (c : ReplyClass ι) (x : Checked (Step ι)) : Prop := ∃ st, x = .ok st ∧ st.Proper c

/-- The loop ends. -/
def Exits (c : ReplyClass ι) (x : Checked (Step ι)) : Prop :=
  ∃ st, x = .ok st ∧ st.Proper c ∧ ∀ reply next, st ≠ .descend reply next

theorem Exits.ends {x : Checked (Step ι)} (h : Exits c x) : Ends c x := by
  obtain ⟨st, hx, hst, -⟩ := h
  exact ⟨st, hx, hst⟩

theorem Exits.not_descend {x : Checked (Step ι)} (h : Exits c x) : ¬ ∃ r, x = .ok (.descend r next) := by
  rintro ⟨r, hr⟩
  obtain ⟨st, hx, -, hne⟩ := h
  exact hne r next (Except.ok.inj (hx.symm.trans hr))

theorem exits_stop (hs : s.Disjoint) (h : c.isEmpty r = false) : Exits c (.ok (.stop s r)) :=
  ⟨_, rfl, ⟨h, hs⟩, fun _ _ heq => by cases heq⟩

theorem exits_holdOff (hs : s.Disjoint) (w : Wait ι) : Exits c (.ok (holdOff c s r w)) := by
  rw [holdOff]
  cases h : c.isEmpty r with
  | true => exact ⟨_, rfl, hs, fun _ _ heq => by cases heq⟩
  | false => exact exits_stop hs h

def Outcome.Proper (c : ReplyClass ι) : Outcome ι → Prop
  | .retry s _ => s.Disjoint
  | .reply s reply => c.isEmpty reply = false ∧ s.Disjoint

/-- The request is queued, or is answered with a reply that is not empty. -/
def Finishes (c : ReplyClass ι) (x : Checked (Outcome ι)) : Prop := ∃ o, x = .ok o ∧ o.Proper c

/-- Nothing that is as it should be is refused at the end. -/
theorem finishes_answer_iff (x : Checked (Outcome ι)) : Finishes c (x >>= answer c) ↔ Finishes c x := by
  rw [Finishes, Finishes]
  constructor
  · rintro ⟨o, ho, hproper⟩
    obtain ⟨o', ho', hans⟩ := bind_ok.mp ho
    cases o' with
    | retry s' w =>
      cases hans
      exact ⟨_, ho', hproper⟩
    | reply s' r =>
      obtain ⟨_, -, hans⟩ := bind_ok.mp hans
      cases hans
      exact ⟨_, ho', hproper⟩
  · rintro ⟨o, rfl, hproper⟩
    refine ⟨o, ?_, hproper⟩
    cases o with
    | retry s' w => rfl
    | reply s' r =>
      show answer c (.reply s' r) = _
      rw [answer, hproper.1]
      rfl

theorem finishes_error {f : Fault} : ¬ Finishes c (.error f) := by
  rintro ⟨o, ho, -⟩
  cases ho

/-- Neither the lock of a dentry nor its inode is in the way. -/
structure Passes (m : MDiscover) (s : State ι) (i : ℕ) (dn : Dentry ι) (next : ι) : Prop where
  linkage : dn.linkage = .primary next
  xlocked : dn.xlocked = true → allowed m i = true
  frozen : (s.inode next).isFrozenInode = true → allowed m i = true

/-- What becomes of a dentry. -/
theorem replicate_cases (cur : ι) (fg : BinaryPath) (reply : Reply ι) (hc : c.Lawful) (hs : s.Disjoint)
    (hauth : ∀ next, dn.linkage = .primary next → (s.inode next).isAuth = true) :
    (Exits c (replicate c m s i cur fg reply k dn) ∧ ∀ next, ¬ Passes m s i dn next) ∨
      ∃ r next, replicate c m s i cur fg reply k dn = .ok (.descend r next) ∧ c.isEmpty r = false ∧
        Passes m s i dn next := by
  rw [replicate]
  by_cases hx : (dn.xlocked && !allowed m i) = true
  · rw [if_pos hx]
    rw [Bool.and_eq_true, Bool.not_eq_true'] at hx
    refine .inl ⟨exits_holdOff hs _, fun next h => ?_⟩
    rw [h.xlocked hx.1] at hx
    exact Bool.noConfusion hx.2
  · rw [if_neg hx]
    have hxlocked : dn.xlocked = true → allowed m i = true := by
      intro h
      simpa [h] using hx
    have hstop : Exits c (.ok (.stop s (reply.add .dentry (.dentry cur fg k)))) := exits_stop hs (hc.isEmpty_add _ _ _)
    cases hl : dn.linkage with
    | null => exact .inl ⟨hstop, fun next h => by cases hl.symm.trans h.linkage⟩
    | remote => exact .inl ⟨hstop, fun next h => by cases hl.symm.trans h.linkage⟩
    | primary next =>
      dsimp only
      by_cases hf : ((s.inode next).isFrozenInode && !allowed m i) = true
      · rw [if_pos hf]
        rw [Bool.and_eq_true, Bool.not_eq_true'] at hf
        refine .inl ⟨exits_holdOff hs _, fun next' h => ?_⟩
        cases hl.symm.trans h.linkage
        rw [h.frozen hf.1] at hf
        exact Bool.noConfusion hf.2
      · rw [if_neg hf, hauth next hl]
        refine .inr ⟨_, next, rfl, hc.isEmpty_of_trace ?_, hl, hxlocked, fun h => ?_⟩
        · exact List.append_ne_nil_of_right_ne_nil _ (List.cons_ne_nil _ _)
        · simpa [h] using hf

/-! ## The loop body -/

/-- The loop body comes to look in a dirfrag that has been fetched. -/
structure Searches (m : MDiscover) (s : State ι) (i : ℕ) (cur : ι) (fg : BinaryPath) (d : CDir ι) : Prop where
  isDir : (s.inode cur).isDir = true
  frag : pickFrag m i (s.inode cur) = .ok fg
  dir : s.dirfrags cur fg = some d
  auth : d.isAuth = true
  thawed : isFrozen s cur fg d = .ok false
  fetched : d.version ≠ 0

/-- The loop body goes on with the inode `next`. -/
def Descends (m : MDiscover) (s : State ι) (i : ℕ) (cur next : ι) : Prop :=
  ∃ fg d name k dn, Searches m s i cur fg d ∧ m.want[i]? = some name ∧ d.lookup name m.snapid = some (k, dn) ∧
    Passes m s i dn next

/-- If a name is not found where it should be, there is room for it. -/
def Clear (m : MDiscover) (s : State ι) (i : ℕ) (cur : ι) : Prop :=
  ∀ fg d name, Searches m s i cur fg d → m.want[i]? = some name → d.isComplete = true → d.lookup name m.snapid = none →
    d.Free name 2 cephNosnap

theorem Searches.unique {fg' : BinaryPath} {d' : CDir ι} (h : Searches m s i cur fg d) (h' : Searches m s i cur fg' d') :
    fg = fg' ∧ d = d' := by
  cases h.frag.symm.trans h'.frag
  exact ⟨rfl, Option.some.inj (h.dir.symm.trans h'.dir)⟩

/-- Where a name is found, no null dentry is needed. -/
theorem Descends.clear (h : Descends m s i cur next) : Clear m s i cur := by
  obtain ⟨fg, d, name, k, dn, hd, hname, hl, -⟩ := h
  intro fg' d' name' hd' hname' hcomp hnone
  obtain ⟨rfl, rfl⟩ := hd.unique hd'
  cases hname.symm.trans hname'
  rw [hl] at hnone
  cases hnone

/-- The loop comes to an inode with its `i`th name. -/
inductive Reaches (m : MDiscover) (s : State ι) : ℕ → ι → Prop
  | base {b : ι} : s.baseInode m = some b → Reaches m s 0 b
  | descend {i : ℕ} {cur next : ι} : Reaches m s i cur → Descends m s i cur next → Reaches m s (i + 1) next

theorem Reaches.baseInode (h : Reaches m s i cur) : ∃ b, s.baseInode m = some b := by
  induction h with
  | base hb => exact ⟨_, hb⟩
  | descend _ _ ih => exact ih

theorem isFrozen_spec (h : s.SoundDir cur fg d) (hauth : d.isAuth = true) :
    ∃ b, isFrozen s cur fg d = .ok b ∧ (b = false → d.isAmbiguousAuth = false) := by
  rw [isFrozen]
  have hfree : d.isFrozenTree = false → d.isAmbiguousAuth = false := by
    intro hft
    cases ha : d.isAmbiguousAuth with
    | false => rfl
    | true => exact hft.symm.trans (h.frozen hauth ha) |>.symm
  cases hft : d.isFrozenTree with
  | true => exact ⟨true, rfl, fun hb => by cases hb⟩
  | false =>
    rw [if_neg Bool.false_ne_true]
    cases hfd : d.isFrozenDir with
    | false => exact ⟨false, rfl, fun _ => hfree hft⟩
    | true =>
      rw [if_pos rfl, State.fragmentAreAllFrozen]
      cases hfind : (s.fragments cur).find? fun p => p.1.isSuffixOf fg with
      | some p => exact ⟨p.2, rfl, fun _ => hfree hft⟩
      | none =>
        obtain ⟨p, hp, hsuf⟩ := h.fragmenting hauth hfd
        exact absurd (List.isSuffixOf_iff_suffix.mpr hsuf) (List.find?_eq_none.mp hfind p hp)

theorem addDir_spec (hc : c.Lawful) (hs : s.Sound) (h : Searches m s i cur fg d) (reply : Reply ι) :
    ∃ r, addDir c m cur fg d reply = .ok r ∧ (m.wantsBaseDir = true ∨ c.isEmpty reply = false → c.isEmpty r = false) := by
  obtain ⟨b, hb, hamb⟩ := isFrozen_spec (hs.dir h.dir) h.auth
  cases h.thawed.symm.trans hb
  rw [addDir, if_neg h.fetched]
  split
  · rename_i hskip
    rw [Bool.and_eq_true, Bool.not_eq_true'] at hskip
    refine ⟨_, rfl, fun hor => ?_⟩
    rw [hskip.1, hskip.2] at hor
    simp at hor
  · rw [hamb rfl]
    exact ⟨_, rfl, fun _ => hc.isEmpty_add _ _ _⟩

theorem getElem?_of_lookup (h : d.lookup name snap = some (k, dn)) : d.items[k]? = some dn := by
  rw [CDir.lookup, Dentries.lookup, Option.filter_eq_some_iff] at h
  exact Std.ExtTreeMap.mem_toList_iff_getElem?_eq_some.mp (List.mem_of_find?_eq_some h.1)

variable [DecidableEq ι]

/-- A dirfrag that is not complete is fetched. -/
theorem miss_incomplete (hs : s.Disjoint) (hd : d.Disjoint) (hauth : d.isAuth = true) (h : d.isComplete = false) :
    Exits c (miss c m s i cur fg d reply) := by
  have hfetch : ∀ unlinked ignore, ∃ d', d.fetch unlinked ignore = .ok d' ∧ d'.items = d.items := by
    intro unlinked ignore
    rw [CDir.fetch, hauth, h, Bool.not_false, assert_true_bind, assert_true_bind]
    split
    · exact ⟨d, rfl, rfl⟩
    · split
      · exact ⟨_, rfl, rfl⟩
      · split
        · exact ⟨d, rfl, rfl⟩
        · exact ⟨_, rfl, rfl⟩
  rw [miss, h]
  obtain ⟨d', hd', hitems⟩ := hfetch (s.inode cur).unlinked (c.isEmpty reply && m.wantsBaseDir && d.version == 0)
  show Exits c (d.fetch _ _ >>= _)
  rw [hd']
  refine exits_holdOff (hs.setDir ⟨?_, ?_⟩) _
  · rw [hitems]
    exact hd.nonempty
  · rw [hitems]
    exact hd.apart

theorem search_new (hv : d.version = 0) : search c m s i cur fg d reply = miss c m s i cur fg d reply := by
  rw [search, addDir, if_pos hv]
  show (if d.version = 0 then _ else _) = _
  rw [if_pos hv]

/-- The loop body comes to look in a dirfrag that has been fetched, or ends the loop before. -/
theorem visit_cases (hc : c.Lawful) (hs : s.Sound) (hfg : pickFrag m i (s.inode cur) = .ok fg) (reply : Reply ι) :
    (Exits c (visit c m s i cur reply) ∧ ∀ d, ¬ Searches m s i cur fg d) ∨
      ∃ d, Searches m s i cur fg d ∧ visit c m s i cur reply = search c m s i cur fg d reply := by
  rw [visit]
  cases hdir : (s.inode cur).isDir with
  | false =>
    refine .inl ⟨exits_stop hs.disjoint (hc.isEmpty_errorDir _), fun d h => ?_⟩
    rw [h.isDir] at hdir
    cases hdir
  | true =>
    rw [if_neg (by simp), hfg]
    show (Exits c (enter c m s i cur fg reply) ∧ _) ∨ ∃ d, _ ∧ enter c m s i cur fg reply = _
    rw [enter]
    cases hd : s.dirfrags cur fg with
    | none =>
      have hno : ∀ d, ¬ Searches m s i cur fg d := fun d h => by cases hd.symm.trans h.dir
      refine .inl ⟨?_, hno⟩
      dsimp only
      cases hauth : (s.inode cur).isAuth with
      | false =>
        rw [if_pos (by rfl)]
        exact exits_stop hs.disjoint (hc.isEmpty_hint (hs.known hauth))
      | true =>
        rw [if_neg (by simp)]
        split
        · exact exits_holdOff hs.disjoint _
        · rw [search_new (by rfl)]
          exact miss_incomplete (hs.disjoint.setDir (disjoint_make _)) (disjoint_make _) hauth rfl
    | some d =>
      dsimp only
      have hsound := hs.dir hd
      cases hauth : d.isAuth with
      | false =>
        refine .inl ⟨?_, fun d' h => ?_⟩
        · rw [if_pos (by rfl)]
          exact exits_stop hs.disjoint (hc.isEmpty_hint (hsound.known hauth))
        · cases hd.symm.trans h.dir
          rw [h.auth] at hauth
          cases hauth
      | true =>
        rw [if_neg (by simp)]
        obtain ⟨b, hb, -⟩ := isFrozen_spec hsound hauth
        rw [hb]
        cases b with
        | true =>
          refine .inl ⟨?_, fun d' h => ?_⟩
          · show Exits c (if _ then _ else _)
            split
            · exact exits_stop hs.disjoint (hc.isEmpty_errorDir _)
            · exact exits_holdOff hs.disjoint _
          · cases hd.symm.trans h.dir
            rw [h.thawed] at hb
            cases hb
        | false =>
          by_cases hv : d.version = 0
          · refine .inl ⟨?_, fun d' h => ?_⟩
            · show Exits c (search c m s i cur fg d reply)
              rw [search_new hv]
              exact miss_incomplete hs.disjoint (hs.disjoint _ _ _ hd) hauth (hsound.fetched hv)
            · cases hd.symm.trans h.dir
              exact h.fetched hv
          · exact .inr ⟨d, ⟨hdir, hfg, hd, hauth, hb, hv⟩, rfl⟩

/-! ## Looking in a dirfrag -/

theorem want_isEmpty_of_getElem? (hname : m.want[i]? = some name) : m.want.isEmpty = false := by
  cases hw : m.want with
  | nil =>
    rw [hw] at hname
    cases hname
  | cons => rfl

/-- A name that is not in a complete directory gets a null dentry, and nothing else is looked at. -/
theorem miss_complete (hc : c.Lawful) (hs : s.Disjoint) (hd : d.Disjoint) (hn : d.numAny = d.items.size)
    (hcomp : d.isComplete = true) (hname : m.want[i]? = some name) :
    (Ends c (miss c m s i cur fg d reply) ↔ d.Free name 2 cephNosnap) ∧
      ∀ r next, miss c m s i cur fg d reply ≠ .ok (.descend r next) := by
  have hreplicate : ∀ s : State ι, replicate c m s i cur fg reply ⟨name, cephNosnap⟩ (CDir.nullDentry 2) =
      .ok (.stop s (reply.add .dentry (.dentry cur fg ⟨name, cephNosnap⟩))) := fun s => rfl
  have hmiss : miss c m s i cur fg d reply = d.addNullDentry name 2 cephNosnap >>= fun d' =>
      .ok (.stop (s.setDir cur fg d') (reply.add .dentry (.dentry cur fg ⟨name, cephNosnap⟩))) := by
    rw [miss, hcomp, if_neg (by simp), getDentry_eq hname]
    rfl
  rw [hmiss, ← addNullDentry_iff hd hn (show (2 : Snapid) ≤ cephNosnap by decide)]
  cases hadd : d.addNullDentry name 2 cephNosnap with
  | error e =>
    refine ⟨⟨?_, ?_⟩, fun _ _ heq => by cases heq⟩
    · rintro ⟨st, hst, -⟩
      cases hst
    · rintro ⟨d', hd', -⟩
      cases hd'
  | ok d' =>
    refine ⟨⟨?_, ?_⟩, fun _ _ heq => by cases heq⟩
    · rintro ⟨st, hst, hproper⟩
      cases hst
      exact ⟨d', rfl, hproper.2.of_setDir⟩
    · rintro ⟨d'', hd'', hdis⟩
      cases hd''
      exact ⟨_, rfl, hc.isEmpty_add _ _ _, hs.setDir hdis⟩

/-- Looking for a name in a dirfrag. -/
theorem search_spec (hc : c.Lawful) (hs : s.Sound) (h : Searches m s i cur fg d) (hname : m.want[i]? = some name)
    (reply : Reply ι) (next : ι) :
    (Ends c (search c m s i cur fg d reply) ↔
      (d.isComplete = true → d.lookup name m.snapid = none → d.Free name 2 cephNosnap)) ∧
    ((∃ r, search c m s i cur fg d reply = .ok (.descend r next)) ↔
      ∃ k dn, d.lookup name m.snapid = some (k, dn) ∧ Passes m s i dn next) := by
  have hsound := hs.dir h.dir
  have hdis := hs.disjoint _ _ _ h.dir
  obtain ⟨r, hr, -⟩ := addDir_spec hc hs h reply
  have hsearch : search c m s i cur fg d reply = (d.lookup name m.snapid).elim (miss c m s i cur fg d r)
      fun p => replicate c m s i cur fg r p.1 p.2 := by
    rw [search, hr]
    show (if d.version = 0 then _ else _) = _
    rw [if_neg h.fetched, want_isEmpty_of_getElem? hname, if_neg Bool.false_ne_true, getDentry_eq hname]
    dsimp only [bind, Except.bind]
    cases d.lookup name m.snapid with
    | none => rfl
    | some p => rfl
  rw [hsearch]
  cases hl : d.lookup name m.snapid with
  | none =>
    rw [Option.elim_none]
    have hnone : ¬ ∃ k dn, (none : Option (Key × Dentry ι)) = some (k, dn) ∧ Passes m s i dn next := by
      rintro ⟨k, dn, h, -⟩
      cases h
    cases hcomp : d.isComplete with
    | false =>
      have hexits : Exits c (miss c m s i cur fg d r) := miss_incomplete hs.disjoint hdis h.auth hcomp
      exact ⟨iff_of_true hexits.ends (fun h => by cases h),
        iff_of_false hexits.not_descend hnone⟩
    | true =>
      obtain ⟨hends, hne⟩ := miss_complete hc hs.disjoint hdis hsound.counted hcomp hname (c := c) (s := s)
      refine ⟨hends.trans ⟨fun h _ _ => h, fun h => h rfl rfl⟩, iff_of_false (not_exists.mpr fun r' => hne r' next) hnone⟩
  | some p =>
    obtain ⟨k, dn⟩ := p
    have hk := getElem?_of_lookup hl
    have hclear : d.isComplete = true → some (k, dn) = none → d.Free name 2 cephNosnap := fun _ h => by cases h
    rw [Option.elim_some]
    rcases replicate_cases (m := m) (i := i) (k := k) cur fg r hc hs.disjoint
      fun next hnext => hsound.isAuth h.auth hk hnext with ⟨hexits, hno⟩ | ⟨r', next', heq, hne, hpass⟩
    · refine ⟨iff_of_true hexits.ends hclear, iff_of_false hexits.not_descend ?_⟩
      rintro ⟨k', dn', hkd, hp⟩
      cases hkd
      exact hno next hp
    · refine ⟨iff_of_true ⟨_, heq, hne⟩ hclear, ⟨?_, ?_⟩⟩
      · rintro ⟨r'', hr''⟩
        cases heq.symm.trans hr''
        exact ⟨k, dn, rfl, hpass⟩
      · rintro ⟨k', dn', hkd, hp⟩
        cases hkd
        cases hpass.linkage.symm.trans hp.linkage
        exact ⟨r', heq⟩

theorem pickFrag_of_getElem? (hname : m.want[i]? = some name) (x : Inode) : pickFrag m i x = .ok (x.pickDirfrag name) := by
  rw [pickFrag, want_isEmpty_of_getElem? hname, if_neg Bool.false_ne_true, getDentry_eq hname]
  rfl

/-- The loop body ends as it should exactly if there is room for the null dentry. -/
theorem visit_ends_iff (hc : c.Lawful) (hs : s.Sound) (hname : m.want[i]? = some name) (reply : Reply ι) :
    Ends c (visit c m s i cur reply) ↔ Clear m s i cur := by
  rcases visit_cases hc hs (pickFrag_of_getElem? hname (s.inode cur)) reply with ⟨hexits, hno⟩ | ⟨d, hd, heq⟩
  · refine iff_of_true hexits.ends fun fg' d' name' h => ?_
    cases h.frag.symm.trans (pickFrag_of_getElem? hname (s.inode cur))
    exact absurd h (hno d')
  · rw [heq, (search_spec hc hs hd hname reply cur).1]
    constructor
    · intro h fg' d' name' h' hname'
      obtain ⟨rfl, rfl⟩ := hd.unique h'
      cases hname.symm.trans hname'
      exact h
    · exact fun h => h _ d name hd hname

theorem visit_descend_iff (hc : c.Lawful) (hs : s.Sound) (hname : m.want[i]? = some name) (reply : Reply ι) :
    (∃ r, visit c m s i cur reply = .ok (.descend r next)) ↔ Descends m s i cur next := by
  rcases visit_cases hc hs (pickFrag_of_getElem? hname (s.inode cur)) reply with ⟨hexits, hno⟩ | ⟨d, hd, heq⟩
  · refine iff_of_false hexits.not_descend ?_
    rintro ⟨fg', d', name', k, dn, h, -⟩
    cases h.frag.symm.trans (pickFrag_of_getElem? hname (s.inode cur))
    exact hno d' h
  · rw [heq, (search_spec hc hs hd hname reply _).2]
    constructor
    · rintro ⟨k, dn, hl, hp⟩
      exact ⟨_, d, name, k, dn, hd, hname, hl, hp⟩
    · rintro ⟨fg', d', name', k, dn, h', hname', hl, hp⟩
      obtain ⟨rfl, rfl⟩ := hd.unique h'
      cases hname.symm.trans hname'
      exact ⟨k, dn, hl, hp⟩

/-- Without a path, the loop body is run once. -/
theorem visit_nil (hc : c.Lawful) (hs : s.Sound) (hw : m.want = []) (hfg : pickFrag m i (s.inode cur) = .ok fg)
    (hor : m.wantsBaseDir = true ∨ c.isEmpty reply = false) : Exits c (visit c m s i cur reply) := by
  rcases visit_cases hc hs hfg reply with ⟨hexits, -⟩ | ⟨d, hd, heq⟩
  · exact hexits
  · obtain ⟨r, hr, hne⟩ := addDir_spec hc hs hd reply
    rw [heq, search, hr]
    show Exits c (if d.version = 0 then _ else _)
    rw [if_neg hd.fetched, hw]
    exact exits_stop hs.disjoint (hne hor)

/-! ## The loop -/

theorem loop_of_exits {fuel : ℕ} (h : Exits c (visit c m s i cur reply)) (hi : i < m.want.length ∨ m.want.isEmpty = true) :
    Finishes c (loop c m s (fuel + 1) i cur reply) := by
  obtain ⟨st, hst, hproper, hne⟩ := h
  rw [loop, if_pos (by simpa using hi), hst]
  cases st with
  | descend r next => exact absurd rfl (hne r next)
  | stop s' r => exact ⟨_, rfl, hproper⟩
  | retry s' w => exact ⟨_, rfl, hproper⟩

theorem loop_of_descend {fuel : ℕ} (h : visit c m s i cur reply = .ok (.descend r next)) (hi : i < m.want.length) :
    loop c m s (fuel + 1) i cur reply = loop c m s fuel (i + 1) next r := by
  rw [loop, if_pos (by simpa using .inl hi), h]
  rfl

theorem clear_of_loop {fuel : ℕ} (hc : c.Lawful) (hs : s.Sound) (hname : m.want[i]? = some name) (hi : i < m.want.length)
    (h : Finishes c (loop c m s (fuel + 1) i cur reply)) : Clear m s i cur := by
  obtain ⟨o, ho, hproper⟩ := h
  rw [loop, if_pos (by simpa using .inl hi), bind_ok] at ho
  obtain ⟨st, hst, hrest⟩ := ho
  cases st with
  | descend r next => exact ((visit_descend_iff hc hs hname reply).mp ⟨r, hst⟩).clear
  | stop s' r =>
    cases hrest
    exact (visit_ends_iff hc hs hname reply).mp ⟨_, hst, hproper⟩
  | retry s' w =>
    cases hrest
    exact (visit_ends_iff hc hs hname reply).mp ⟨_, hst, hproper⟩

/-- The loop goes on wherever it can. -/
theorem Reaches.loop {b : ι} (hc : c.Lawful) (hs : s.Sound) (hb : s.baseInode m = some b) (h : Reaches m s i cur)
    (hfin : Finishes c (loop c m s (m.want.length + 1) 0 b reply)) :
    i ≤ m.want.length ∧ ∃ r, Finishes c (Discover.loop c m s (m.want.length + 1 - i) i cur r) := by
  induction h with
  | base hb' =>
    cases hb.symm.trans hb'
    exact ⟨Nat.zero_le _, reply, hfin⟩
  | descend hr hd ih =>
    rename_i i cur next
    obtain ⟨hi, r, hr⟩ := ih
    have hname := hd
    obtain ⟨fg, d, name, k, dn, -, hname, -⟩ := hname
    have hlt : i < m.want.length := (List.getElem?_eq_some_iff.mp hname).1
    obtain ⟨r', hr'⟩ := (visit_descend_iff hc hs hname r).mpr hd
    rw [Nat.succ_sub hi, loop_of_descend hr' hlt] at hr
    refine ⟨hlt, r', ?_⟩
    rwa [Nat.add_sub_add_right]

theorem loop_ends {fuel : ℕ} (hc : c.Lawful) (hs : s.Sound) (hclear : ∀ i cur, Reaches m s i cur → Clear m s i cur)
    (hr : Reaches m s i cur) (hi : i ≤ m.want.length) (hwant : m.want ≠ []) (hne : i < m.want.length ∨ c.isEmpty reply = false)
    (hfuel : m.want.length < i + fuel) : Finishes c (loop c m s fuel i cur reply) := by
  induction fuel generalizing i cur reply with
  | zero => omega
  | succ fuel ih =>
    by_cases hlt : i < m.want.length
    · have hname : m.want[i]? = some m.want[i] := List.getElem?_eq_getElem hlt
      obtain ⟨st, hst, hproper⟩ := (visit_ends_iff hc hs hname reply).mpr (hclear i cur hr)
      cases st with
      | descend r next =>
        have hd := (visit_descend_iff hc hs hname reply).mp ⟨r, hst⟩
        rw [loop_of_descend hst hlt]
        exact ih (.descend hr hd) hlt (.inr hproper) (by omega)
      | stop s' r => exact loop_of_exits ⟨_, hst, hproper, fun _ _ h => by cases h⟩ (.inl hlt)
      | retry s' w => exact loop_of_exits ⟨_, hst, hproper, fun _ _ h => by cases h⟩ (.inl hlt)
    · rw [loop, if_neg (by simp [hlt, hwant])]
      exact ⟨_, rfl, hne.resolve_left hlt, hs.disjoint⟩

theorem loop_iff {b : ι} (hc : c.Lawful) (hs : s.Sound) (hb : s.baseInode m = some b) (hwant : m.want ≠ []) :
    Finishes c (loop c m s (m.want.length + 1) 0 b reply) ↔ ∀ i cur, Reaches m s i cur → Clear m s i cur := by
  constructor
  · intro hfin i cur hr fg d name hd hname
    obtain ⟨hi, r, hr⟩ := hr.loop hc hs hb hfin
    have hlt : i < m.want.length := (List.getElem?_eq_some_iff.mp hname).1
    rw [Nat.succ_sub hi] at hr
    exact clear_of_loop hc hs hname hlt hr fg d name hd hname
  · intro hclear
    have hpos : 0 < m.want.length := List.length_pos_of_ne_nil hwant
    exact loop_ends hc hs hclear (.base hb) hpos.le hwant (.inl hpos) (by omega)

/-! ## The handler -/

/-- A request that has no path asks for the directory of the base inode, or for a base inode that is
in the cache, or for what is not a directory. -/
def MDiscover.Asks (m : MDiscover) (s : State ι) : Prop :=
  m.want = [] → m.wantsBaseDir = false →
    if mdsInoIsBase m.baseIno = true then (s.getInode m.baseIno cephNosnap).isSome = true
    else ∀ b, s.baseInode m = some b → (s.inode b).isDir = false

/-- A request for a base inode. -/
theorem handleDiscover_base {whoami : ℤ} (hc : c.Lawful) (hs : s.Sound) (hsource : m.source ≠ whoami)
    (hbase : m.wantsBase = true) : Finishes c (handleDiscover c m s whoami) ↔
      (s.getInode m.baseIno cephNosnap).isSome = true := by
  rw [handleDiscover, bne_iff_ne.mpr hsource, assert_true_bind, start, if_pos hbase]
  cases hcur : s.getInode m.baseIno cephNosnap with
  | none => exact iff_of_false finishes_error Bool.false_ne_true
  | some cur =>
    rw [MDiscover.wantsBase, Bool.and_eq_true, Bool.and_eq_true, List.isEmpty_iff] at hbase
    refine iff_of_true ((finishes_answer_iff _).mpr ?_) rfl
    have hfg : ∃ fg, pickFrag m 0 (s.inode cur) = .ok fg := by
      rw [pickFrag, hbase.2, hbase.1.1, Bool.or_true]
      exact ⟨_, rfl⟩
    obtain ⟨fg, hfg⟩ := hfg
    refine loop_of_exits (visit_nil hc hs hbase.2 hfg (.inr (hc.isEmpty_of_trace ?_))) (.inr (by rw [hbase.2]; rfl))
    exact List.append_ne_nil_of_right_ne_nil _ (List.cons_ne_nil _ _)

/-- A request where there is no base inode. -/
theorem handleDiscover_none {whoami : ℤ} (hc : c.Lawful) (hs : s.Sound) (hsource : m.source ≠ whoami)
    (hbase : m.wantsBase = false) (hb : s.baseInode m = none) : Finishes c (handleDiscover c m s whoami) := by
  obtain ⟨r, hr, hne⟩ := noBase_spec hc m
  rw [handleDiscover, bne_iff_ne.mpr hsource, assert_true_bind, start, if_neg (by rw [hbase]; exact Bool.false_ne_true), hb, hr]
  exact (finishes_answer_iff (.ok (.reply s r))).mpr ⟨_, rfl, hne, hs.disjoint⟩

/-- A request that starts at an inode. -/
theorem handleDiscover_some {whoami : ℤ} {b : ι} (hsource : m.source ≠ whoami) (hbase : m.wantsBase = false)
    (hb : s.baseInode m = some b) : Finishes c (handleDiscover c m s whoami) ↔
      Finishes c (loop c m s (m.want.length + 1) 0 b (c.make m)) := by
  rw [handleDiscover, bne_iff_ne.mpr hsource, assert_true_bind, start, if_neg (by rw [hbase]; exact Bool.false_ne_true), hb]
  exact finishes_answer_iff _

/-- A request without a path that starts at an inode. -/
theorem loop_nil_iff {b : ι} (hc : c.Lawful) (hs : s.Sound) (hbase : m.wantsBase = false) (hb : s.baseInode m = some b)
    (hw : m.want = []) : Finishes c (loop c m s (m.want.length + 1) 0 b (c.make m)) ↔ m.Asks s := by
  rw [MDiscover.wantsBase, hw, List.isEmpty_nil, Bool.and_true] at hbase
  have hempty : m.want.isEmpty = true := List.isEmpty_iff.mpr hw
  cases hwants : m.wantsBaseDir with
  | true =>
    have hfg : ∃ fg, pickFrag m 0 (s.inode b) = .ok fg := by
      rw [pickFrag, if_pos hempty, hwants]
      exact ⟨_, rfl⟩
    obtain ⟨fg, hfg⟩ := hfg
    refine iff_of_true (loop_of_exits (visit_nil hc hs hw hfg (.inl hwants)) (.inr hempty)) fun _ h => ?_
    rw [hwants] at h
    cases h
  | false =>
    rw [hwants, Bool.not_false, Bool.and_true] at hbase
    have hasks : m.Asks s ↔ (s.inode b).isDir = false := by
      rw [MDiscover.Asks, if_neg (by rw [hbase]; exact Bool.false_ne_true)]
      constructor
      · exact fun h => h hw hwants b hb
      · intro h _ _ b' hb'
        cases hb.symm.trans hb'
        exact h
    rw [hasks]
    cases hdir : (s.inode b).isDir with
    | false =>
      refine iff_of_true (loop_of_exits ?_ (.inr hempty)) rfl
      rw [visit, hdir]
      exact exits_stop hs.disjoint (hc.isEmpty_errorDir _)
    | true =>
      have hvisit : visit c m s 0 b (c.make m) = .error .assert := by
        rw [visit, hdir, pickFrag, if_pos hempty, hwants, hbase]
        rfl
      refine iff_of_false ?_ (fun h => Bool.noConfusion h)
      rw [loop, if_pos (by rw [hempty, Bool.or_true]), hvisit]
      exact finishes_error

/-- A request is queued or answered as it should be exactly if it comes from another MDS, asks for
something, and there is room for a null dentry where a name is not found in a complete directory. -/
theorem handleDiscover_iff (hc : c.Lawful) (hs : s.Sound) (m : MDiscover) (whoami : ℤ) :
    (∃ o, handleDiscover c m s whoami = .ok o ∧ o.Proper c) ↔
      m.source ≠ whoami ∧ m.Asks s ∧ ∀ i cur, Reaches m s i cur → Clear m s i cur := by
  show Finishes c (handleDiscover c m s whoami) ↔ _
  by_cases hsource : m.source = whoami
  · refine iff_of_false ?_ fun h => h.1 hsource
    rw [handleDiscover, hsource, bne_self_eq_false]
    exact finishes_error
  rw [and_iff_right hsource]
  have hnil : m.want = [] → ∀ i cur, Reaches m s i cur → Clear m s i cur := by
    intro hw i cur _ fg d name _ hname
    rw [hw] at hname
    cases hname
  cases hbase : m.wantsBase with
  | true =>
    rw [handleDiscover_base hc hs hsource hbase]
    rw [MDiscover.wantsBase, Bool.and_eq_true, Bool.and_eq_true, List.isEmpty_iff, Bool.not_eq_true'] at hbase
    obtain ⟨⟨hino, hwants⟩, hw⟩ := hbase
    rw [and_iff_left (hnil hw), MDiscover.Asks, if_pos hino]
    exact ⟨fun h _ _ => h, fun h => h hw hwants⟩
  | false =>
    cases hb : s.baseInode m with
    | none =>
      refine iff_of_true (handleDiscover_none hc hs hsource hbase hb) ⟨?_, ?_⟩
      · intro hw hwants
        rw [MDiscover.wantsBase, hw, hwants] at hbase
        rw [if_neg (by simpa using hbase), hb]
        exact fun b h => by cases h
      · intro i cur hr
        obtain ⟨b, h⟩ := hr.baseInode
        cases hb.symm.trans h
    | some b =>
      rw [handleDiscover_some hsource hbase hb]
      by_cases hw : m.want = []
      · rw [loop_nil_iff hc hs hbase hb hw, and_iff_left (hnil hw)]
      · have hasks : m.Asks s := fun h => absurd h hw
        rw [loop_iff hc hs hb hw, and_iff_right hasks]

/-! ## A name that is younger than a snapshot -/

/-- A reply that is empty as long as nothing has been put in it. -/
def plainReply : ReplyClass ℕ where
  make m := ⟨.dir, [], false, none, cdirAuthUnknown, m.baseDirFrag⟩
  isEmpty r := r.trace.isEmpty && !r.flagErrorDir && r.dirAuthHint == cdirAuthUnknown

theorem lawful_plainReply : plainReply.Lawful := by
  constructor
  · exact fun m => rfl
  · intro r
    simp [plainReply, and_assoc]

/-- The root directory, complete, with a file `a` that was made after the ninth snapshot. -/
def rootDir : CDir ℕ where
  isAuth := true
  authority := ⟨0, cdirAuthUnknown⟩
  isFrozenTree := false
  isFrozenDir := false
  canAuthPin := true
  version := 1
  isComplete := true
  fetching := false
  items := (∅ : Std.ExtTreeMap Key (Dentry ℕ)).insert ⟨[97], cephNosnap⟩ ⟨10, .primary 2, false⟩
  numAny := 1

def withRoot : State ℕ where
  inodeMap ino snap := if ino = 1 ∧ snap = cephNosnap then some 1 else none
  inode i := ⟨i == 1, true, i == 1, ⟨0, cdirAuthUnknown⟩, false, false, false, false, fun _ => [], fun _ => true, fun _ => []⟩
  dirfrags i fg := if i = 1 ∧ fg = [] then some rootDir else none
  fragments _ := []

theorem getElem?_rootDir {k : Key} {dn : Dentry ℕ} (h : rootDir.items[k]? = some dn) :
    k = ⟨[97], cephNosnap⟩ ∧ dn = ⟨10, .primary 2, false⟩ := by
  rw [rootDir, getElem?_insert_key, Std.ExtTreeMap.getElem?_empty] at h
  split at h
  · cases h
    exact ⟨‹_›, rfl⟩
  · cases h

theorem dirfrags_withRoot {i : ℕ} {fg : BinaryPath} {d : CDir ℕ} (h : withRoot.dirfrags i fg = some d) : d = rootDir := by
  rw [withRoot] at h
  dsimp only at h
  split at h
  · cases h
    rfl
  · cases h

theorem sound_withRoot : withRoot.Sound := by
  constructor
  · intro i fg d h
    rw [dirfrags_withRoot h]
    constructor
    · intro k dn hk
      obtain ⟨rfl, rfl⟩ := getElem?_rootDir hk
      decide
    · intro k k' dn dn' hk hk' _ _ _ _ _ _
      rw [(getElem?_rootDir hk).1, (getElem?_rootDir hk').1]
  · intro i fg d h
    rw [dirfrags_withRoot h]
    constructor
    · rfl
    · exact fun h => by cases h
    · exact fun _ h => by cases h
    · exact fun _ h => by cases h
    · exact fun _ _ _ => rfl
    · exact fun h => by cases h
  · exact fun h => by cases h

/-- A name of the root directory is wanted, at a snapshot. -/
def wantsName (name : List Byte) (snap : Snapid) : MDiscover := ⟨1, 1, [], snap, [name], false, false⟩

/-- There is no `b`, which is what the reply says. -/
theorem handleDiscover_other : ∃ o, handleDiscover plainReply (wantsName [98] 5) withRoot 0 = .ok o ∧ o.Proper plainReply := by
  refine (handleDiscover_iff lawful_plainReply sound_withRoot (wantsName [98] 5) 0).mpr ⟨by decide, ?_, ?_⟩
  · exact fun h => by cases h
  · intro i cur _ fg d name hd hname _ _ k dn hk hkey
    rw [dirfrags_withRoot hd.dir] at hk
    rw [(getElem?_rootDir hk).1] at hkey
    have hmem := List.mem_of_getElem? hname
    rw [← hkey] at hmem
    exact absurd hmem (by decide)

/-- There was no `a` at the fifth snapshot, and an assertion fails. -/
theorem not_handleDiscover : withRoot.Sound ∧ (wantsName [97] 5).Asks withRoot ∧
    handleDiscover plainReply (wantsName [97] 5) withRoot 0 = .error .assert :=
  ⟨sound_withRoot, (fun h => by cases h), rfl⟩

end CephMds.Discover
