import FlowGraph.Proofs.Sharing

/-! # Reads that lie ahead

    A shared value that is computed ahead of a branch or of a loop is there
    for the paths behind it. Whether one of them reads it depends on the tests
    that the run meets. This module says which reads can still be reached.

    * `Ahead` follows the operations: a read lies ahead if the tests can be
      decided so that the run gets to it, with no store to the slot before.
      The first few of the tests may be taken out of the choice.
    * Laid out code leads to what lies ahead of it (`Lays.passes`), and to a
      read of each stored value that it needs (`Lays.reads`).

    Main statement: a value that is not left on the stack where it is computed
    has a read ahead of it, whichever way the next test goes
    (`Lays.foreseen`).
-/

namespace FlowGraph

/-! ## Casts -/

/-- The raw pieces of the code are casts. -/
def Code.OnlyCasts : Code → Prop
  | .raw _ ops => ∃ (category : Category) (default : Const), ops = category.castOps default
  | .andThen first rest => first.OnlyCasts ∧ rest.OnlyCasts
  | .setVariable _ value => value.OnlyCasts
  | .loop times body => times.OnlyCasts ∧ body.OnlyCasts
  | .branch condition yes no => condition.OnlyCasts ∧ yes.OnlyCasts ∧ no.OnlyCasts
  | _ => True

/-- So are those of the shared computations. -/
def Draft.OnlyCasts (d : Draft) : Prop := ∀ entry ∈ d.shared, entry.value.OnlyCasts

namespace Code

variable {value : Code}

theorem OnlyCasts.wrap (h : value.OnlyCasts) (c : Category) : (c.wrap value).OnlyCasts := by
  cases c <;> simp [Category.wrap, block, OnlyCasts, Code.const, h]

theorem OnlyCasts.cast (h : value.OnlyCasts) (c : Category) : (c.cast value).OnlyCasts := by
  unfold Category.cast
  cases c.default? with
  | none => exact ⟨h, trivial, trivial⟩
  | some default => exact ⟨h, ⟨c, default, rfl⟩, trivial⟩

theorem OnlyCasts.adapt (h : value.OnlyCasts) (produced consumed : PortDecl) :
    (Graph.adapt produced consumed value).OnlyCasts := by
  unfold Graph.adapt
  split
  · split
    · exact h
    · exact (h.wrap _).cast _
  · exact h.wrap _
  · exact h.cast _
  · exact h

theorem onlyCasts_load (c : Category) (literal : Literal) : (c.load literal).OnlyCasts := by
  unfold Category.load
  split <;> exact trivial

theorem onlyCasts_unconnected (r : Graph.Resolved) (index : Nat) (decl : PortDecl) :
    (Graph.unconnected r index decl).OnlyCasts := by
  unfold Graph.unconnected
  cases decl.form
  · exact onlyCasts_load _ _
  · exact (onlyCasts_load _ _).wrap _

end Code

namespace Graph

theorem Pulls.onlyCasts {g : Graph} {opened : List Port} {need : Need} {d d' : Draft} {c : Code}
    {log : List Event} (h : Pulls g opened need d c d' log) : c.OnlyCasts := by
  induction h with
  | own => exact Code.onlyCasts_unconnected _ _ _
  | driven _ _ _ _ _ ih => exact ih.adapt _ _
  | recalled hshared =>
    obtain ⟨id, entry, -, -, rfl⟩ := Draft.shared?_eq_some hshared
    trivial
  | single _ _ _ _ ih => exact ih
  | shared => trivial
  | constant _ _ ih => exact ih
  | getVariable => trivial
  | query => exact ⟨trivial, trivial⟩
  | arith _ _ _ ihx ihy => exact ⟨ihx, ihy, trivial, trivial⟩
  | compare _ _ _ ihx ihy => exact ⟨ihx, ihy, trivial, trivial⟩
  | not _ _ ih => exact ⟨ih, trivial, trivial⟩
  | mathConstant => trivial

theorem Pushes.onlyCasts {g : Graph} {signal : Signal} {d d' : Draft} {c : Code} {log : List Event}
    (h : Pushes g signal d c d' log) : c.OnlyCasts := by
  induction h with
  | branch _ hpulls _ _ ihyes ihno => exact ⟨hpulls.onlyCasts, ihyes, ihno⟩
  | loop _ hpulls _ _ ihbody ihnext => exact ⟨⟨hpulls.onlyCasts, ihbody⟩, ihnext, trivial⟩
  | setVariable _ _ hpulls _ ih => exact ⟨hpulls.onlyCasts, ih, trivial⟩
  | emit _ hpulls _ ih => exact ⟨⟨hpulls.onlyCasts, trivial, trivial⟩, ih, trivial⟩
  | nil => trivial
  | skip _ _ _ ih => exact ih
  | cons _ _ _ ihfirst ihrest => exact ⟨ihfirst, ihrest⟩

theorem Starts.onlyCasts {g : Graph} {ports : List Port} {d d' : Draft} {c : Code} {log : List Event}
    (h : Starts g ports d c d' log) : c.OnlyCasts := by
  induction h with
  | nil => trivial
  | cons hpushes _ ih => exact ⟨hpushes.onlyCasts, ih⟩

theorem kept_onlyCasts (g : Graph) : Kept g Draft.OnlyCasts where
  problems _ h := h
  share hpulls _ _ h := by
    intro entry hentry
    rcases List.mem_append.mp hentry with hold | hnew
    · exact h entry hold
    · rw [List.mem_singleton.mp hnew]
      exact hpulls.onlyCasts

/-- All raw code that a graph gives is for casts. -/
theorem Walked.onlyCasts {g : Graph} {body : Code} {draft : Draft} {log : List Event}
    (h : g.Walked body draft log) : body.OnlyCasts ∧ draft.OnlyCasts := by
  have hdraft := (kept_onlyCasts g).walked h fun _ hentry => by cases hentry
  obtain ⟨_, _, _, _, _, hstarts⟩ := h
  exact ⟨hstarts.onlyCasts, hdraft⟩

end Graph

/-! ## What lies ahead -/

/-- From these operations of the program on, a read of the slot can be
    reached, and nothing is stored to the slot before it. The next `free`
    tests of a branch or of a loop may go either way; behind them it is enough
    that one way leads to a read. Where a cast jumps, both ways have to. -/
inductive Ahead (program : List Op) (slot : Nat) : Nat → List Op → Prop
  | load {free ty rest} : Ahead program slot free (.load slot ty :: rest)
  | next {free o rest} : o.references? = none → o ≠ .ret → o.stores slot = false →
    Ahead program slot free rest → Ahead program slot free (o :: rest)
  | jump {free l target rest} : .label l :: target <:+ program →
    Ahead program slot free (.label l :: target) → Ahead program slot free (.jump l :: rest)
  | cast {free l target rest} : .label l :: target <:+ program →
    Ahead program slot free (.label l :: target) → Ahead program slot free rest →
    Ahead program slot free (.jumpIf l :: rest)
  | enter {l rest} : Ahead program slot 0 rest → Ahead program slot 0 (.jumpUnless l :: rest)
  | leave {l target rest} : .label l :: target <:+ program →
    Ahead program slot 0 (.label l :: target) → Ahead program slot 0 (.jumpUnless l :: rest)
  | either {free l target rest} : .label l :: target <:+ program →
    Ahead program slot free (.label l :: target) → Ahead program slot free rest →
    Ahead program slot (free + 1) (.jumpUnless l :: rest)

theorem suffix_of_append (ops : List Op) {behind program : List Op} (h : ops ++ behind <:+ program) :
    behind <:+ program :=
  (List.suffix_append ops behind).trans h

namespace Ahead

variable {program behind rest : List Op} {slot free : Nat}

theorem label {l : Label} (h : Ahead program slot free rest) : Ahead program slot free (.label l :: rest) :=
  .next rfl (by simp) rfl h

theorem store {slot' : Nat} (ty : Ty) (hne : slot' ≠ slot) (h : Ahead program slot free rest) :
    Ahead program slot free (.store slot' ty :: rest) :=
  .next rfl (by simp) (by simpa [Op.stores] using hne) h

theorem plain {o : Op} (ho : o.isPlain = true) (h : Ahead program slot free rest) :
    Ahead program slot free (o :: rest) := by
  refine .next (Op.references?_of_isPlain ho) ?_ (Op.stores_of_touchesSlot (Op.touchesSlot_of_isPlain ho) slot) h
  rintro rfl
  cases ho

/-- A read of any slot goes on. -/
theorem read (slot' : Nat) (ty : Ty) (h : Ahead program slot free rest) :
    Ahead program slot free (.load slot' ty :: rest) :=
  .next rfl (by simp) rfl h

/-- Both ways through a cast end behind it. -/
theorem castOps (c : Category) (default : Const) (d : Draft)
    (hsuffix : (d.emitRaw (c.castOps default)).ops ++ behind <:+ program) (h : Ahead program slot free behind) :
    Ahead program slot free ((d.emitRaw (c.castOps default)).ops ++ behind) := by
  -- categories differ only in what opens the box
  obtain ⟨unboxes, hplain, hops⟩ : ∃ unboxes : List Op, (∀ o ∈ unboxes, o.isPlain = true) ∧
      (d.emitRaw (c.castOps default)).ops =
        [Op.dup, .instanceOf c.heapClass, .jumpIf d.nextLabel, .pop, .const default, .jump (d.nextLabel + 1),
          .label d.nextLabel, .checkCast c.heapClass] ++ (unboxes ++ [Op.label (d.nextLabel + 1)]) := by
    refine ⟨if c = .text then [] else [.unbox c.heapClass], ?_, ?_⟩
    · cases c <;> simp [Op.isPlain]
    · cases c <;> rfl
  rw [hops] at hsuffix ⊢
  simp only [List.cons_append, List.nil_append, List.append_assoc] at hsuffix ⊢
  have hsame := suffix_of_append [_, _, _, _, _, _] hsuffix
  have hlast := suffix_of_append _ (suffix_of_append [_, _] hsame)
  have hunboxed : Ahead program slot free (unboxes ++ .label (d.nextLabel + 1) :: behind) := by
    clear hsame hlast hops hsuffix
    induction unboxes with
    | nil => exact h.label
    | cons o unboxes ih =>
      exact (ih fun o' ho' => hplain o' (List.mem_cons_of_mem _ ho')).plain (hplain o List.mem_cons_self)
  -- of the class: on to the check; of another one: the default, and over the check
  refine .plain rfl (.plain rfl (.cast hsame (.label (.plain rfl hunboxed)) ?_))
  exact .plain rfl (.plain rfl (.jump hlast h.label))

/-! ### Loops -/

variable {limit : Nat} {head : Label}

theorem loopStart (hlimit : limit ≠ slot) (hcounter : limit + 1 ≠ slot) (h : Ahead program slot free rest) :
    Ahead program slot free (loopStart limit ++ rest) :=
  .store _ hlimit (.plain rfl (.store _ hcounter h))

/-- The way to the test of a loop. -/
theorem loopTest (h : Ahead program slot free (.jumpUnless (head + 1) :: rest)) :
    Ahead program slot free (loopTest limit head ++ rest) :=
  .label (.read _ _ (.read _ _ (.plain rfl h)))

/-- Behind the body comes the test. -/
theorem loopEnd (hcounter : limit + 1 ≠ slot) (hsuffix : FlowGraph.loopTest limit head ++ rest <:+ program)
    (h : Ahead program slot free (FlowGraph.loopTest limit head ++ rest)) :
    Ahead program slot free (loopEnd limit head ++ behind) :=
  .read _ _ (.plain rfl (.plain rfl (.store _ hcounter (.jump hsuffix h))))

end Ahead

/-! ## Laid out code -/

/-- A draft from which code is laid out. -/
structure Draft.Ready (d : Draft) : Prop where
  reserved : d.Reserved
  apart : d.Apart
  casts : d.OnlyCasts

theorem Draft.Ready.of_advances {d d' : Draft} (h : d.Ready) (hd : d.Advances d') : d'.Ready :=
  ⟨h.reserved.of_advances hd, h.apart.of_advances hd, by
    rw [OnlyCasts, hd.shared]
    exact h.casts⟩

/-- Two uses have two slots. -/
theorem Draft.Ready.ne {d : Draft} (h : d.Ready) {place place' : Place} {slot slot' : Nat} (hat : d.At place slot)
    (hat' : d.At place' slot') (hne : place' ≠ place) : slot' ≠ slot := by
  rintro rfl
  exact hne (h.apart _ _ _ hat' hat)

/-- What the job lays out fits the draft and names only the first `n` shared
    values. -/
def Job.Suits (d : Draft) (n : Nat) : Job → Prop
  | .code c _ => c.Fits d.types n ∧ c.OnlyCasts
  | .stores ids _ => ∀ id ∈ ids, id < n

theorem Job.Suits.of_advances {job : Job} {d d' : Draft} {n : Nat} (h : job.Suits d n) (hd : d.Advances d') :
    job.Suits d' n := by
  cases job with
  | code c after => exact ⟨hd.types_eq ▸ h.1, h.2⟩
  | stores ids after => exact h

/-- The computation of a shared value names only smaller ones. -/
theorem Draft.Ready.suits_value {d : Draft} (h : d.Ready) {id : SharedId} {entry : Shared}
    (hentry : d.shared[id]? = some entry) (after : List Code) : (Job.code entry.value after).Suits d id :=
  ⟨(h.reserved.ordered id entry hentry).2, h.casts entry (List.mem_of_getElem? hentry)⟩

theorem Draft.Ready.isValue {d : Draft} (h : d.Ready) {id : SharedId} {entry : Shared}
    (hentry : d.shared[id]? = some entry) : entry.value.isValue = true :=
  (h.reserved.ordered id entry hentry).1

/-- The shared value has been stored, in this slot. -/
structure Draft.Filed (d : Draft) (q : SharedId) (slot : Nat) : Prop extends Draft.Ready d where
  at_slot : d.At (.shared q) slot
  stored : q ∈ d.stored

namespace Draft.Filed

variable {d d' : Draft} {q id : SharedId} {slot slot' : Nat}

theorem of_advances (h : d.Filed q slot) (hd : d.Advances d') : d'.Filed q slot where
  toReady := h.toReady.of_advances hd
  at_slot := hd.at_shared.mpr h.at_slot
  stored := hd.stored q h.stored

/-- A shared value that is still to be computed is another one. -/
theorem ne_of_new (h : d.Filed q slot) (hnew : d.isStored id = false) : id ≠ q := by
  rintro rfl
  simp [Draft.isStored, h.stored] at hnew

/-- A shared value that is still to be computed goes to another slot. -/
theorem slot_ne_of_new (h : d.Filed q slot) (hnew : d.isStored id = false) {entry : Shared}
    (hentry : d.shared[id]? = some entry) (hslot : entry.slot = some slot') : slot' ≠ slot := by
  have hat : d.At (.shared id) slot' := ⟨entry, hentry, hslot⟩
  apply h.ne h.at_slot hat
  simpa using h.ne_of_new hnew

/-- No slot from here on is that of the value. -/
theorem slot_ne_of_le (h : d.Filed q slot) (hle : d.nextSlot ≤ slot') : slot' ≠ slot :=
  Places.ne_of_at_shared h.apart h.at_slot hle

end Draft.Filed

section

variable {program : List Op} {q : SharedId} {slot free : Nat}

/-- Laid out code leads to what lies ahead of it, if it was stored before. A
    straight piece does so without a test. -/
theorem Lays.passes {job : Job} {d d' : Draft} {ops : List Op} (h : Lays job d ops d') {n : Nat}
    (hd : d.Filed q slot) (hjob : job.Suits d n) (hfree : job.IsStraight ∨ free = 0) {behind : List Op}
    (hsuffix : ops ++ behind <:+ program) (hahead : Ahead program slot free behind) :
    Ahead program slot free (ops ++ behind) := by
  induction h generalizing n behind with
  | op => exact .plain hjob.1 hahead
  | done => exact hahead
  | @andThen first rest after d _ d₁ _ _ hf hr ihf ihr =>
    rw [List.append_assoc] at hsuffix ⊢
    have hrest : (Job.code rest after).Suits d n := ⟨hjob.1.2, hjob.2.2⟩
    have hstraight : ((Job.code first (rest :: after)).IsStraight ∧ (Job.code rest after).IsStraight) ∨ free = 0 :=
      hfree.imp_left Bool.and_eq_true_iff.mp
    refine ihf hd ⟨hjob.1.1, hjob.2.1⟩ (hstraight.imp_left And.left) hsuffix ?_
    exact ihr (hd.of_advances hf.advances) (hrest.of_advances hf.advances) (hstraight.imp_left And.right)
      (suffix_of_append _ hsuffix) hahead
  | raw =>
    obtain ⟨-, c, default, rfl⟩ := hjob
    exact .castOps c default _ hsuffix hahead
  | load => exact .read _ _ hahead
  | @compute id _ _ d _ _ _ _ hentry hslot hnew _ ih =>
    have hmark := hd.of_advances (d.advances_markStored id)
    rw [List.append_assoc] at hsuffix ⊢
    refine ih hmark (hmark.suits_value hentry _) (.inl (hd.isValue hentry)) hsuffix ?_
    exact .plain rfl (.store _ (hd.slot_ne_of_new hnew hentry hslot) hahead)
  | getVariable => exact .read _ _ hahead
  | @setVariable name _ _ d var _ _ hv hvar ih =>
    rw [List.append_assoc] at hsuffix ⊢
    have hat : d.At (.var name) var := by rwa [Draft.At, ← hv.advances.variableSlots]
    have hne := hd.ne hd.at_slot hat (by simp)
    exact ih hd hjob (hfree.imp_left fun h => by cases h) hsuffix (.store _ hne hahead)
  | @loop times body after d _ d₁ _ d₂ _ _ ht hh hb iht ihh ihb =>
    obtain rfl : free = 0 := hfree.resolve_left fun h => by cases h
    have hlimit := hd.slot_ne_of_le ht.advances.nextSlot
    have hcounter := hd.slot_ne_of_le (Nat.le_succ_of_le ht.advances.nextSlot)
    simp only [List.append_assoc] at hsuffix ⊢
    have hstart := suffix_of_append _ hsuffix
    have hstores := suffix_of_append _ hstart
    have hend := suffix_of_append _ (suffix_of_append _ (suffix_of_append _ hstores))
    refine iht hd ⟨hjob.1.1, hjob.2.1⟩ (.inr rfl) hsuffix (.loopStart hlimit hcounter ?_)
    refine ihh (hd.of_advances (ht.advances.trans d₁.advances_beginLoop))
      (fun id hid => Draft.lt_of_mem_toHoist hid) (.inr rfl) hstores (.loopTest ?_)
    -- a loop may run no times
    exact .leave (suffix_of_append [_, _, _, _, _] hend) hahead.label
  | @branch condition yes no after d _ d₁ _ d₂ _ d₃ _ _ hc hh hy hn ihc ihh ihy ihn =>
    obtain rfl : free = 0 := hfree.resolve_left fun h => by cases h
    have hadv₃ := (hc.advances.trans hh.advances).trans d₂.advances_beginBranch
    have hyes : (Job.code yes after).Suits d n := ⟨hjob.1.2.1, hjob.2.2.1⟩
    simp only [List.append_assoc] at hsuffix ⊢
    have hstores := suffix_of_append _ hsuffix
    have harms := suffix_of_append [_] (suffix_of_append _ hstores)
    have hlast := suffix_of_append _ (suffix_of_append [_, _] (suffix_of_append _ harms))
    refine ihc hd ⟨hjob.1.1, hjob.2.1⟩ (.inr rfl) hsuffix ?_
    refine ihh (hd.of_advances hc.advances) (fun id hid => Draft.lt_of_mem_toHoist hid) (.inr rfl) hstores ?_
    -- either arm would do
    apply Ahead.enter
    exact ihy (hd.of_advances hadv₃) (hyes.of_advances hadv₃) (.inr rfl) harms (.jump hlast hahead.label)
  | nil => exact hahead
  | @skip id rest _ d _ _ _ _ ih =>
    exact ih hd (fun id hid => hjob id (List.mem_cons_of_mem _ hid)) (.inl trivial) hsuffix hahead
  | @store id rest after d _ _ _ _ _ _ hentry hslot hnew hvalue hr ihv ihr =>
    have hmark := hd.of_advances (d.advances_markStored id)
    have hadv₁ := (d.advances_markStored id).trans hvalue.advances
    have hjob' : (Job.stores rest after).Suits d n := fun id hid => hjob id (List.mem_cons_of_mem _ hid)
    simp only [List.append_assoc] at hsuffix ⊢
    have hrest := suffix_of_append [_] (suffix_of_append _ hsuffix)
    refine ihv hmark (hmark.suits_value hentry _) (.inl (hd.isValue hentry)) hsuffix ?_
    refine .store _ (hd.slot_ne_of_new hnew hentry hslot) ?_
    exact ihr (hd.of_advances hadv₁) (hjob'.of_advances hadv₁) (.inl trivial) hrest hahead

end

/-! ## Values that are needed -/

namespace Draft

variable {d d' : Draft} {n : Nat} {id q : SharedId} {c : Code}

/-- The shared value is `q`, or its computation needs `q`. -/
def Involves (d : Draft) (id q : SharedId) : Prop :=
  q = id ∨ ∃ entry, d.shared[id]? = some entry ∧ d.Reaches entry.value q

theorem reaches_shared_iff {ty : Ty} : d.Reaches (.shared id ty) q ↔ d.Involves id q := by
  constructor
  · intro h
    refine h.least (fun q hq => .inl (List.mem_singleton.mp hq)) fun id' hid' q hq => .inr ?_
    rcases hid' with rfl | ⟨entry, hentry, hreaches⟩
    · cases hentry : d.shared[id']? with
      | none => simp [mentions, hentry] at hq
      | some entry => exact ⟨entry, rfl, .mention (mentions_eq hentry ▸ hq)⟩
    · exact ⟨entry, hentry, hreaches.mentions hq⟩
  · rintro (rfl | ⟨entry, hentry, hreaches⟩)
    · exact .mention (List.mem_singleton.mpr rfl)
    · exact hreaches.of_mentions fun q hq => .through (.mention (List.mem_singleton.mpr rfl)) hentry hq

theorem reaches_setVariable_iff {name : String} {value : Code} :
    d.Reaches (.setVariable name value) q ↔ d.Reaches value q := by
  constructor
  · exact fun h => h.of_mentions fun _ hid => .mention (by simpa [Code.mentions] using hid)
  · exact fun h => h.of_mentions fun _ hid => .mention (by simpa [Code.mentions] using hid)

/-- Code needs what is involved in what it needs. -/
theorem Reaches.trans (h : d.Reaches c id) (hid : d.Involves id q) : d.Reaches c q := by
  rcases hid with rfl | ⟨entry, hentry, hreaches⟩
  · exact h
  · exact hreaches.of_mentions fun q hq => .through h hentry hq

/-- A value that involves another one needs it for its computation. -/
theorem Involves.reaches {entry : Shared} (h : d.Involves id q) (hentry : d.shared[id]? = some entry)
    (hne : id ≠ q) : d.Reaches entry.value q := by
  obtain ⟨entry', hentry', hreaches⟩ := h.resolve_left hne.symm
  cases hentry.symm.trans hentry'
  exact hreaches

theorem Involves.trans {id' : SharedId} (h : d.Involves id id') (hid' : d.Involves id' q) : d.Involves id q := by
  rcases h with rfl | ⟨entry, hentry, hreaches⟩
  · exact hid'
  · exact .inr ⟨entry, hentry, hreaches.trans hid'⟩

theorem Advances.involves_iff (h : d.Advances d') : d'.Involves id q ↔ d.Involves id q := by
  simp only [Involves, h.shared, h.reaches_iff]

theorem not_reaches_of_mentions (h : c.mentions = []) : ¬d.Reaches c q :=
  fun hreaches => hreaches.least (fun id hid => by simp [h] at hid) fun _ hfalse => False.elim hfalse

theorem Ready.lt_of_reaches (hd : d.Ready) (hc : c.Fits d.types n) (h : d.Reaches c q) : q < n := by
  refine h.least (fun id hid => hc.lt_of_mem hid) fun id hid id' hid' => ?_
  cases hentry : d.shared[id]? with
  | none => simp [mentions, hentry] at hid'
  | some entry =>
    exact Nat.lt_trans ((hd.reserved.ordered id entry hentry).2.lt_of_mem (mentions_eq hentry ▸ hid')) hid

/-- A computation involves only smaller ones and itself. -/
theorem Ready.le_of_involves (hd : d.Ready) (h : d.Involves id q) : q ≤ id := by
  rcases h with rfl | ⟨entry, hentry, hreaches⟩
  · exact Nat.le_refl q
  · exact Nat.le_of_lt (hd.lt_of_reaches (hd.reserved.ordered id entry hentry).2 hreaches)

theorem Sealed.of_involves (hd : d.Sealed) (hid : id ∈ d.stored) (h : d.Involves id q) : q ∈ d.stored := by
  rcases h with rfl | ⟨entry, hentry, hreaches⟩
  · exact hid
  · refine hreaches.least (fun id' hid' => hd id hid id' ?_) hd
    rwa [mentions_eq hentry]

/-- Of the first `n` shared values, no other one that is stored involves
    `q`. -/
def Clear (d : Draft) (n : Nat) (q : SharedId) : Prop :=
  ∀ id ∈ d.stored, id < n → id ≠ q → ¬d.Involves id q

/-- No more is stored than before. -/
theorem Clear.of_stored (h : d.Clear n q) (hd : d.Advances d') (hstored : ∀ id ∈ d'.stored, id ∈ d.stored) :
    d'.Clear n q :=
  fun id hid hlt hne hinvolves => h id (hstored id hid) hlt hne (hd.involves_iff.mp hinvolves)

theorem Clear.of_advances (h : d'.Clear n q) (hd : d.Advances d') : d.Clear n q :=
  fun id hid hlt hne hinvolves => h id (hd.stored id hid) hlt hne (hd.involves_iff.mpr hinvolves)

/-- What is being computed involves only smaller ones. -/
theorem Clear.markStored (h : d.Clear n q) (hid : id ≤ n) : (d.markStored id).Clear id q := by
  intro id' hid' hlt hne hinvolves
  have hid' : id' ∈ d.stored := by simpa [Draft.markStored, Nat.ne_of_lt hlt] using hid'
  exact h id' hid' (Nat.lt_of_lt_of_le hlt hid) hne ((d.advances_markStored id).involves_iff.mp hinvolves)

end Draft

/-- What is laid out needs the shared value. -/
def Job.Leads (d : Draft) (q : SharedId) : Job → Prop
  | .code c _ => d.Reaches c q
  | .stores ids _ => ∃ id ∈ ids, id ∉ d.stored ∧ d.Involves id q

theorem Job.Leads.trans {job : Job} {d : Draft} {id q : SharedId} (h : job.Leads d id) (hid : d.Involves id q) :
    job.Leads d q := by
  cases job with
  | code c after => exact Draft.Reaches.trans h hid
  | stores ids after =>
    obtain ⟨id₀, hmem, hnew, hinvolves⟩ := h
    exact ⟨id₀, hmem, hnew, hinvolves.trans hid⟩

/-- Only what is needed is stored. -/
theorem Lays.leads_of_stored {job : Job} {d d' : Draft} {ops : List Op} (h : Lays job d ops d') {q : SharedId}
    (hq : q ∈ d'.stored) (hnew : q ∉ d.stored) : job.Leads d q := by
  induction h with
  | op => exact absurd hq hnew
  | done => exact absurd hq hnew
  | @andThen first rest _ _ _ d₁ _ _ hf _ ihf ihr =>
    refine (Draft.reaches_iff_of_mentions rfl).mpr ?_
    -- the part that has stored it leads to it
    by_cases hq₁ : q ∈ d₁.stored
    · exact .inl (ihf hq₁ hnew)
    · exact .inr (hf.advances.reaches_iff.mp (ihr hq hq₁))
  | raw => exact absurd hq hnew
  | load => exact absurd hq hnew
  | @compute id _ _ d entry _ _ _ hentry _ _ _ ih =>
    refine Draft.reaches_shared_iff.mpr ?_
    by_cases heq : q = id
    · exact .inl heq
    · have hvalue := ih hq (by simp [Draft.markStored, heq, hnew])
      exact .inr ⟨entry, hentry, (d.advances_markStored id).reaches_iff.mp hvalue⟩
  | getVariable => exact absurd hq hnew
  | @setVariable name value _ d _ _ _ _ _ ih =>
    exact Draft.reaches_setVariable_iff.mpr (ih hq hnew)
  | @loop times body after _ _ d₁ _ _ _ _ ht _ _ iht ihh _ =>
    refine (Draft.reaches_iff_of_mentions rfl).mpr ?_
    by_cases hq₁ : q ∈ d₁.stored
    · exact .inl (iht hq₁ hnew)
    · -- behind the loop only what was stored ahead of it counts, and the body needs all of that
      obtain ⟨id, hid, -, hinvolves⟩ := ihh hq hq₁
      have hbody := Draft.needs_singleton.mp (Draft.needs_of_mem_toHoist hid)
      exact .inr (ht.advances.reaches_iff.mp (hbody.trans (d₁.advances_beginLoop.involves_iff.mp hinvolves)))
  | @branch condition yes no after _ _ d₁ _ _ _ _ _ _ hc _ _ _ ihc ihh _ _ =>
    refine Draft.reaches_branch_iff.mpr ?_
    by_cases hq₁ : q ∈ d₁.stored
    · exact .inl (ihc hq₁ hnew)
    · obtain ⟨id, hid, -, hinvolves⟩ := ihh hq hq₁
      have harm := Draft.needs_cons.mp (Draft.needs_of_mem_toHoist hid)
      rw [Draft.needs_singleton] at harm
      exact .inr (harm.imp (fun h => hc.advances.reaches_iff.mp (h.trans hinvolves))
        fun h => hc.advances.reaches_iff.mp (h.trans hinvolves))
  | nil => exact absurd hq hnew
  | skip _ _ ih =>
    obtain ⟨id, hid, hrest⟩ := ih hq hnew
    exact ⟨id, List.mem_cons_of_mem _ hid, hrest⟩
  | @store id rest _ d entry _ _ d₁ _ _ hentry _ hstored hvalue _ ihv ihr =>
    have hmark := d.advances_markStored id
    -- it is the computation itself, or stored with its value, or one of the rest
    by_cases heq : q = id
    · subst heq
      exact ⟨q, List.mem_cons_self, hnew, .inl rfl⟩
    by_cases hq₁ : q ∈ d₁.stored
    · have hreaches := hmark.reaches_iff.mp (ihv hq₁ (by simp [Draft.markStored, heq, hnew]))
      exact ⟨id, List.mem_cons_self, by simpa [Draft.isStored] using hstored, .inr ⟨entry, hentry, hreaches⟩⟩
    · have hadv₁ := hmark.trans hvalue.advances
      obtain ⟨id', hid', hnew', hinvolves⟩ := ihr hq hq₁
      exact ⟨id', List.mem_cons_of_mem _ hid', fun h => hnew' (hadv₁.stored id' h), hadv₁.involves_iff.mp hinvolves⟩

/-- What does not need `q` stores nothing that involves it. -/
theorem Lays.clear {job : Job} {d d' : Draft} {ops : List Op} (h : Lays job d ops d') {n : Nat} {q : SharedId}
    (hclear : d.Clear n q) (hleads : ¬job.Leads d q) : d'.Clear n q := by
  intro id hid hlt hne hinvolves
  have hinvolves := h.advances.involves_iff.mp hinvolves
  by_cases hold : id ∈ d.stored
  · exact hclear id hold hlt hne hinvolves
  · exact hleads ((h.leads_of_stored hid hold).trans hinvolves)

/-- What is computed ahead of regions that fit comes from the first `n`. -/
theorem Draft.Ready.suits_toHoist {d : Draft} (hd : d.Ready) {n : Nat} {regions : List Code}
    (hregions : ∀ c ∈ regions, c.Fits d.types n) (after after' : List Code) :
    (Job.stores (d.toHoist regions after) after').Suits d n := by
  intro id hid
  obtain ⟨c, hc, hreaches⟩ := needs_of_mem_toHoist hid
  exact hd.lt_of_reaches (hregions c hc) hreaches

section

variable {program : List Op} {q : SharedId} {slot n : Nat} {after : List Code} {d d₁ d₂ d₃ d₄ : Draft}
  {ops ops₁ ops₂ ops₃ ops₄ : List Op}

/-- The operations of the job lead to a read of the value, if it is stored and
    the job needs it. A straight piece does so without a test. -/
def ReadsAhead (program : List Op) (q : SharedId) (slot : Nat) (job : Job) (d : Draft) (ops : List Op) : Prop :=
  ∀ ⦃n free : Nat⦄ ⦃behind : List Op⦄, d.Filed q slot → job.Suits d n → d.Clear n q → job.Leads d q →
    job.IsStraight ∨ free = 0 → ops ++ behind <:+ program → Ahead program slot free (ops ++ behind)

/-- The read is in what comes first, or else in the rest. -/
theorem Lays.reads_or_passes {job : Job} (h : Lays job d ops d₁) (hreads : ReadsAhead program q slot job d ops)
    (hd : d.Filed q slot) (hjob : job.Suits d n) (hclear : d.Clear n q) {free : Nat}
    (hfree : job.IsStraight ∨ free = 0) {behind : List Op} (hsuffix : ops ++ behind <:+ program)
    (hbehind : ¬job.Leads d q → d₁.Clear n q → Ahead program slot free behind) :
    Ahead program slot free (ops ++ behind) := by
  by_cases hleads : job.Leads d q
  · exact hreads hd hjob hclear hleads hfree hsuffix
  · exact h.passes hd hjob hfree hsuffix (hbehind hleads (h.clear hclear hleads))

namespace ReadsAhead

theorem andThen {first rest : Code} (hf : Lays (.code first (rest :: after)) d ops₁ d₁)
    (hfirst : ReadsAhead program q slot (.code first (rest :: after)) d ops₁)
    (hrest : ReadsAhead program q slot (.code rest after) d₁ ops₂) :
    ReadsAhead program q slot (.code (.andThen first rest) after) d (ops₁ ++ ops₂) := by
  intro n free behind hd hjob hclear hleads hfree hsuffix
  rw [List.append_assoc] at hsuffix ⊢
  have hjob' : (Job.code rest after).Suits d n := ⟨hjob.1.2, hjob.2.2⟩
  have hstraight : ((Job.code first (rest :: after)).IsStraight ∧ (Job.code rest after).IsStraight) ∨ free = 0 :=
    hfree.imp_left Bool.and_eq_true_iff.mp
  refine hf.reads_or_passes hfirst hd ⟨hjob.1.1, hjob.2.1⟩ hclear (hstraight.imp_left And.left) hsuffix
    fun hnot hclear₁ => ?_
  have hleads := ((Draft.reaches_iff_of_mentions rfl).mp hleads).resolve_left hnot
  exact hrest (hd.of_advances hf.advances) (hjob'.of_advances hf.advances) hclear₁
    (hf.advances.reaches_iff.mpr hleads) (hstraight.imp_left And.right) (suffix_of_append _ hsuffix)

/-- What is computed here is another shared value, and its computation needs
    this one. -/
theorem value {id : SharedId} {entry : Shared} (hentry : d.shared[id]? = some entry) {back : List Op}
    (hvalue : ReadsAhead program q slot (.code entry.value after) (d.markStored id) ops) (hd : d.Filed q slot)
    (hlt : id < n) (hclear : d.Clear n q) (hreaches : d.Reaches entry.value q) {free : Nat} {behind : List Op}
    (hsuffix : ops ++ (back ++ behind) <:+ program) : Ahead program slot free (ops ++ (back ++ behind)) := by
  have hadv := d.advances_markStored id
  have hmark := hd.of_advances hadv
  exact hvalue hmark (hmark.suits_value hentry _) (hclear.markStored (Nat.le_of_lt hlt))
    (hadv.reaches_iff.mpr hreaches) (.inl (hd.isValue hentry)) hsuffix

theorem loop {times body : Code} (ht : Lays (.code times (body :: after)) d ops₁ d₁)
    (hh : Lays (.stores (d₁.toHoist [body] after) (body :: after)) d₁.beginLoop ops₂ d₂)
    (htimes : ReadsAhead program q slot (.code times (body :: after)) d ops₁)
    (hahead : ReadsAhead program q slot (.stores (d₁.toHoist [body] after) (body :: after)) d₁.beginLoop ops₂)
    (hbody : ReadsAhead program q slot (.code body after) d₂ ops₃) :
    ReadsAhead program q slot (.code (.loop times body) after) d (ops₁ ++ loopStart d₁.nextSlot ++ ops₂ ++
      loopTest d₁.nextSlot d₁.nextLabel ++ ops₃ ++ loopEnd d₁.nextSlot d₁.nextLabel) := by
  intro n free behind hd hjob hclear hleads hfree hsuffix
  obtain rfl : free = 0 := hfree.resolve_left fun h => by cases h
  have hadv₁ := ht.advances.trans d₁.advances_beginLoop
  have hadv₂ := hadv₁.trans hh.advances
  have hlimit := hd.slot_ne_of_le ht.advances.nextSlot
  have hcounter := hd.slot_ne_of_le (Nat.le_succ_of_le ht.advances.nextSlot)
  have hjob' : (Job.code body after).Suits d n := ⟨hjob.1.2, hjob.2.2⟩
  have hids : (Job.stores (d₁.toHoist [body] after) (body :: after)).Suits d₁ n :=
    (hd.of_advances ht.advances).suits_toHoist (by simpa [ht.advances.types_eq] using hjob.1.2) _ _
  simp only [List.append_assoc] at hsuffix ⊢
  have hstores := suffix_of_append _ (suffix_of_append _ hsuffix)
  refine ht.reads_or_passes htimes hd ⟨hjob.1.1, hjob.2.1⟩ hclear (.inr rfl) hsuffix fun hnot hclear₁ => ?_
  have hleads := ((Draft.reaches_iff_of_mentions rfl).mp hleads).resolve_left hnot
  refine .loopStart hlimit hcounter ?_
  refine hh.reads_or_passes hahead (hd.of_advances hadv₁) hids
    (hclear₁.of_stored d₁.advances_beginLoop fun _ h => h) (.inr rfl) hstores fun _ hclear₂ => ?_
  -- only the body is left, so one round has the read
  refine .loopTest (.enter ?_)
  exact hbody (hd.of_advances hadv₂) (hjob'.of_advances hadv₂) hclear₂ (hadv₂.reaches_iff.mpr hleads) (.inr rfl)
    (suffix_of_append _ (suffix_of_append _ hstores))

theorem branch {condition yes no : Code} (hc : Lays (.code condition (yes :: no :: after)) d ops₁ d₁)
    (hh : Lays (.stores (d₁.toHoist [yes, no] after) (yes :: no :: after)) d₁ ops₂ d₂)
    (hy : Lays (.code yes after) d₂.beginBranch ops₃ d₃)
    (hcondition : ReadsAhead program q slot (.code condition (yes :: no :: after)) d ops₁)
    (hahead : ReadsAhead program q slot (.stores (d₁.toHoist [yes, no] after) (yes :: no :: after)) d₁ ops₂)
    (hyes : ReadsAhead program q slot (.code yes after) d₂.beginBranch ops₃)
    (hno : ReadsAhead program q slot (.code no after) (d₃.restoreMarks d₂.stored) ops₄) :
    ReadsAhead program q slot (.code (.branch condition yes no) after) d
      (ops₁ ++ ops₂ ++ [Op.jumpUnless d₂.nextLabel] ++ ops₃ ++
        [Op.jump (d₂.nextLabel + 1), .label d₂.nextLabel] ++ ops₄ ++ [Op.label (d₂.nextLabel + 1)]) := by
  intro n free behind hd hjob hclear hleads hfree hsuffix
  obtain rfl : free = 0 := hfree.resolve_left fun h => by cases h
  have hadv₂ := hc.advances.trans hh.advances
  have hadv₃ := hadv₂.trans d₂.advances_beginBranch
  have hrestore := (d₂.advances_beginBranch.trans hy.advances).restore
  have hadv₄ := hadv₂.trans hrestore
  have hd₁ := hd.of_advances hc.advances
  have hyesJob : (Job.code yes after).Suits d n := ⟨hjob.1.2.1, hjob.2.2.1⟩
  have hnoJob : (Job.code no after).Suits d n := ⟨hjob.1.2.2, hjob.2.2.2⟩
  have hids : (Job.stores (d₁.toHoist [yes, no] after) (yes :: no :: after)).Suits d₁ n :=
    hd₁.suits_toHoist (by simpa [hc.advances.types_eq] using hjob.1.2) _ _
  simp only [List.append_assoc] at hsuffix ⊢
  have hstores := suffix_of_append _ hsuffix
  have harms := suffix_of_append [_] (suffix_of_append _ hstores)
  have hotherwise := suffix_of_append [_] (suffix_of_append _ harms)
  refine hc.reads_or_passes hcondition hd ⟨hjob.1.1, hjob.2.1⟩ hclear (.inr rfl) hsuffix fun hnot hclear₁ => ?_
  have hleads := (Draft.reaches_branch_iff.mp hleads).resolve_left hnot
  refine hh.reads_or_passes hahead hd₁ hids hclear₁ (.inr rfl) hstores fun _ hclear₂ => ?_
  -- only an arm is left: the test goes to the one that needs the value
  rcases hleads with hleads | hleads
  · apply Ahead.enter
    exact hyes (hd.of_advances hadv₃) (hyesJob.of_advances hadv₃)
      (hclear₂.of_stored d₂.advances_beginBranch fun _ h => h) (hadv₃.reaches_iff.mpr hleads) (.inr rfl) harms
  · refine .leave hotherwise (.label ?_)
    exact hno (hd.of_advances hadv₄) (hnoJob.of_advances hadv₄) (hclear₂.of_stored hrestore fun _ h => h)
      (hadv₄.reaches_iff.mpr hleads) (.inr rfl) (suffix_of_append [_] hotherwise)

theorem store {id : SharedId} {rest : List SharedId} {entry : Shared} {slot' : Nat}
    (hentry : d.shared[id]? = some entry) (hslot : entry.slot = some slot') (hnew : d.isStored id = false)
    (hv : Lays (.code entry.value after) (d.markStored id) ops₁ d₁)
    (hvalue : ReadsAhead program q slot (.code entry.value after) (d.markStored id) ops₁)
    (hrest : ReadsAhead program q slot (.stores rest after) d₁ ops₂) :
    ReadsAhead program q slot (.stores (id :: rest) after) d (ops₁ ++ [Op.store slot' entry.value.ty] ++ ops₂) := by
  intro n free behind hd hjob hclear hleads hfree hsuffix
  have hadv₁ := (d.advances_markStored id).trans hv.advances
  have hone : Lays (.stores [id] after) d (ops₁ ++ [Op.store slot' entry.value.ty]) d₁ := by
    simpa using Lays.store hentry hslot hnew hv .nil
  have hlt : id < n := hjob id List.mem_cons_self
  have hfirst : (Job.stores [id] after).Suits d n := by simpa [Job.Suits] using hlt
  have hjob' : (Job.stores rest after).Suits d n := fun id hid => hjob id (List.mem_cons_of_mem _ hid)
  rw [List.append_assoc] at hsuffix ⊢
  refine hone.reads_or_passes ?_ hd hfirst hclear (.inl trivial) hsuffix fun hnot hclear₁ => ?_
  · intro n free behind hd hjob hclear hleads _ hsuffix
    obtain ⟨id', hid', -, hinvolves⟩ := hleads
    obtain rfl := List.mem_singleton.mp hid'
    rw [List.append_assoc] at hsuffix ⊢
    exact hvalue.value hentry hd (hjob _ List.mem_cons_self) hclear (hinvolves.reaches hentry (hd.ne_of_new hnew)) hsuffix
  · -- one of the others leads to `q`, and it is still to be computed
    obtain ⟨id', hid', hnew', hinvolves⟩ := hleads
    have hid' : id' ∈ rest := by
      refine (List.mem_cons.mp hid').resolve_left ?_
      rintro rfl
      exact hnot ⟨id', List.mem_singleton_self _, hnew', hinvolves⟩
    have hnew₁ : id' ∉ d₁.stored := fun hid₁ => hnot ((hone.leads_of_stored hid₁ hnew').trans hinvolves)
    exact hrest (hd.of_advances hadv₁) (hjob'.of_advances hadv₁) hclear₁
      ⟨id', hid', hnew₁, hadv₁.involves_iff.mpr hinvolves⟩ (.inl trivial) (suffix_of_append _ hsuffix)

end ReadsAhead

/-- Laid out code leads to a read of each stored value that it needs. -/
theorem Lays.reads {job : Job} (h : Lays job d ops d₁) : ReadsAhead program q slot job d ops := by
  induction h with
  | op => exact fun _ _ _ _ _ _ hleads => absurd hleads (Draft.not_reaches_of_mentions rfl)
  | done => exact fun _ _ _ _ _ _ hleads => absurd hleads (Draft.not_reaches_of_mentions rfl)
  | andThen hf hr ihf ihr => exact .andThen hf ihf ihr
  | raw => exact fun _ _ _ _ _ _ hleads => absurd hleads (Draft.not_reaches_of_mentions rfl)
  | @load id _ _ d entry slot' hentry hslot hstored =>
    intro n free behind hd hjob hclear hleads hfree hsuffix
    have hat : d.At (.shared id) slot' := ⟨entry, hentry, hslot⟩
    have hinvolves : d.Involves id q := Draft.reaches_shared_iff.mp hleads
    -- a stored value that is another one does not involve `q`
    obtain rfl : id = q := by
      by_contra hne
      exact hclear id (by simpa [Draft.isStored] using hstored) hjob.1.1 hne hinvolves
    rw [Draft.at_unique hat hd.at_slot]
    exact .load
  | @compute id _ _ d _ _ _ _ hentry hslot hnew hv ih =>
    intro n free behind hd hjob hclear hleads hfree hsuffix
    rw [List.append_assoc] at hsuffix ⊢
    have hinvolves : d.Involves id q := Draft.reaches_shared_iff.mp hleads
    exact ih.value hentry hd hjob.1.1 hclear (hinvolves.reaches hentry (hd.ne_of_new hnew)) hsuffix
  | getVariable => exact fun _ _ _ _ _ _ hleads => absurd hleads (Draft.not_reaches_of_mentions rfl)
  | setVariable hv hvar ih =>
    intro n free behind hd hjob hclear hleads hfree hsuffix
    rw [List.append_assoc] at hsuffix ⊢
    exact ih hd hjob hclear (Draft.reaches_setVariable_iff.mp hleads) (hfree.imp_left fun h => by cases h) hsuffix
  | loop ht hh hb iht ihh ihb => exact .loop ht hh iht ihh ihb
  | branch hc hh hy hn ihc ihh ihy ihn => exact .branch hc hh hy ihc ihh ihy ihn
  | nil =>
    rintro n free behind - - - ⟨id, hid, -⟩
    cases hid
  | @skip id rest after d _ _ hstored _ ih =>
    rintro n free behind hd hjob hclear ⟨id', hid', hnew, hinvolves⟩ hfree hsuffix
    have hid' : id' ∈ rest := by
      refine (List.mem_cons.mp hid').resolve_left ?_
      rintro rfl
      exact hnew (by simpa [Draft.isStored] using hstored)
    exact ih hd (fun id hid => hjob id (List.mem_cons_of_mem _ hid)) hclear ⟨id', hid', hnew, hinvolves⟩
      (.inl trivial) hsuffix
  | store hentry hslot hnew hv hr ihv ihr => exact .store hentry hslot hnew hv ihv ihr

end

/-! ## Stores -/

/-- Each store to the slot leaves the value on the stack, or a read lies ahead
    whichever way the next test goes. -/
def Foreseen (program : List Op) (slot : Nat) (ops behind : List Op) : Prop :=
  ∀ (front : List Op) (ty : Ty) (back : List Op), ops = front ++ .store slot ty :: back →
    (∃ front', front = front' ++ [.dup]) ∨ Ahead program slot 1 (back ++ behind)

namespace Foreseen

variable {program ops ops' behind : List Op} {slot slot' : Nat}

theorem of_stores (h : storeCount slot ops = 0) : Foreseen program slot ops behind := by
  rintro front ty back rfl
  simp [Op.stores] at h

theorem append (h : Foreseen program slot ops (ops' ++ behind)) (h' : Foreseen program slot ops' behind) :
    Foreseen program slot (ops ++ ops') behind := by
  intro front ty back heq
  -- the store is in one of the two parts
  rcases List.append_eq_append_iff.mp heq with ⟨front', rfl, hops'⟩ | ⟨back', rfl, hback⟩
  · rcases h' front' ty back hops' with ⟨front, rfl⟩ | hahead
    · exact .inl ⟨ops ++ front, by simp⟩
    · exact .inr hahead
  · cases back' with
    | nil =>
      rcases h' [] ty back (by simpa using hback.symm) with ⟨front, hfront⟩ | hahead
      · simp at hfront
      · exact .inr hahead
    | cons o back' =>
      obtain ⟨rfl, rfl⟩ := List.cons.inj hback
      rcases h front ty back' rfl with hdup | hahead
      · exact .inl hdup
      · exact .inr (by simpa using hahead)

theorem inPlace (ty : Ty) : Foreseen program slot [.dup, .store slot' ty] behind := by
  intro front ty' back heq
  rcases front with _ | ⟨o, _ | ⟨o', front⟩⟩
  · simp at heq
  · obtain rfl : Op.dup = o := by simpa using congrArg List.head? heq
    exact .inl ⟨[], rfl⟩
  · simp at heq

theorem hoisted {ty : Ty} (h : slot' = slot → Ahead program slot 1 behind) :
    Foreseen program slot [.store slot' ty] behind := by
  intro front ty' back heq
  cases front with
  | nil =>
    simp only [List.nil_append, List.cons.injEq, Op.store.injEq] at heq
    obtain ⟨⟨rfl, -⟩, rfl⟩ := heq
    exact .inr (h rfl)
  | cons o front => simp at heq

end Foreseen

section

variable {program : List Op} {q : SharedId} {slot : Nat}

/-- Code for a value leaves on the stack all that it stores. -/
theorem Lays.foreseen_value {job : Job} {d d' : Draft} {ops : List Op} (h : Lays job d ops d') (hd : d.Ready) {n : Nat}
    (hjob : job.Suits d n) (hat : d.At (.shared q) slot) {c : Code} {after : List Code} (hcode : job = .code c after)
    (hvalue : c.isValue = true) (behind : List Op) : Foreseen program slot ops behind := by
  -- a value stores only by computing, and a computation is duplicated before it is stored
  induction h generalizing n c after behind with
  | op =>
    exact .of_stores (storeCount_of_touchesSlot (by simpa using Op.touchesSlot_of_isPlain hjob.1) slot)
  | done => exact .of_stores rfl
  | @andThen first rest after d _ _ _ _ hf _ ihf ihr =>
    cases hcode
    obtain ⟨hfirst, hrest⟩ := Bool.and_eq_true_iff.mp hvalue
    have hjob' : (Job.code rest after).Suits d n := ⟨hjob.1.2, hjob.2.2⟩
    exact (ihf hd ⟨hjob.1.1, hjob.2.1⟩ hat rfl hfirst _).append (ihr (hd.of_advances hf.advances)
      (hjob'.of_advances hf.advances) (hf.advances.at_shared.mpr hat) rfl hrest _)
  | raw =>
    refine .of_stores (storeCount_of_touchesSlot (fun o ho => ?_) slot)
    obtain ⟨o, hmem, rfl⟩ := List.mem_map.mp (by simpa [Emission.ops, Draft.emitRaw] using ho)
    rw [Op.touchesSlot_relabel]
    exact (Op.Closed.slots hjob.1 o hmem).1
  | load => exact .of_stores rfl
  | @compute id _ _ d _ _ _ _ hentry _ _ _ ih =>
    have hmark := d.advances_markStored id
    exact (ih (hd.of_advances hmark) ((hd.of_advances hmark).suits_value hentry _) (hmark.at_shared.mpr hat) rfl
      (hd.isValue hentry) _).append (.inPlace _)
  | getVariable => exact .of_stores rfl
  | setVariable => cases hcode; cases hvalue
  | loop => cases hcode; cases hvalue
  | branch => cases hcode; cases hvalue
  | nil => cases hcode
  | skip => cases hcode
  | store => cases hcode

/-- Nothing that is stored after the first one, or was before, involves it. -/
theorem Lays.clear_first {id : SharedId} {rest : List SharedId} {after : List Code} {d d' : Draft} {ops : List Op}
    (h : Lays (.stores (id :: rest) after) d ops d') (hd : d.Ready) (hsealed : d.Sealed) (hnew : id ∉ d.stored)
    (hrest : ∀ id' ∈ rest, id' < id) (n : Nat) : d'.Clear n id := by
  intro id' hid' _ hne hinvolves
  have hinvolves := h.advances.involves_iff.mp hinvolves
  have hle := hd.le_of_involves hinvolves
  by_cases hold : id' ∈ d.stored
  · exact hnew (hsealed.of_involves hold hinvolves)
  · obtain ⟨id₀, hid₀, -, hinvolves₀⟩ := h.leads_of_stored hid' hold
    have hle₀ := hd.le_of_involves hinvolves₀
    rcases List.mem_cons.mp hid₀ with rfl | hid₀
    · exact hne (Nat.le_antisymm hle₀ hle)
    · exact absurd (hrest id₀ hid₀) (Nat.not_lt.mpr (Nat.le_trans hle hle₀))

/-- What is computed ahead of regions is foreseen, if a read lies ahead of all
    these computations, whichever way the next test goes. Later shared values
    come first. -/
theorem Lays.foreseen_stores {job : Job} {d d' : Draft} {ops : List Op} (h : Lays job d ops d') (hd : d.Ready)
    (hsealed : d.Sealed) {n : Nat} (hjob : job.Suits d n) {ids : List SharedId} {after : List Code}
    (hcode : job = .stores ids after) (hids : ids.Pairwise (· > ·)) (hat : d.At (.shared q) slot)
    {behind : List Op} (hsuffix : ops ++ behind <:+ program)
    (hahead : q ∈ ids → q ∉ d.stored → q ∈ d'.stored → d'.Clear n q → Ahead program slot 1 behind) :
    Foreseen program slot ops behind := by
  induction h generalizing ids after with
  | nil => exact .of_stores rfl
  | @skip id rest after d _ _ _ _ ih =>
    cases hcode
    refine ih hd hsealed (fun id hid => hjob id (List.mem_cons_of_mem _ hid)) rfl hids.of_cons hat hsuffix ?_
    exact fun hq => hahead (List.mem_cons_of_mem _ hq)
  | @store id rest after d entry slot' ops₁ d₁ ops₂ d₂ hentry hslot hstored hvalue hr _ ihr =>
    cases hcode
    have hmark := d.advances_markStored id
    have hadv₁ := hmark.trans hvalue.advances
    have hnew : id ∉ d.stored := by simpa [Draft.isStored] using hstored
    have hrest : (Job.stores rest after).Suits d₁ n := fun id hid => hjob id (List.mem_cons_of_mem _ hid)
    obtain ⟨hlater, hids⟩ := List.pairwise_cons.mp hids
    -- the ids go down, so nothing that is still to come involves this one
    have hclear := (Lays.store hentry hslot hstored hvalue hr).clear_first hd hsealed hnew hlater n
    have hone : Lays (.stores [id] after) d (ops₁ ++ [Op.store slot' entry.value.ty]) d₁ := by
      simpa using Lays.store hentry hslot hstored hvalue .nil
    have hsealed₁ := (hone.fills hd.reserved hd.apart trivial trivial).isSealed hadv₁ hsealed
    have hid₁ : id ∈ d₁.stored := hvalue.advances.stored id List.mem_cons_self
    have hat₁ := hadv₁.at_shared.mpr hat
    rw [List.append_assoc] at hsuffix
    have hsuffix₂ := suffix_of_append _ hsuffix
    refine .append (.append ?_ (.hoisted fun hslot' => ?_)) ?_
    · exact hvalue.foreseen_value (hd.of_advances hmark) ((hd.of_advances hmark).suits_value hentry _)
        (hmark.at_shared.mpr hat) rfl (hd.isValue hentry) _
    · -- its own slot: the others leave it alone until the read that lies ahead
      have hat' : d.At (.shared id) slot := ⟨entry, hentry, hslot' ▸ hslot⟩
      cases hd.apart _ _ _ hat hat'
      refine hr.passes ⟨hd.of_advances hadv₁, hat₁, hid₁⟩ hrest (.inl trivial) hsuffix₂ ?_
      exact hahead List.mem_cons_self hnew (hr.advances.stored q hid₁) hclear
    · refine ihr (hd.of_advances hadv₁) hsealed₁ hrest rfl hids hat₁ hsuffix₂ fun hq hq₁ => ?_
      exact hahead (List.mem_cons_of_mem _ hq) fun hq₀ => hq₁ (hadv₁.stored q hq₀)
  | _ => cases hcode

/-- Laid out code leads to a read, its own one or one behind it. -/
theorem Lays.leadsOn {job : Job} {d d' : Draft} {ops : List Op} (h : Lays job d ops d') {n : Nat}
    (hd : d.Filed q slot) (hjob : job.Suits d n) (hclear : d.Clear n q) {behind : List Op}
    (hsuffix : ops ++ behind <:+ program)
    (hbehind : ¬job.Leads d q → d'.Clear n q → Ahead program slot 0 behind) : Ahead program slot 0 (ops ++ behind) :=
  h.reads_or_passes h.reads hd hjob hclear (.inr rfl) hsuffix hbehind

theorem Draft.pairwise_toHoist (d : Draft) (regions after : List Code) :
    (d.toHoist regions after).Pairwise (· > ·) := by
  unfold toHoist
  split
  · exact .nil
  · exact .filter _ (List.pairwise_reverse.mpr List.pairwise_lt_range)

section

variable {n : Nat} {after : List Code} {behind : List Op} {d d₁ d₂ d₃ d₄ : Draft} {ops₁ ops₂ ops₃ ops₄ : List Op}

/-- What the number of times or the body needs is read there, and what is
    needed behind the loop can be read after no more rounds. -/
theorem Foreseen.loop {times body : Code} (ht : Lays (.code times (body :: after)) d ops₁ d₁)
    (hh : Lays (.stores (d₁.toHoist [body] after) (body :: after)) d₁.beginLoop ops₂ d₂)
    (hb : Lays (.code body after) d₂ ops₃ d₃) (hd : d.Ready) (hsealed : d₁.Sealed)
    (hjob : (Job.code (.loop times body) after).Suits d n) (hat : d.At (.shared q) slot)
    (hsuffix : ops₁ ++ loopStart d₁.nextSlot ++ ops₂ ++ loopTest d₁.nextSlot d₁.nextLabel ++ ops₃ ++
      loopEnd d₁.nextSlot d₁.nextLabel ++ behind <:+ program)
    (hbehind : q ∈ d₂.stored → d₂.Clear n q → d.Needs after q → Ahead program slot 0 behind)
    (htimes : ∀ rest, ops₁ ++ rest <:+ program →
      (q ∈ d₁.stored → d₁.Clear n q → d.Needs (body :: after) q → Ahead program slot 0 rest) →
      Foreseen program slot ops₁ rest)
    (hbody : ∀ rest, ops₃ ++ rest <:+ program →
      (q ∈ d₃.stored → d₃.Clear n q → d.Needs after q → Ahead program slot 0 rest) →
      Foreseen program slot ops₃ rest) :
    Foreseen program slot (ops₁ ++ loopStart d₁.nextSlot ++ ops₂ ++ loopTest d₁.nextSlot d₁.nextLabel ++ ops₃ ++
      loopEnd d₁.nextSlot d₁.nextLabel) behind := by
  have hadv₁ := ht.advances.trans d₁.advances_beginLoop
  have hadv₂ := hadv₁.trans hh.advances
  have hd₁ := hd.of_advances hadv₁
  have hat₁ := hadv₁.at_shared.mpr hat
  have hlimit := Places.ne_of_at_shared hd.apart hat ht.advances.nextSlot
  have hcounter := Places.ne_of_at_shared hd.apart hat (Nat.le_succ_of_le ht.advances.nextSlot)
  have hbodyJob : (Job.code body after).Suits d n := ⟨hjob.1.2, hjob.2.2⟩
  have hids : (Job.stores (d₁.toHoist [body] after) (body :: after)).Suits d₁ n :=
    (hd.of_advances ht.advances).suits_toHoist (by simpa [ht.advances.types_eq] using hjob.1.2) _ _
  have hhoist (hq : q ∉ d₁.stored) : q ∈ d₁.toHoist [body] after ↔ d.Reaches body q ∧ d.Needs after q := by
    rw [Draft.mem_toHoist_loop_iff hsealed (ht.advances.shared ▸ Draft.lt_of_at_shared hat) hq,
      ht.advances.reaches_iff, ht.advances.needs_iff]
  simp only [List.append_assoc] at hsuffix
  have hstores := suffix_of_append _ (suffix_of_append _ hsuffix)
  have htest := suffix_of_append _ hstores
  have hround := suffix_of_append _ htest
  have hend := suffix_of_append [_, _, _, _, _] (suffix_of_append _ hround)
  have hinside (hq₂ : q ∈ d₂.stored) (hclear₂ : d₂.Clear n q) (hreaches : d.Reaches body q) :
      Ahead program slot 0 (ops₃ ++ (loopEnd d₁.nextSlot d₁.nextLabel ++ behind)) :=
    hb.reads ⟨hd.of_advances hadv₂, hadv₂.at_shared.mpr hat, hq₂⟩ (hbodyJob.of_advances hadv₂) hclear₂
      (hadv₂.reaches_iff.mpr hreaches) (.inr rfl) hround
  refine .append (.append (.append (.append (.append ?_ (.of_stores ?_)) ?_) (.of_stores rfl)) ?_) (.of_stores ?_)
  · refine htimes _ hsuffix fun hq₁ hclear₁ hneeds => .loopStart hlimit hcounter ?_
    refine hh.leadsOn ⟨hd₁, hat₁, hq₁⟩ hids (hclear₁.of_stored d₁.advances_beginLoop fun _ h => h) hstores
      fun _ hclear₂ => .loopTest ?_
    have hq₂ := hh.advances.stored q hq₁
    rcases Draft.needs_cons.mp hneeds with hreaches | hneeds
    · exact .enter (hinside hq₂ hclear₂ hreaches)
    · exact .leave hend (hbehind hq₂ hclear₂ hneeds).label
  · simp [loopStart, Op.stores, hlimit, hcounter]
  · refine hh.foreseen_stores hd₁ hsealed hids rfl (d₁.pairwise_toHoist _ _) hat₁ hstores
      fun hq hq₁ hq₂ hclear₂ => .loopTest ?_
    obtain ⟨hreaches, hneeds⟩ := (hhoist hq₁).mp hq
    exact .either hend (hbehind hq₂ hclear₂ hneeds).label (hinside hq₂ hclear₂ hreaches)
  · refine hbody _ hround fun hq₃ hclear₃ hneeds => .loopEnd hcounter htest (.loopTest (.leave hend ?_))
    refine (hbehind ?_ (hclear₃.of_advances hb.advances) hneeds).label
    -- had the body stored it alone, it would have been computed ahead of the loop
    by_contra hq₂
    have hreaches := hadv₂.reaches_iff.mp (hb.leads_of_stored hq₃ hq₂)
    have hq := (hhoist fun hq₁ => hq₂ (hh.advances.stored q hq₁)).mpr ⟨hreaches, hneeds⟩
    exact hq₂ ((hh.fills hd₁.reserved hd₁.apart trivial trivial).search.found q hq)
  · simp [loopEnd, Op.stores, hcounter]

/-- The first arm leads to a read, its own one or one behind the branch. -/
theorem Lays.yes_leadsOn {yes : Code} (hy : Lays (.code yes after) d.beginBranch ops₁ d₁) (hd : d.Filed q slot)
    (hjob : (Job.code yes after).Suits d n) (hclear : d.Clear n q)
    (hsuffix : ops₁ ++ ([Op.jump (d.nextLabel + 1), .label d.nextLabel] ++
      (ops₂ ++ ([Op.label (d.nextLabel + 1)] ++ behind))) <:+ program)
    (hbehind : ¬d.Reaches yes q → Ahead program slot 0 behind) :
    Ahead program slot 0 (ops₁ ++ ([Op.jump (d.nextLabel + 1), .label d.nextLabel] ++
      (ops₂ ++ ([Op.label (d.nextLabel + 1)] ++ behind)))) := by
  have hadv := d.advances_beginBranch
  have hlast := suffix_of_append _ (suffix_of_append [_, _] (suffix_of_append _ hsuffix))
  refine hy.leadsOn (hd.of_advances hadv) (hjob.of_advances hadv) (hclear.of_stored hadv fun _ h => h) hsuffix
    fun hnot _ => .jump hlast ?_
  exact (hbehind fun hreaches => hnot (hadv.reaches_iff.mpr hreaches)).label

/-- So does the other arm, laid out from the marks at the branch. -/
theorem Lays.no_leadsOn {no : Code} (hn : Lays (.code no after) (d₁.restoreMarks d.stored) ops₂ d₂)
    (hadv : d.Advances (d₁.restoreMarks d.stored)) (hd : d.Filed q slot) (hjob : (Job.code no after).Suits d n)
    (hclear : d.Clear n q) {here next : Label}
    (hsuffix : Op.label here :: (ops₂ ++ ([Op.label next] ++ behind)) <:+ program)
    (hbehind : ¬d.Reaches no q → Ahead program slot 0 behind) :
    Ahead program slot 0 (Op.label here :: (ops₂ ++ ([Op.label next] ++ behind))) := by
  refine .label (hn.leadsOn (hd.of_advances hadv) (hjob.of_advances hadv) (hclear.of_stored hadv fun _ h => h)
    (suffix_of_append [_] hsuffix) fun hnot _ => ?_)
  exact (hbehind fun hreaches => hnot (hadv.reaches_iff.mpr hreaches)).label

/-- What one arm does not need, and is computed ahead all the same, is needed
    behind the branch. -/
theorem Foreseen.branch {condition yes no : Code} (hc : Lays (.code condition (yes :: no :: after)) d ops₁ d₁)
    (hh : Lays (.stores (d₁.toHoist [yes, no] after) (yes :: no :: after)) d₁ ops₂ d₂)
    (hy : Lays (.code yes after) d₂.beginBranch ops₃ d₃)
    (hn : Lays (.code no after) (d₃.restoreMarks d₂.stored) ops₄ d₄) (hd : d.Ready) (hsealed : d₁.Sealed)
    (hjob : (Job.code (.branch condition yes no) after).Suits d n) (hat : d.At (.shared q) slot)
    (hsuffix : ops₁ ++ ops₂ ++ [Op.jumpUnless d₂.nextLabel] ++ ops₃ ++
      [Op.jump (d₂.nextLabel + 1), .label d₂.nextLabel] ++ ops₄ ++ [Op.label (d₂.nextLabel + 1)] ++ behind <:+ program)
    (hbehind : q ∈ d₂.stored → d₂.Clear n q → d.Needs after q → Ahead program slot 0 behind)
    (hcondition : ∀ rest, ops₁ ++ rest <:+ program →
      (q ∈ d₁.stored → d₁.Clear n q → d.Needs (yes :: no :: after) q → Ahead program slot 0 rest) →
      Foreseen program slot ops₁ rest)
    (hyes : ∀ rest, ops₃ ++ rest <:+ program →
      (q ∈ d₃.stored → d₃.Clear n q → d.Needs after q → Ahead program slot 0 rest) →
      Foreseen program slot ops₃ rest)
    (hno : ∀ rest, ops₄ ++ rest <:+ program →
      (q ∈ d₄.stored → d₄.Clear n q → d.Needs after q → Ahead program slot 0 rest) →
      Foreseen program slot ops₄ rest) :
    Foreseen program slot (ops₁ ++ ops₂ ++ [Op.jumpUnless d₂.nextLabel] ++ ops₃ ++
      [Op.jump (d₂.nextLabel + 1), .label d₂.nextLabel] ++ ops₄ ++ [Op.label (d₂.nextLabel + 1)]) behind := by
  have hadv₂ := hc.advances.trans hh.advances
  have hadv₃ := hadv₂.trans d₂.advances_beginBranch
  have hrestore := (d₂.advances_beginBranch.trans hy.advances).restore
  have hadv₄ := hadv₂.trans hrestore
  have hd₁ := hd.of_advances hc.advances
  have hd₂ := hd.of_advances hadv₂
  have hat₁ := hc.advances.at_shared.mpr hat
  have hat₂ := hadv₂.at_shared.mpr hat
  have hyesJob : (Job.code yes after).Suits d n := ⟨hjob.1.2.1, hjob.2.2.1⟩
  have hnoJob : (Job.code no after).Suits d n := ⟨hjob.1.2.2, hjob.2.2.2⟩
  have hids : (Job.stores (d₁.toHoist [yes, no] after) (yes :: no :: after)).Suits d₁ n :=
    hd₁.suits_toHoist (by simpa [hc.advances.types_eq] using hjob.1.2) _ _
  -- what goes ahead is needed by both arms, or by an arm and the code behind
  have hhoist (hq : q ∉ d₁.stored) : q ∈ d₁.toHoist [yes, no] after ↔
      d.Reaches yes q ∧ d.Reaches no q ∨ (d.Reaches yes q ∨ d.Reaches no q) ∧ d.Needs after q := by
    rw [Draft.mem_toHoist_branch_iff hsealed (hc.advances.shared ▸ Draft.lt_of_at_shared hat) hq,
      hc.advances.reaches_iff, hc.advances.reaches_iff, hc.advances.needs_iff]
  have hstored (hq₂ : (d.Reaches yes q ∨ d.Reaches no q) ∧ d.Needs after q) : q ∈ d₂.stored := by
    by_cases hq₁ : q ∈ d₁.stored
    · exact hh.advances.stored q hq₁
    · have hfills := hh.fills hd₁.reserved hd₁.apart trivial trivial
      exact hfills.search.found q ((hhoist hq₁).mpr (.inr hq₂))
  -- the places where the parts begin, for the jumps to be followed
  simp only [List.append_assoc] at hsuffix
  have hstores := suffix_of_append _ hsuffix
  have harms := suffix_of_append [_] (suffix_of_append _ hstores)
  have hotherwise := suffix_of_append [_] (suffix_of_append _ harms)
  have hother := suffix_of_append [_] hotherwise
  have hlast := suffix_of_append _ hother
  have hyesAhead (hq₂ : q ∈ d₂.stored) (hclear₂ : d₂.Clear n q) (hneeds : d.Reaches yes q ∨ d.Needs after q) :
      Ahead program slot 0 (ops₃ ++ ([Op.jump (d₂.nextLabel + 1), .label d₂.nextLabel] ++
        (ops₄ ++ ([Op.label (d₂.nextLabel + 1)] ++ behind)))) :=
    hy.yes_leadsOn ⟨hd₂, hat₂, hq₂⟩ (hyesJob.of_advances hadv₂) hclear₂ harms fun hnot =>
      hbehind hq₂ hclear₂ (hneeds.resolve_left fun h => hnot (hadv₂.reaches_iff.mpr h))
  have hnoAhead (hq₂ : q ∈ d₂.stored) (hclear₂ : d₂.Clear n q) (hneeds : d.Reaches no q ∨ d.Needs after q) :
      Ahead program slot 0 (Op.label d₂.nextLabel :: (ops₄ ++ ([Op.label (d₂.nextLabel + 1)] ++ behind))) :=
    hn.no_leadsOn hrestore ⟨hd₂, hat₂, hq₂⟩ (hnoJob.of_advances hadv₂) hclear₂ hotherwise fun hnot =>
      hbehind hq₂ hclear₂ (hneeds.resolve_left fun h => hnot (hadv₂.reaches_iff.mpr h))
  refine .append (.append (.append (.append (.append (.append ?_ ?_) (.of_stores rfl)) ?_) (.of_stores rfl)) ?_)
    (.of_stores rfl)
  · -- the condition stores for the test whose way leads to the need
    refine hcondition _ hsuffix fun hq₁ hclear₁ hneeds => ?_
    refine hh.leadsOn ⟨hd₁, hat₁, hq₁⟩ hids hclear₁ hstores fun _ hclear₂ => ?_
    have hq₂ := hh.advances.stored q hq₁
    rcases Draft.needs_cons.mp hneeds with hreaches | hneeds
    · exact .enter (hyesAhead hq₂ hclear₂ (.inl hreaches))
    · exact .leave hotherwise (hnoAhead hq₂ hclear₂ (Draft.needs_cons.mp hneeds))
  · -- stored ahead of the test, it is read whichever way the test goes
    refine hh.foreseen_stores hd₁ hsealed hids rfl (d₁.pairwise_toHoist _ _) hat₁ hstores
      fun hq hq₁ hq₂ hclear₂ => ?_
    have hneeds := (hhoist hq₁).mp hq
    exact .either hotherwise (hnoAhead hq₂ hclear₂ (hneeds.imp And.right And.right))
      (hyesAhead hq₂ hclear₂ (hneeds.imp And.left And.right))
  · -- had an arm stored it alone, it would have been computed ahead of the branch
    refine hyes _ harms fun hq₃ hclear₃ hneeds => .jump hlast ?_
    have hclear₂ := hclear₃.of_advances (d₂.advances_beginBranch.trans hy.advances)
    refine (hbehind ?_ hclear₂ hneeds).label
    by_contra hq₂
    exact hq₂ (hstored ⟨.inl (hadv₃.reaches_iff.mp (hy.leads_of_stored hq₃ hq₂)), hneeds⟩)
  · refine hno _ hother fun hq₄ hclear₄ hneeds => ?_
    refine (hbehind ?_ (hclear₄.of_advances (hrestore.trans hn.advances)) hneeds).label
    by_contra hq₂
    exact hq₂ (hstored ⟨.inr (hadv₄.reaches_iff.mp (hn.leads_of_stored hq₄ hq₂)), hneeds⟩)

end

/-- All that code stores is left on the stack or foreseen, if a read of what is
    stored behind the code and needed there lies ahead. -/
theorem Lays.foreseen {job : Job} {d d' : Draft} {ops : List Op} (h : Lays job d ops d') (hd : d.Ready)
    (hsealed : d.Sealed) {n : Nat} (hjob : job.Suits d n) {c : Code} {after : List Code} (hcode : job = .code c after)
    (hat : d.At (.shared q) slot) {behind : List Op} (hsuffix : ops ++ behind <:+ program)
    (hbehind : q ∈ d'.stored → d'.Clear n q → d.Needs after q → Ahead program slot 0 behind) :
    Foreseen program slot ops behind := by
  induction h generalizing c after behind with
  | op => exact Lays.op.foreseen_value hd hjob hat rfl rfl behind
  | done => exact Lays.done.foreseen_value hd hjob hat rfl rfl behind
  | raw => exact Lays.raw.foreseen_value hd hjob hat rfl rfl behind
  | load hentry hslot hstored => exact (Lays.load hentry hslot hstored).foreseen_value hd hjob hat rfl rfl behind
  | compute hentry hslot hnew hvalue =>
    exact (Lays.compute hentry hslot hnew hvalue).foreseen_value hd hjob hat rfl rfl behind
  | getVariable hslot => exact (Lays.getVariable hslot).foreseen_value hd hjob hat rfl rfl behind
  | @andThen first rest after d _ d₁ _ _ hf hr ihf ihr =>
    cases hcode
    rw [List.append_assoc] at hsuffix
    have hrest : (Job.code rest after).Suits d n := ⟨hjob.1.2, hjob.2.2⟩
    have hsealed₁ := (hf.places hd.reserved hd.apart ⟨n, hjob.1.1⟩ hsealed rfl).isSealed
    have hd₁ := hd.of_advances hf.advances
    have hat₁ := hf.advances.at_shared.mpr hat
    have hsuffix₁ := suffix_of_append _ hsuffix
    refine .append (ihf hd hsealed ⟨hjob.1.1, hjob.2.1⟩ rfl hat hsuffix fun hq₁ hclear₁ hneeds => ?_)
      (ihr hd₁ hsealed₁ (hrest.of_advances hf.advances) rfl hat₁ hsuffix₁ fun hq₂ hclear₂ hneeds => ?_)
    · -- what the first part stores is read by the second, or else behind both
      refine hr.leadsOn ⟨hd₁, hat₁, hq₁⟩ (hrest.of_advances hf.advances) hclear₁ hsuffix₁ fun hnot hclear₂ => ?_
      refine hbehind (hr.advances.stored q hq₁) hclear₂ ((Draft.needs_cons.mp hneeds).resolve_left fun h => ?_)
      exact hnot (hf.advances.reaches_iff.mpr h)
    · exact hbehind hq₂ hclear₂ (hf.advances.needs_iff.mp hneeds)
  | @setVariable name _ _ d var _ _ hv hvar ih =>
    cases hcode
    rw [List.append_assoc] at hsuffix
    have hat' : d.At (.var name) var := by rwa [Draft.At, ← hv.advances.variableSlots]
    have hne := hd.ne hat hat' (by simp)
    refine (ih hd hsealed hjob rfl hat hsuffix fun hq hclear hneeds => ?_).append (.of_stores ?_)
    · exact .store _ hne (hbehind hq hclear hneeds)
    · simp [Op.stores, hne]
  | @loop times body after d _ d₁ _ d₂ _ d₃ ht hh hb iht _ ihb =>
    cases hcode
    have hadv₁ := ht.advances.trans d₁.advances_beginLoop
    have hadv₂ := hadv₁.trans hh.advances
    have hd₁ := hd.of_advances hadv₁
    -- with a computation all that it names is stored, before the loop and in it
    have hsealed₁ : d₁.Sealed := (ht.places hd.reserved hd.apart ⟨n, hjob.1.1⟩ hsealed rfl).isSealed
    have hsealed₂ := (hh.fills hd₁.reserved hd₁.apart trivial trivial).isSealed hh.advances hsealed₁
    have hbody : (Job.code body after).Suits d n := ⟨hjob.1.2, hjob.2.2⟩
    refine .loop ht hh hb hd hsealed₁ hjob hat hsuffix ?_ ?_ ?_
    · exact fun hq₂ hclear₂ hneeds => hbehind hq₂ (hclear₂.of_stored hb.advances.restore fun _ h => h) hneeds
    · exact fun rest hsuffix hrest => iht hd hsealed ⟨hjob.1.1, hjob.2.1⟩ rfl hat hsuffix hrest
    · intro rest hsuffix hrest
      refine ihb (hd.of_advances hadv₂) hsealed₂ (hbody.of_advances hadv₂) rfl (hadv₂.at_shared.mpr hat) hsuffix ?_
      exact fun hq₃ hclear₃ hneeds => hrest hq₃ hclear₃ (hadv₂.needs_iff.mp hneeds)
  | @branch condition yes no after d _ d₁ _ d₂ _ d₃ _ _ hc hh hy hn ihc _ ihy ihn =>
    cases hcode
    have hadv₂ := hc.advances.trans hh.advances
    have hadv₃ := hadv₂.trans d₂.advances_beginBranch
    have hstart := d₂.advances_beginBranch.trans hy.advances
    have hadv₄ := hadv₂.trans hstart.restore
    have hd₁ := hd.of_advances hc.advances
    have hsealed₁ := (hc.places hd.reserved hd.apart ⟨n, hjob.1.1⟩ hsealed rfl).isSealed
    have hsealed₂ := (hh.fills hd₁.reserved hd₁.apart trivial trivial).isSealed hh.advances hsealed₁
    have hyes : (Job.code yes after).Suits d n := ⟨hjob.1.2.1, hjob.2.2.1⟩
    have hno : (Job.code no after).Suits d n := ⟨hjob.1.2.2, hjob.2.2.2⟩
    refine .branch hc hh hy hn hd hsealed₁ hjob hat hsuffix ?_ ?_ ?_ ?_
    · intro hq₂ hclear₂ hneeds
      exact hbehind hq₂ (hclear₂.of_stored (hstart.restore.trans hn.advances).restore fun _ h => h) hneeds
    · exact fun rest hsuffix hrest => ihc hd hsealed ⟨hjob.1.1, hjob.2.1⟩ rfl hat hsuffix hrest
    · intro rest hsuffix hrest
      refine ihy (hd.of_advances hadv₃) hsealed₂ (hyes.of_advances hadv₃) rfl (hadv₃.at_shared.mpr hat) hsuffix ?_
      exact fun hq₃ hclear₃ hneeds => hrest hq₃ hclear₃ (hadv₃.needs_iff.mp hneeds)
    · intro rest hsuffix hrest
      refine ihn (hd.of_advances hadv₄) (hsealed₂.restore hstart) (hno.of_advances hadv₄) rfl
        (hadv₄.at_shared.mpr hat) hsuffix ?_
      exact fun hq₄ hclear₄ hneeds => hrest hq₄ hclear₄ (hadv₄.needs_iff.mp hneeds)
  | _ => cases hcode

end

/-- All that the code of a program stores is left on the stack or foreseen. -/
theorem Draft.Complete.foreseen {d : Draft} {body : Code} (h : d.Complete body) (hbody : body.OnlyCasts)
    (hd : d.OnlyCasts) {id : SharedId} {slot : Nat} (hat : (d.layout body).draft.At (.shared id) slot) :
    Foreseen (d.finish body).program.ops slot (d.layout body).ops [.ret] := by
  obtain ⟨hprepared, hfits, -⟩ := h.prepared
  have hcasts : (d.prepare body).OnlyCasts := by
    intro entry hentry
    obtain ⟨id, hlt, rfl⟩ := List.getElem_of_mem hentry
    obtain ⟨before, hbefore, hvalue, -⟩ := h.reserves.getElem? (List.getElem?_eq_getElem hlt)
    exact hvalue ▸ hd before (List.mem_of_getElem? hbefore)
  have hsealed : (d.prepare body).Sealed := by
    intro id hid
    rw [hprepared.stored] at hid
    cases hid
  refine h.lays.foreseen ⟨hprepared.toReserved, hprepared.packed.apart, hcasts⟩ hsealed ⟨hfits, hbody⟩ rfl
    (h.lays.advances.at_shared.mp hat) ?_ ?_
  · rw [finish_ops, List.append_assoc]
    exact List.suffix_append _ _
  · rintro - - ⟨c, hc, -⟩
    cases hc

end FlowGraph
