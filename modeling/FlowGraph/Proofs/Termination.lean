import FlowGraph.Proofs.Pieces

/-! # Layout comes to an end

    The walks over code jump from a reference to the computation behind it.
    Nothing keeps computations from referring to themselves, or to each other
    in a circle: a reference may come from another draft. So neither the size
    of the code nor the order of the computations says that the walks end.

    * The relations `Code.Prepares`, `Draft.Collects` and `Builds` follow the
      references without any bound. Each has exactly one result, which is that
      of the function.
    * `Call.Calls` says which calls a call of the layout makes itself, once
      those before it have returned. Behind an arm of a branch and the body of
      a loop, marks are taken back, and the next call may start with fewer
      than the last one ended with. But it starts with all the marks of the
      call that makes it, and one that enters a computation has one more.

    Main statement: `Draft.layout_terminates`.
-/

namespace FlowGraph

/-! ## One result -/

theorem Code.Prepares.unique {c : Code} {d d₁ d₂ : Draft} (h : c.Prepares d d₁) (h' : c.Prepares d d₂) :
    d₁ = d₂ := by
  -- the cases of a shared value exclude each other, but for two that give it no slot
  induction h generalizing d₂ with
  | op => cases h'; rfl
  | done => cases h'; rfl
  | raw => cases h'; rfl
  | andThen _ _ ihf ihr =>
    cases h' with
    | andThen hf hr =>
      obtain rfl := ihf hf
      exact ihr hr
  | unknown hnone =>
    cases h' with
    | unknown => rfl
    | slotted => rfl
    | enter hentry => simp [hnone] at hentry
  | slotted hentry hslot =>
    cases h' with
    | unknown => rfl
    | slotted => rfl
    | enter hentry' hslot' =>
      cases hentry.symm.trans hentry'
      simp [hslot] at hslot'
  | enter hentry hslot _ ih =>
    cases h' with
    | unknown hnone => simp [hentry] at hnone
    | slotted hentry' hslot' =>
      cases hentry.symm.trans hentry'
      simp [hslot] at hslot'
    | enter hentry' _ hv =>
      cases hentry.symm.trans hentry'
      exact ih hv
  | getVariable => cases h'; rfl
  | setVariable _ ih =>
    cases h' with
    | setVariable hv => exact ih hv
  | loop _ _ iht ihb =>
    cases h' with
    | loop ht hb =>
      obtain rfl := iht ht
      exact ihb hb
  | branch _ _ _ ihc ihy ihn =>
    cases h' with
    | branch hc hy hn =>
      obtain rfl := ihc hc
      obtain rfl := ihy hy
      exact ihn hn

theorem Draft.Collects.unique {d : Draft} {c : Code} {found found₁ found₂ : List SharedId}
    (h : d.Collects c found found₁) (h' : d.Collects c found found₂) : found₁ = found₂ := by
  -- a shared value is known, settled or entered, and never two of these
  induction h generalizing found₂ with
  | op => cases h'; rfl
  | done => cases h'; rfl
  | raw => cases h'; rfl
  | andThen _ _ ihf ihr =>
    cases h' with
    | andThen hf hr =>
      obtain rfl := ihf hf
      exact ihr hr
  | known hknown =>
    cases h' with
    | known => rfl
    | settled hnew => exact absurd hknown hnew
    | enter hnew => exact absurd hknown hnew
  | settled hnew hnone =>
    cases h' with
    | known hknown => exact absurd hknown hnew
    | settled => rfl
    | enter _ hpending => simp [hnone] at hpending
  | enter hnew hpending _ ih =>
    cases h' with
    | known hknown => exact absurd hknown hnew
    | settled _ hnone => simp [hpending] at hnone
    | enter _ hpending' hv =>
      cases hpending.symm.trans hpending'
      exact ih hv
  | getVariable => cases h'; rfl
  | setVariable _ ih =>
    cases h' with
    | setVariable hv => exact ih hv
  | loop _ _ iht ihb =>
    cases h' with
    | loop ht hb =>
      obtain rfl := iht ht
      exact ihb hb
  | branch _ _ _ ihc ihy ihn =>
    cases h' with
    | branch hc hy hn =>
      obtain rfl := ihc hc
      obtain rfl := ihy hy
      exact ihn hn

theorem Builds.unique {job : Job} {used : Nat} {d d' d'' : Draft} {p p' : Piece} (h : Builds job used d p d')
    (h' : Builds job used d p' d'') : p' = p ∧ d'' = d' := by
  -- draft and code decide which rule applies: the slot of a value, and whether it is stored
  induction h generalizing p' d'' with
  | op => cases h'; exact ⟨rfl, rfl⟩
  | done => cases h'; exact ⟨rfl, rfl⟩
  | raw => cases h'; exact ⟨rfl, rfl⟩
  | andThen _ _ ihf ihr =>
    cases h' with
    | andThen hf hr =>
      obtain ⟨rfl, rfl⟩ := ihf hf
      obtain ⟨rfl, rfl⟩ := ihr hr
      exact ⟨rfl, rfl⟩
  | unknown hnone =>
    cases h' with
    | unknown => exact ⟨rfl, rfl⟩
    | load hentry => simp [hnone] at hentry
    | compute hentry => simp [hnone] at hentry
  | load hentry hslot hstored =>
    cases h' with
    | unknown hnone => simp [hentry] at hnone
    | load hentry' hslot' =>
      cases hentry.symm.trans hentry'
      cases hslot.symm.trans hslot'
      exact ⟨rfl, rfl⟩
    | compute _ _ hnew => simp [hstored] at hnew
  | compute hentry hslot hnew _ ih =>
    cases h' with
    | unknown hnone => simp [hentry] at hnone
    | load _ _ hstored => simp [hnew] at hstored
    | compute hentry' hslot' _ hv =>
      cases hentry.symm.trans hentry'
      cases hslot.symm.trans hslot'
      obtain ⟨rfl, rfl⟩ := ih hv
      exact ⟨rfl, rfl⟩
  | getVariable hslot =>
    cases h' with
    | getVariable hslot' =>
      cases hslot.symm.trans hslot'
      exact ⟨rfl, rfl⟩
  | setVariable _ hslot ih =>
    cases h' with
    | setVariable hv hslot' =>
      obtain ⟨rfl, rfl⟩ := ih hv
      cases hslot.symm.trans hslot'
      exact ⟨rfl, rfl⟩
  | loop _ _ _ iht ihs ihb =>
    cases h' with
    | loop ht hs hb =>
      obtain ⟨rfl, rfl⟩ := iht ht
      obtain ⟨rfl, rfl⟩ := ihs hs
      obtain ⟨rfl, rfl⟩ := ihb hb
      exact ⟨rfl, rfl⟩
  | branch _ _ _ _ ihc ihs ihy ihn =>
    cases h' with
    | branch hc hs hy hn =>
      obtain ⟨rfl, rfl⟩ := ihc hc
      obtain ⟨rfl, rfl⟩ := ihs hs
      obtain ⟨rfl, rfl⟩ := ihy hy
      obtain ⟨rfl, rfl⟩ := ihn hn
      exact ⟨rfl, rfl⟩
  | nil => cases h'; exact ⟨rfl, rfl⟩
  | skip hnone _ ih =>
    cases h' with
    | skip _ hr => exact ih hr
    | store hentry _ hnew => simp [Draft.pending?, hnew, hentry] at hnone
  | store hentry hslot hnew _ _ ihv ihr =>
    cases h' with
    | skip hnone => simp [Draft.pending?, hnew, hentry] at hnone
    | store hentry' hslot' _ hv hr =>
      cases hentry.symm.trans hentry'
      cases hslot.symm.trans hslot'
      obtain ⟨rfl, rfl⟩ := ihv hv
      obtain ⟨rfl, rfl⟩ := ihr hr
      exact ⟨rfl, rfl⟩

/-- The layout of the job comes to an end, with this emission and no other. -/
def Emission.Ends (e : Emission) (job : Job) (used : Nat) (d : Draft) : Prop :=
  ∃ p : Piece, p.ops = e.ops ∧ ∀ p' d', Builds job used d p' d' ↔ p' = p ∧ d' = e.draft

theorem Emission.IsBuilt.ends {e : Emission} {job : Job} {used : Nat} {d : Draft} (h : e.IsBuilt job used d) :
    e.Ends job used d := by
  obtain ⟨p, hops, hp⟩ := h
  refine ⟨p, hops, fun p' d' => ⟨hp.unique, ?_⟩⟩
  rintro ⟨rfl, rfl⟩
  exact hp

/-! ## Calls -/

/-- A call of the layout: what is laid out while how many slots are in use,
    from which draft on. -/
structure Call where
  job : Job
  used : Nat
  draft : Draft

namespace Call

open Draft

/-- The calls that a call makes itself, with the computation that it enters. A
    call that is made behind others starts where these have ended. -/
inductive Calls : Call → Option SharedId → Call → Prop
  | first {first rest after used d} :
    Calls ⟨.code (.andThen first rest) after, used, d⟩ none ⟨.code first (rest :: after), used, d⟩
  | rest {first rest after used d p d₁} : Builds (.code first (rest :: after)) used d p d₁ →
    Calls ⟨.code (.andThen first rest) after, used, d⟩ none ⟨.code rest after, used, d₁⟩
  | compute {id ty after used} {d d₁ : Draft} {entry : Shared} {slot} :
    d.shared[id]? = some entry → d.slotOf id entry = (slot, d₁) → d.isStored id = false →
    Calls ⟨.code (.shared id ty) after, used, d⟩ (some id) ⟨.code entry.value after, used, d₁.markStored id⟩
  | value {name value after used d} :
    Calls ⟨.code (.setVariable name value) after, used, d⟩ none ⟨.code value after, used, d⟩
  | times {times body after used d} :
    Calls ⟨.code (.loop times body) after, used, d⟩ none ⟨.code times (body :: after), used, d⟩
  | loopAhead {times body after used d p d₁} : Builds (.code times (body :: after)) used d p d₁ →
    Calls ⟨.code (.loop times body) after, used, d⟩ none
      ⟨.stores ((d₁.enterLoop used).toHoist [body] after) (body :: after), (d₁.enterLoop used).nextSlot,
        d₁.enterLoop used⟩
  | body {times body after used d p₁ d₁ p₂ d₂} : Builds (.code times (body :: after)) used d p₁ d₁ →
    Builds (.stores ((d₁.enterLoop used).toHoist [body] after) (body :: after)) (d₁.enterLoop used).nextSlot
      (d₁.enterLoop used) p₂ d₂ →
    Calls ⟨.code (.loop times body) after, used, d⟩ none ⟨.code body after, (d₁.enterLoop used).nextSlot, d₂⟩
  | condition {condition yes no after used d} :
    Calls ⟨.code (.branch condition yes no) after, used, d⟩ none ⟨.code condition (yes :: no :: after), used, d⟩
  | branchAhead {condition yes no after used d p d₁} :
    Builds (.code condition (yes :: no :: after)) used d p d₁ →
    Calls ⟨.code (.branch condition yes no) after, used, d⟩ none
      ⟨.stores (d₁.toHoist [yes, no] after) (yes :: no :: after), used, d₁⟩
  | yes {condition yes no after used d p₁ d₁ p₂ d₂} :
    Builds (.code condition (yes :: no :: after)) used d p₁ d₁ →
    Builds (.stores (d₁.toHoist [yes, no] after) (yes :: no :: after)) used d₁ p₂ d₂ →
    Calls ⟨.code (.branch condition yes no) after, used, d⟩ none ⟨.code yes after, used, d₂.beginBranch⟩
  | no {condition yes no after used d p₁ d₁ p₂ d₂ p₃ d₃} :
    Builds (.code condition (yes :: no :: after)) used d p₁ d₁ →
    Builds (.stores (d₁.toHoist [yes, no] after) (yes :: no :: after)) used d₁ p₂ d₂ →
    Builds (.code yes after) used d₂.beginBranch p₃ d₃ →
    Calls ⟨.code (.branch condition yes no) after, used, d⟩ none
      ⟨.code no after, used, d₃.restoreMarks d₂.stored⟩
  | skip {id rest after used} {d : Draft} : d.pending? id = none →
    Calls ⟨.stores (id :: rest) after, used, d⟩ none ⟨.stores rest after, used, d⟩
  | store {id rest after used} {d d₁ : Draft} {entry : Shared} {slot} :
    d.shared[id]? = some entry → d.slotOf id entry = (slot, d₁) → d.isStored id = false →
    Calls ⟨.stores (id :: rest) after, used, d⟩ (some id) ⟨.code entry.value after, used, d₁.markStored id⟩
  | others {id rest after used} {d d₁ : Draft} {entry : Shared} {slot p d₂} :
    d.shared[id]? = some entry → d.slotOf id entry = (slot, d₁) → d.isStored id = false →
    Builds (.code entry.value after) used (d₁.markStored id) p d₂ →
    Calls ⟨.stores (id :: rest) after, used, d⟩ none ⟨.stores rest after, used, d₂⟩

variable {outer inner : Call} {entered : Option SharedId} {ids : List SharedId}

/-- Marks are only added on the way from a call to those that it makes. -/
theorem Calls.precedes (h : outer.Calls entered inner) : outer.draft.Precedes inner.draft := by
  cases h with
  | first => exact .refl _
  | rest hfirst => exact hfirst.precedes
  | compute hentry hslot => exact precedes_enter hentry hslot
  | value => exact .refl _
  | times => exact .refl _
  | loopAhead htimes => exact htimes.precedes.trans (precedes_enterLoop _ _)
  | body htimes hahead => exact htimes.precedes.trans ((precedes_enterLoop _ _).trans hahead.precedes)
  | condition => exact .refl _
  | branchAhead hcondition => exact hcondition.precedes
  | yes hcondition hahead => exact (hcondition.precedes.trans hahead.precedes).trans (precedes_beginBranch _)
  | no hcondition hahead hyes =>
    -- the marks of the first arm are taken back, but not those from before it
    have harm := ((precedes_beginBranch _).trans hyes.precedes).restore
    exact (hcondition.precedes.trans hahead.precedes).trans harm
  | skip => exact .refl _
  | store hentry hslot => exact precedes_enter hentry hslot
  | others hentry hslot _ hvalue => exact (precedes_enter hentry hslot).trans hvalue.precedes

/-- A computation is entered only while it has no mark, and gets one. -/
theorem Calls.enters {id : SharedId} (h : outer.Calls (some id) inner) :
    id < outer.draft.shared.length ∧ id ∉ outer.draft.stored ∧ id ∈ inner.draft.stored := by
  cases h with
  | compute hentry _ hnew =>
    exact ⟨(List.getElem?_eq_some_iff.mp hentry).1, by simpa [isStored] using hnew, List.mem_cons_self⟩
  | store hentry _ hnew =>
    exact ⟨(List.getElem?_eq_some_iff.mp hentry).1, by simpa [isStored] using hnew, List.mem_cons_self⟩

/-! ## Chains of calls -/

/-- One call is made inside the other, with the computations that are entered
    on the way. -/
inductive Nests : Call → List SharedId → Call → Prop
  | self {call} : Nests call [] call
  | call {outer entered middle ids inner} : Calls outer entered middle → Nests middle ids inner →
    Nests outer (entered.toList ++ ids) inner

theorem Nests.precedes (h : outer.Nests ids inner) : outer.draft.Precedes inner.draft := by
  induction h with
  | self => exact .refl _
  | call hcall _ ih => exact hcall.precedes.trans ih

theorem Nests.enters (h : outer.Nests ids inner) : ∀ id ∈ ids,
    id < outer.draft.shared.length ∧ id ∉ outer.draft.stored ∧ id ∈ inner.draft.stored := by
  induction h with
  | self => simp
  | @call outer entered middle ids inner hcall hrest ih =>
    intro id hid
    rcases List.mem_append.mp hid with hid | hid
    · obtain rfl := Option.mem_toList.mp hid
      obtain ⟨hlt, hnew, hmarked⟩ := hcall.enters
      exact ⟨hlt, hnew, hrest.precedes.stored id hmarked⟩
    · obtain ⟨hlt, hnew, hmarked⟩ := ih id hid
      exact ⟨hcall.precedes.length_eq ▸ hlt, fun hold => hnew (hcall.precedes.stored id hold), hmarked⟩

/-- No computation is entered twice. -/
theorem Nests.nodup (h : outer.Nests ids inner) : ids.Nodup := by
  induction h with
  | self => exact List.nodup_nil
  | @call outer entered middle ids inner hcall hrest ih =>
    cases entered with
    | none => exact ih
    | some id =>
      -- it has a mark from here on, and those that are entered later have none yet
      refine List.nodup_cons.mpr ⟨fun hid => ?_, ih⟩
      exact (hrest.enters id hid).2.1 hcall.enters.2.2

theorem Nests.length_le (h : outer.Nests ids inner) : ids.length ≤ outer.draft.shared.length := by
  have hsub : ids ⊆ List.range outer.draft.shared.length :=
    fun id hid => List.mem_range.mpr (h.enters id hid).1
  simpa using (h.nodup.subperm hsub).length_le

/-! ## No chain without an end -/

/-- How much is left to a call: the computations that have no mark, and then
    what is left of the job. -/
noncomputable def rank (call : Call) : Nat × Nat × Nat :=
  (call.draft.unseen call.draft.stored,
    match call.job with
    | .code c _ => (1, sizeOf c)
    | .stores ids _ => (0, ids.length))

/-- Less is left to the calls that a call makes. -/
theorem Calls.rank_lt (h : outer.Calls entered inner) :
    Prod.Lex (· < ·) (Prod.Lex (· < ·) (· < ·)) inner.rank outer.rank := by
  cases entered with
  | some id =>
    -- one computation more has a mark
    obtain ⟨hlt, hnew, hmarked⟩ := h.enters
    exact .left _ _ (h.precedes.unseen_lt hlt hnew hmarked)
  | none =>
    refine Prod.Lex.right' _ h.precedes.unseen_le ?_
    cases h with
    | loopAhead => exact .left _ _ Nat.zero_lt_one
    | branchAhead => exact .left _ _ Nat.zero_lt_one
    | skip => exact .right _ (Nat.lt_succ_self _)
    | others => exact .right _ (Nat.lt_succ_self _)
    | _ =>
      -- a part of the code
      refine .right _ ?_
      simp only [Code.andThen.sizeOf_spec, Code.setVariable.sizeOf_spec, Code.loop.sizeOf_spec,
        Code.branch.sizeOf_spec]
      omega

/-- The first call is one of those that the second one makes itself. -/
def Inside (inner outer : Call) : Prop := ∃ entered, outer.Calls entered inner

theorem wellFounded_inside : WellFounded Inside := by
  have hlex : WellFounded (Prod.Lex (· < ·) (Prod.Lex (· < ·) (· < ·)) : Nat × Nat × Nat → Nat × Nat × Nat → Prop) :=
    (Prod.lex Nat.lt_wfRel (Prod.lex Nat.lt_wfRel Nat.lt_wfRel)).wf
  refine Subrelation.wf ?_ (InvImage.wf rank hlex)
  rintro inner outer ⟨entered, hcalls⟩
  exact hcalls.rank_lt

end Call

namespace Draft

theorem isBuilt_hoist (d : Draft) (used : Nat) (regions after following : List Code) :
    (d.hoist (emitNested d.shared.length) used regions after following).IsBuilt
      (.stores (d.toHoist regions after) following) used d :=
  isBuilt_storeAll (entersBuilt_emitNested _) used following _ (Nat.le_succ_of_le (unseen_le_length d.stored))

/-- Whatever the draft and the code are, reserving slots, searching for uses,
    computing ahead and laying out come to an end, each with one result. Calls
    of the layout are not nested without an end. Along a chain of nested calls
    marks are only added, and no computation is entered twice. -/
theorem layout_terminates (d : Draft) (c : Code) (used : Nat) (after : List Code) :
    (∀ d', c.Prepares d d' ↔ d' = d.prepare c) ∧
    (∀ found found', d.Collects c found found' ↔ found' = d.usesNested d.shared.length c found) ∧
    (∀ regions following, (d.hoist (emitNested d.shared.length) used regions after following).Ends
      (.stores (d.toHoist regions after) following) used d) ∧
    (emitNested d.shared.length c used after d).Ends (.code c after) used d ∧
    (∀ job, Acc Call.Inside ⟨job, used, d⟩) ∧
    ∀ job ids inner, Call.Nests ⟨job, used, d⟩ ids inner →
      ids.Nodup ∧ ids.length ≤ d.shared.length ∧
      (∀ id ∈ ids, id < d.shared.length ∧ id ∉ d.stored ∧ id ∈ inner.draft.stored) ∧
      ∀ id ∈ d.stored, id ∈ inner.draft.stored := by
  have hprepares := d.prepares_prepare c
  have hcollects : ∀ found, d.Collects c found (d.usesNested d.shared.length c found) :=
    fun found => collects_usesNested c (unseen_le_length found)
  refine ⟨?_, ?_, ?_, ?_, ?_, ?_⟩
  · intro d'
    exact ⟨fun h => h.unique hprepares, fun h => h ▸ hprepares⟩
  · intro found found'
    exact ⟨fun h => h.unique (hcollects found), fun h => h ▸ hcollects found⟩
  · intro regions following
    exact (d.isBuilt_hoist used regions after following).ends
  · exact (isBuilt_emitNested c (unseen_le_length d.stored) used after).ends
  · intro job
    exact Call.wellFounded_inside.apply _
  · intro job ids inner h
    exact ⟨h.nodup, h.length_le, h.enters, h.precedes.stored⟩

/-- A number that needs itself in one arm, and in the other one a second
    number, which needs the first. -/
def circular : Draft :=
  let first := (({} : Draft).share ⟨0, 0⟩
    (.branch (.const (.boolean true)) (.shared 1 .double) (.shared 0 .double)) (.number .one)).2
  (first.share ⟨1, 0⟩ (.shared 0 .double) (.number .zero)).2

/-- The first number is entered, and in one arm the second. The mark of the
    second is gone in the other arm. -/
theorem layout_terminates_circular :
    (∃ yes, Call.Nests ⟨.code (.shared 0 .double) [], 0, circular⟩ [0, 1] yes ∧ yes.draft.stored = [1, 0] ∧
      [0, 1].Nodup ∧ ∀ id ∈ [0, 1], id ∉ circular.stored ∧ id ∈ yes.draft.stored) ∧
    (∃ no, Call.Nests ⟨.code (.shared 0 .double) [], 0, circular⟩ [0] no ∧ no.draft.stored = [0]) ∧
    ∃ p d', Builds (.code (.shared 0 .double) []) 0 circular p d' ∧
      p.ops = [.const (.boolean true), .jumpUnless 0, .load 0 .double, .dup, .store 1 .double, .jump 1,
        .label 0, .load 0 .double, .label 1, .dup, .store 0 .double] := by
  obtain ⟨-, -, -, ⟨p, hops, hbuilds⟩, -, hnests⟩ := layout_terminates circular (.shared 0 .double) 0 []
  -- the first number is entered, and nothing is computed ahead of its arms
  let d₁ : Draft := (circular.giveSlot 0).markStored 0
  have hcondition : Builds (.code (.const (.boolean true)) [.shared 1 .double, .shared 0 .double]) 0 d₁ _ d₁ := .op
  have hahead : Builds (.stores (d₁.toHoist [.shared 1 .double, .shared 0 .double] [])
      [.shared 1 .double, .shared 0 .double]) 0 d₁ _ d₁ := .skip rfl .nil
  have hyes : Call.Nests ⟨.code (.shared 0 .double) [], 0, circular⟩ [0, 1] _ :=
    .call (.compute rfl rfl rfl) (.call (.yes hcondition hahead) (.call (.compute rfl rfl rfl) .self))
  have hno : Call.Nests ⟨.code (.shared 0 .double) [], 0, circular⟩ [0] _ :=
    .call (.compute rfl rfl rfl)
      (.call (.no hcondition hahead (.compute rfl rfl rfl (.load rfl rfl rfl))) .self)
  obtain ⟨hnodup, -, henters, -⟩ := hnests _ _ _ hyes
  refine ⟨⟨_, hyes, rfl, hnodup, fun id hid => (henters id hid).2⟩, ⟨_, hno, rfl⟩, p, _,
    (hbuilds p _).mpr ⟨rfl, rfl⟩, ?_⟩
  rw [hops]
  rfl

end Draft

end FlowGraph
