import FlowGraph.Proofs.Diagnosis
import FlowGraph.Proofs.Wires

/-! # Which wires are reported

    What is to be said of a wire that leads nowhere, on the graph alone
    (`Loose`). Only wires that the walk meets matter: those that a signal
    takes, and those that arrive at an input whose value is needed.

    * Nothing else is ever recorded, and nothing twice (`Honest`).
    * Whatever is to be said is recorded, since a walk that succeeds has come
      to all ports that it has to come to (`explored_of_walk`).

    Main statement: a graph that compiles reports exactly that, one problem
    for each wire (`compile_problems`).
-/

namespace FlowGraph

namespace Graph

/-! ## What is to be said of a wire -/

/-- A signal leaves by the port. -/
def SignalledOutput (g : Graph) (p : Port) : Prop := ∃ id, g.Signalled id ∧ p ∈ g.signalOutputs id

/-- The walk meets the wire: a signal takes it, or a value that it should
    bring is needed. -/
def Meets (g : Graph) (w : Wire) : Prop := g.SignalledOutput w.source ∨ g.DemandedInput w.target

/-- The wire leads from a signal to a signal, or from a value to a value. -/
def Connects (g : Graph) (w : Wire) : Prop :=
  g.isSignalOutput w.source = true ∧ g.isSignalInput w.target = true ∨
    g.isValueOutput w.source = true ∧ g.isValueInput w.target = true

/-- What is to be said of a wire with this number. -/
inductive Loose (g : Graph) (id : WireId) (w : Wire) : LooseWire → Prop
  | missingTarget : g.SignalledOutput w.source → g.node? w.target.node = none →
    Loose g id w (.missingTarget id w.target.node)
  | missingInput : g.SignalledOutput w.source → (g.node? w.target.node).isSome → g.input? w.target = none →
    Loose g id w (.missingInput id w.target)
  | signalIntoValue : g.Meets w → g.isSignalOutput w.source = true → g.isValueInput w.target = true →
    Loose g id w (.signalIntoValue id w.target)
  | missingSource : g.DemandedInput w.target → g.node? w.source.node = none →
    Loose g id w (.missingSource id w.source.node)
  | missingOutput : g.DemandedInput w.target → (g.node? w.source.node).isSome → g.output? w.source = none →
    Loose g id w (.missingOutput id w.source)

/-- The problem is one of the wire that it names. -/
def Reports (g : Graph) (problem : LooseWire) : Prop :=
  ∃ w, (problem.wire, w) ∈ g.numberedWires ∧ g.Loose problem.wire w problem

section

variable {g : Graph} {id : WireId} {w : Wire} {problem other : LooseWire}

theorem Loose.wire_eq (h : g.Loose id w problem) : problem.wire = id := by
  cases h <;> rfl

theorem SignalledOutput.isSignalOutput {p : Port} (h : g.SignalledOutput p) : g.isSignalOutput p = true := by
  obtain ⟨id, -, hp⟩ := h
  obtain ⟨decl, hdecl, hsignal⟩ := output?_of_mem_signalOutputs hp
  simp [Graph.isSignalOutput, hdecl, hsignal]

/-- Only one thing is to be said of a wire. -/
theorem Loose.unique (h : g.Loose id w problem) (h' : g.Loose id w other) : problem = other := by
  -- the start of a wire that a signal takes is there, and so is the end of one that should bring a value
  have hsource : g.SignalledOutput w.source → ∃ decl, g.output? w.source = some decl := by
    rintro ⟨_, -, hp⟩
    obtain ⟨decl, hdecl, -⟩ := output?_of_mem_signalOutputs hp
    exact ⟨decl, hdecl⟩
  have hsignal : g.isSignalOutput w.source = true → ∃ decl, g.output? w.source = some decl := by
    intro h
    obtain ⟨decl, hdecl, -⟩ := (Option.any_eq_true _ _).mp h
    exact ⟨decl, hdecl⟩
  have htarget : g.isValueInput w.target = true → ∃ decl, g.input? w.target = some decl := by
    intro h
    obtain ⟨decl, hdecl, -⟩ := (Option.any_eq_true _ _).mp h
    exact ⟨decl, hdecl⟩
  have hlost : g.node? w.target.node = none → g.input? w.target = none := input?_of_node?_none
  have hgone : g.node? w.source.node = none → g.output? w.source = none := output?_of_node?_none
  cases h <;> cases h' <;> first
    | rfl
    | (simp_all [DemandedInput])

/-- A wire that a signal takes is loose because of its end. -/
theorem LooseEnd.loose (h : g.LooseEnd id w problem) (hsource : g.SignalledOutput w.source) :
    g.Loose id w problem := by
  obtain ⟨found, hresolve, hproblem⟩ := h
  cases found with
  | none =>
    cases hproblem
    exact .missingTarget hsource (node?_of_resolve_none hresolve)
  | some r =>
    have hinput := input?_of_resolve hresolve
    obtain ⟨-, hnode, -⟩ := node?_of_resolve hresolve
    cases hdecl : r.kind.inputs[w.target.index]? with
    | none =>
      simp only [targetAt, hdecl] at hproblem
      cases hproblem
      exact .missingInput hsource (by rw [hnode]; rfl) (hinput.trans hdecl)
    | some decl =>
      by_cases hsignal : decl.isSignal = true
      · simp [targetAt, hdecl, hsignal] at hproblem
      · simp only [targetAt, hdecl, hsignal] at hproblem
        cases hproblem
        refine .signalIntoValue (.inl hsource) hsource.isSignalOutput ?_
        simp [isValueInput, hinput, hdecl, hsignal]

/-- A wire that should bring a value is loose because of its start. -/
theorem LooseStart.loose (h : g.LooseStart id w problem) (htarget : g.DemandedInput w.target) :
    g.Loose id w problem := by
  obtain ⟨found, hresolve, hproblem⟩ := h
  cases found with
  | none =>
    cases hproblem
    exact .missingSource htarget (node?_of_resolve_none hresolve)
  | some source =>
    have houtput := output?_of_resolve hresolve
    obtain ⟨-, hnode, -⟩ := node?_of_resolve hresolve
    cases hdecl : source.kind.outputs[w.source.index]? with
    | none =>
      simp only [sourceAt, hdecl] at hproblem
      cases hproblem
      exact .missingOutput htarget (by rw [hnode]; rfl) (houtput.trans hdecl)
    | some decl =>
      by_cases hsignal : decl.isSignal = true
      · simp only [sourceAt, hdecl, hsignal, if_true] at hproblem
        cases hproblem
        refine .signalIntoValue (.inr htarget) ?_ htarget.1
        simp [isSignalOutput, houtput, hdecl, hsignal]
      · simp [sourceAt, hdecl, hsignal] at hproblem

/-- What is to be said is found at one of the two ends, if the nodes there can
    be looked up. -/
theorem Loose.looseEnd_or_looseStart (h : g.Loose id w problem)
    (hend : g.SignalledOutput w.source → g.Regular w.target.node)
    (hstart : g.DemandedInput w.target → g.Regular w.source.node) :
    g.SignalledOutput w.source ∧ g.LooseEnd id w problem ∨
      g.DemandedInput w.target ∧ g.LooseStart id w problem := by
  have hfoundEnd : g.SignalledOutput w.source → ∃ found, g.resolve .standard w.target.node = .ok found :=
    fun hsource => regular_iff.mp (hend hsource)
  have hfoundStart : g.DemandedInput w.target → ∃ found, g.resolve .standard w.source.node = .ok found :=
    fun htarget => regular_iff.mp (hstart htarget)
  cases h with
  | missingTarget hsource hnone =>
    refine .inl ⟨hsource, none, ?_, rfl⟩
    simp [resolve, hnone]
  | missingInput hsource hsome hnone =>
    obtain ⟨_ | r, hresolve⟩ := hfoundEnd hsource
    · rw [node?_of_resolve_none hresolve] at hsome
      cases hsome
    · rw [input?_of_resolve hresolve] at hnone
      exact .inl ⟨hsource, some r, hresolve, by simp [targetAt, hnone]⟩
  | signalIntoValue hmeets hsignal hvalue =>
    -- this is seen from both ends
    rcases hmeets with hsource | htarget
    · obtain ⟨_ | r, hresolve⟩ := hfoundEnd hsource
      · simp [isValueInput, input?_of_resolve_none hresolve] at hvalue
      · simp only [isValueInput, input?_of_resolve hresolve, Option.any_eq_true] at hvalue
        obtain ⟨decl, hdecl, hnot⟩ := hvalue
        exact .inl ⟨hsource, some r, hresolve, by simpa [targetAt, hdecl] using hnot⟩
    · obtain ⟨_ | source, hresolve⟩ := hfoundStart htarget
      · simp [isSignalOutput, output?_of_resolve_none hresolve] at hsignal
      · simp only [isSignalOutput, output?_of_resolve hresolve, Option.any_eq_true] at hsignal
        obtain ⟨decl, hdecl, hyes⟩ := hsignal
        exact .inr ⟨htarget, some source, hresolve, by simp [sourceAt, hdecl, hyes]⟩
  | missingSource htarget hnone =>
    refine .inr ⟨htarget, none, ?_, rfl⟩
    simp [resolve, hnone]
  | missingOutput htarget hsome hnone =>
    obtain ⟨_ | source, hresolve⟩ := hfoundStart htarget
    · rw [node?_of_resolve_none hresolve] at hsome
      cases hsome
    · rw [output?_of_resolve hresolve] at hnone
      exact .inr ⟨htarget, some source, hresolve, by simp [sourceAt, hnone]⟩

end

/-! ## Nothing else is recorded -/

/-- What is recorded on the way from one draft to another is to be said of
    wires of the graph, and nothing is recorded twice. -/
structure Honest (g : Graph) (d d' : Draft) : Prop where
  reports : ∀ problem ∈ d'.problems, problem ∈ d.problems ∨ g.Reports problem
  nodup : d.problems.Nodup → d'.problems.Nodup

namespace Honest

variable {g : Graph} {d d₁ d' : Draft}

theorem of_eq (h : d'.problems = d.problems) : Honest g d d' := by
  refine ⟨?_, fun hnodup => h ▸ hnodup⟩
  intro problem hproblem
  exact .inl (h ▸ hproblem)

theorem trans (h : Honest g d d₁) (h' : Honest g d₁ d') : Honest g d d' := by
  refine ⟨?_, fun hnodup => h'.nodup (h.nodup hnodup)⟩
  intro problem hproblem
  rcases h'.reports problem hproblem with hproblem | hreports
  · exact h.reports problem hproblem
  · exact .inr hreports

theorem record {problem : LooseWire} (h : g.Reports problem) : Honest g d (d.record problem) := by
  refine ⟨?_, ?_⟩
  · intro other hother
    rcases mem_record.mp hother with hother | rfl
    · exact .inl hother
    · exact .inr h
  · intro hnodup
    unfold Draft.record
    split
    · exact hnodup
    · next hnew =>
      refine List.nodup_append'.mpr ⟨hnodup, List.nodup_singleton _, ?_⟩
      simpa using hnew

/-- Looking up the start of a wire that should bring a value. -/
theorem producer? {id : WireId} {w : Wire} {r : Option Producer × Draft} (hw : (id, w) ∈ g.numberedWires)
    (htarget : g.DemandedInput w.target) (h : g.producer? .standard id w d = .ok r) : Honest g d r.2 := by
  obtain ⟨found, hresolve, rfl⟩ := exists_of_producer? h
  cases hfound : sourceAt id w found with
  | ok producer => exact of_eq rfl
  | error problem =>
    have hloose : g.Loose id w problem := LooseStart.loose ⟨found, hresolve, hfound⟩ htarget
    have hwire := hloose.wire_eq
    subst hwire
    exact record ⟨w, hw, hloose⟩

/-- Looking up the end of a wire that a signal takes. -/
theorem target? {id : WireId} {w : Wire} {r : Option (Resolved × Nat) × Draft}
    (hw : (id, w) ∈ g.numberedWires) (hsource : g.SignalledOutput w.source)
    (h : g.target? .standard id w d = .ok r) : Honest g d r.2 := by
  obtain ⟨found, hresolve, rfl⟩ := exists_of_target? h
  cases hfound : targetAt id w found with
  | ok target => exact of_eq rfl
  | error problem =>
    have hloose : g.Loose id w problem := LooseEnd.loose ⟨found, hresolve, hfound⟩ hsource
    have hwire := hloose.wire_eq
    subst hwire
    exact record ⟨w, hw, hloose⟩

theorem inputWith {compute : Producer → Walk Code} {r : Resolved} {index : Nat} {c : Code}
    (hdemanded : g.DemandedInput ⟨r.id, index⟩)
    (hcompute : ∀ producer d c d', producer.Resolves g →
      g.driver? ⟨r.id, index⟩ = some (producer.port, producer.decl) → compute producer d = .ok (c, d') →
      Honest g d d')
    (h : g.inputWith .standard compute r index d = .ok (c, d')) : Honest g d d' := by
  obtain ⟨decl, -, -, ⟨-, -, rfl⟩ | ⟨id, w, hwires, hfound⟩⟩ := arriving_of_inputWith h
  · exact of_eq rfl
  · have hmem : (id, w) ∈ g.arriving ⟨r.id, index⟩ := hwires ▸ List.mem_singleton.mpr rfl
    obtain ⟨hw, htarget⟩ : _ ∧ w.target = ⟨r.id, index⟩ := mem_arriving.mp hmem
    rcases hfound with ⟨hproducer, -⟩ | ⟨producer, d₁, value, hproducer, hcomputed, -⟩
    · exact producer? hw (htarget ▸ hdemanded) hproducer
    · obtain ⟨rfl, hport, hres⟩ := resolves_of_producer? hproducer
      exact hcompute producer d₁ value d' hres (driver?_of_arriving hwires hport hres) hcomputed

theorem followWires {activate : Resolved → Nat → Walk Code} {wires : List (WireId × Wire)} {c : Code}
    (hwires : ∀ x ∈ wires, x ∈ g.numberedWires ∧ g.SignalledOutput x.2.source)
    (hactivate : ∀ r input d c d', (Visit.activate r input).Meant g →
      (∃ w ∈ wires, g.isSignalInput w.2.target = true ∧ w.2.target.node = r.id) →
      activate r input d = .ok (c, d') → Honest g d d')
    (h : g.followWires .standard activate wires d = .ok (c, d')) : Honest g d d' := by
  induction wires generalizing d c with
  | nil =>
    cases h
    exact of_eq rfl
  | cons head rest ih =>
    obtain ⟨id, w⟩ := head
    obtain ⟨⟨hw, hsource⟩, hothers⟩ := List.forall_mem_cons.mp hwires
    have hrest : ∀ {d c}, g.followWires .standard activate rest d = .ok (c, d') → Honest g d d' := by
      intro d c h
      refine ih hothers ?_ h
      rintro r input d c d' hmeant ⟨w, hw, hsignal⟩
      exact hactivate r input d c d' hmeant ⟨w, List.mem_cons_of_mem _ hw, hsignal⟩
    rcases followWires_eq_ok h with ⟨d₁, htarget, -, -, hlast⟩ |
      ⟨r, first, d₁, others, hsignal, hresolve, hfirst, hlast, -⟩
    · -- a wire that a signal takes and that has a loose end is reported as such
      exact (target? hw hsource htarget).trans (hrest hlast)
    · obtain ⟨hid, hmeant⟩ := meant_of_isSignalInput hsignal hresolve
      have hnode : Honest g d d₁ :=
        hactivate r _ d first d₁ hmeant ⟨(id, w), List.mem_cons_self, hsignal, hid.symm⟩ hfirst
      exact hnode.trans (hrest hlast)

/-- The wires of a signal output. -/
theorem followPort {activate : Resolved → Nat → Walk Code} {id : NodeId} {index : Nat} {c : Code}
    (hsignalled : g.Signalled id) (hport : (⟨id, index⟩ : Port) ∈ g.signalOutputs id)
    (hactivate : ∀ r input d c d', (Visit.activate r input).Meant g → g.Activated r.id →
      activate r input d = .ok (c, d') → Honest g d d')
    (h : g.followPort .standard activate ⟨id, index⟩ d = .ok (c, d')) : Honest g d d' := by
  refine followWires ?_ ?_ h
  · intro x hx
    obtain ⟨hmem, hsource⟩ := List.mem_filter.mp hx
    have heq : x.2.source = ⟨id, index⟩ := by simpa using hsource
    exact ⟨hmem, id, hsignalled, heq ▸ hport⟩
  · rintro r input d c d' hmeant ⟨w, hw, hsignal, htarget⟩ hvisit
    exact hactivate r input d c d' hmeant (hsignalled.next ⟨_, hport, w, hw, hsignal, htarget⟩) hvisit

theorem answered {answer : Request → Walk Code} {requests : List Request}
    (hanswer : ∀ request ∈ requests, ∀ d c d', answer request d = .ok (c, d') → Honest g d d')
    (h : Answered answer requests d d') : Honest g d d' := by
  induction h with
  | nil => exact of_eq rfl
  | cons hfirst _ ih =>
    obtain ⟨hhead, hrest⟩ := List.forall_mem_cons.mp hanswer
    exact (hhead _ _ _ hfirst).trans (ih hrest)

/-- A request of an event that happens. -/
theorem answer {deeper : Visit → Walk Code}
    (hdeeper : ∀ v d c d', v.Meant g → g.Occurs v.frame → deeper v d = .ok (c, d') → Honest g d d')
    {v : Visit} {node : Node} {role : Role} (hplan : v.Plan g node role) (hoccurs : g.Occurs v.frame)
    {request : Request} (hrequest : request ∈ g.requests v.frame) {c : Code}
    (h : v.answer g .standard deeper request d = .ok (c, d')) : Honest g d d' := by
  have hid : v.subject.id = v.frame.node := by rw [hplan.subject]
  cases request with
  | input index =>
    have hvalue := input_mem_requests.mp hrequest
    refine inputWith ⟨hid ▸ hvalue, v.frame, hoccurs, hid.symm⟩ ?_ h
    intro producer d c d' hres hdriver hcompute
    refine hdeeper (.compute producer) d c d' hres (hoccurs.next ?_) hcompute
    exact .value ⟨index, hvalue, producer.decl, hid ▸ hdriver⟩
  | follow index =>
    obtain ⟨hframe, hport⟩ := follow_mem_requests.mp hrequest
    rw [← hid] at hframe hport
    have hactivated : g.Activated v.subject.id := by rwa [hframe] at hoccurs
    obtain ⟨decl, hdecl, hsignal⟩ := output?_of_mem_signalOutputs hport
    have hfollow : g.followPort .standard (fun r input => deeper (.activate r input))
        ⟨v.subject.id, index⟩ d = .ok (c, d') := by
      have houtput : v.subject.kind.outputs[index]? = some decl := by
        simpa [output?, hid, hplan.role?, hplan.subject] using hdecl
      simpa only [Visit.answer, Graph.answer, followWith, houtput, hsignal, if_true] using h
    refine followPort (.inr hactivated) hport ?_ hfollow
    intro r input d c d' hmeant hr hvisit
    exact hdeeper (.activate r input) d c d' hmeant hr hvisit

/-- Sharing a value records nothing. -/
theorem close {v : Visit} {code code' : Code} (h : v.close g code d = .ok (code', d')) : Honest g d d' := by
  rcases Visit.close_eq_ok h with ⟨rfl, -⟩ | ⟨_, -, -, hshare⟩
  · exact of_eq rfl
  · exact of_eq (congrArg (fun s => s.2.problems) hshare)

/-- A visit of something that happens. The induction is on the depth that is
    left to the walk. -/
theorem visit {depth : Nat} (opened : List Event) {v : Visit} {code : Code} (hmeant : v.Meant g)
    (hoccurs : g.Occurs v.frame)
    (h : visit g .standard depth (activeNodes opened) (openOutputs opened) v d = .ok (code, d')) :
    Honest g d d' := by
  induction depth generalizing opened v d d' code with
  | zero => cases v <;> cases h
  | succ depth ih =>
    rcases visit_eq_ok h with ⟨-, rfl⟩ | ⟨-, -, hstep⟩
    · exact of_eq rfl
    · obtain ⟨value, d₁, hfollow, hclose⟩ := Walk.bind_eq_ok hstep
      obtain ⟨node, role, hplan, -, hanswered⟩ := hmeant.answered hfollow
      refine (answered ?_ hanswered).trans (close hclose)
      intro request hrequest d c d' hanswer
      refine answer ?_ hplan hoccurs hrequest hanswer
      intro v' d c d' hmeant' hoccurs' hvisit
      exact ih (v.frame :: opened) hmeant' hoccurs' hvisit

theorem followAll {activate : Resolved → Nat → Walk Code} {id : NodeId} {decls : List (PortDecl × Nat)}
    {c : Code}
    (hport : ∀ x ∈ decls, x.1.isSignal = true → ∀ d c d',
      g.followPort .standard activate ⟨id, x.2⟩ d = .ok (c, d') → Honest g d d')
    (h : g.followAll .standard activate id decls d = .ok (c, d')) : Honest g d d' := by
  induction decls generalizing d c with
  | nil =>
    cases h
    exact of_eq rfl
  | cons head rest ih =>
    obtain ⟨hhead, hrest⟩ := List.forall_mem_cons.mp hport
    unfold Graph.followAll at h
    by_cases hsignal : head.1.isSignal = true
    · simp only [hsignal, if_true] at h
      obtain ⟨first, d₁, hfirst, hothers⟩ := Walk.bind_eq_ok h
      obtain ⟨others, d₂, hothers, hdone⟩ := Walk.bind_eq_ok hothers
      cases hdone
      exact (hhead hsignal _ _ _ hfirst).trans (ih hrest hothers)
    · simp only [hsignal] at h
      exact ih hrest h

end Honest

/-- A walk records only what is to be said, and nothing twice. -/
theorem honest_of_walk {g : Graph} {body : Code} {draft : Draft} (h : g.walk .standard = .ok (body, draft)) :
    Honest g {} draft := by
  obtain ⟨entry, hstart, hfollow⟩ := start_of_walk h
  obtain ⟨id, hentry, hresolve⟩ := start_eq_ok hstart
  obtain ⟨role, -, hrole, hkind, rfl⟩ := role?_of_resolve hresolve
  refine Honest.followAll ?_ hfollow
  intro x hx hsignal d c d' hport
  refine Honest.followPort (.inl hentry) ?_ ?_ hport
  · simp only [signalOutputs, hrole, ← hkind, List.mem_map, List.mem_filter]
    exact ⟨x, ⟨hx, hsignal⟩, rfl⟩
  · intro r input d c d' hmeant hactivated hvisit
    exact Honest.visit [.activate entry.id] hmeant hactivated hvisit

/-! ## All of it is recorded -/

section

variable {g : Graph} {body : Code} {draft : Draft} {id : WireId} {w : Wire} {problem : LooseWire}

/-- What is to be said because of the end of a wire that a signal takes. -/
theorem LooseEnd.mem_problems (h : g.walk .standard = .ok (body, draft)) (hw : (id, w) ∈ g.numberedWires)
    (hsource : g.SignalledOutput w.source) (hloose : g.LooseEnd id w problem) : problem ∈ draft.problems := by
  obtain ⟨node, hsignalled, hp⟩ := hsource
  have hnode : w.source.node = node := node_of_mem_signalOutputs hp
  subst hnode
  have hleaving : (id, w) ∈ g.leaving w.source := mem_leaving.mpr ⟨hw, rfl⟩
  rcases hsignalled with hentry | hactivated
  · obtain ⟨entry, hentry', -, -, -, -, hreported⟩ := learns_walk h
    rw [hentry] at hentry'
    cases hentry'
    exact hreported _ hp _ hleaving _ hloose
  · have hexplored : g.Explored draft (.activate w.source.node) := explored_of_walk h hactivated
    have hrequest : .follow w.source.index ∈ g.requests (.activate w.source.node) :=
      follow_mem_requests.mpr ⟨rfl, hp⟩
    exact hexplored.checked.reported _ hrequest _ hleaving _ hloose

/-- What is to be said because of the start of a wire that should bring a
    value. -/
theorem LooseStart.mem_problems (h : g.walk .standard = .ok (body, draft)) (hw : (id, w) ∈ g.numberedWires)
    (htarget : g.DemandedInput w.target) (hloose : g.LooseStart id w problem) : problem ∈ draft.problems := by
  obtain ⟨hvalue, e, hoccurs, hnode⟩ := htarget
  have harriving : (id, w) ∈ g.arriving ⟨e.node, w.target.index⟩ := by
    rw [hnode]
    exact mem_arriving.mpr ⟨hw, rfl⟩
  have hrequest : .input w.target.index ∈ g.requests e := by
    refine input_mem_requests.mpr ?_
    rw [hnode]
    exact hvalue
  exact (explored_of_walk h hoccurs).checked.reported _ hrequest _ harriving _ hloose

theorem Loose.mem_problems (h : g.walk .standard = .ok (body, draft)) (hw : (id, w) ∈ g.numberedWires)
    (hloose : g.Loose id w problem) : problem ∈ draft.problems := by
  have hwell := wellFormed_of_walk h
  have hend : g.SignalledOutput w.source → g.Regular w.target.node := by
    rintro ⟨node, hsignalled, hp⟩
    have hleaving : (id, w) ∈ g.leaving w.source := mem_leaving.mpr ⟨hw, rfl⟩
    exact hwell.regular _ (.target hsignalled hp hleaving)
  have hstart : g.DemandedInput w.target → g.Regular w.source.node := by
    intro htarget
    have harriving : (id, w) ∈ g.arriving w.target := mem_arriving.mpr ⟨hw, rfl⟩
    obtain ⟨x, hx⟩ := List.length_eq_one_iff.mp
      (Nat.le_antisymm (hwell.single _ htarget) (List.length_pos_of_mem harriving))
    rw [hx, List.mem_singleton] at harriving
    subst harriving
    exact hwell.regular _ (.source htarget hx)
  rcases hloose.looseEnd_or_looseStart hend hstart with ⟨hsource, hloose⟩ | ⟨htarget, hloose⟩
  · exact hloose.mem_problems h hw hsource
  · exact hloose.mem_problems h hw htarget

/-- There is something to say of a wire exactly if the walk meets it and it
    does not connect two ports of one sort. -/
theorem exists_loose_iff : (∃ problem, g.Loose id w problem) ↔ g.Meets w ∧ ¬ g.Connects w := by
  constructor
  · rintro ⟨problem, hloose⟩
    unfold Meets Connects isSignalOutput isSignalInput isValueOutput isValueInput
    cases hloose with
    | missingTarget hsource hnone =>
      simp [hsource, input?_of_node?_none hnone]
    | missingInput hsource _ hnone =>
      simp [hsource, hnone]
    | signalIntoValue hmeets hsignal hvalue =>
      refine ⟨hmeets, ?_⟩
      obtain ⟨output, houtput, hyes⟩ := (Option.any_eq_true _ _).mp hsignal
      obtain ⟨input, hinput, hno⟩ := (Option.any_eq_true _ _).mp hvalue
      simp_all
    | missingSource htarget hnone =>
      simp [htarget, output?_of_node?_none hnone]
    | missingOutput htarget _ hnone =>
      simp [htarget, hnone]
  · rintro ⟨hsource | htarget, hnot⟩
    · have hsignal := hsource.isSignalOutput
      -- the end is looked at, and every case but a signal input has its problem
      by_cases hnode : g.node? w.target.node = none
      · exact ⟨_, .missingTarget hsource hnode⟩
      cases hinput : g.input? w.target with
      | none => exact ⟨_, .missingInput hsource (Option.isSome_iff_ne_none.mpr hnode) hinput⟩
      | some input =>
        refine ⟨_, .signalIntoValue (.inl hsource) hsignal ?_⟩
        have hno : g.isSignalInput w.target = false := by
          by_contra hyes
          exact hnot (.inl ⟨hsignal, by simpa using hyes⟩)
        simpa [isSignalInput, isValueInput, hinput] using hno
    · have hvalue := htarget.1
      -- the same from the other end
      by_cases hnode : g.node? w.source.node = none
      · exact ⟨_, .missingSource htarget hnode⟩
      cases houtput : g.output? w.source with
      | none => exact ⟨_, .missingOutput htarget (Option.isSome_iff_ne_none.mpr hnode) houtput⟩
      | some output =>
        refine ⟨_, .signalIntoValue (.inr htarget) ?_ hvalue⟩
        have hno : g.isValueOutput w.source = false := by
          by_contra hyes
          exact hnot (.inr ⟨by simpa using hyes, hvalue⟩)
        simpa [isSignalOutput, isValueOutput, houtput] using hno

/-- Two problems of one wire are the same. -/
theorem Reports.eq_of_wire_eq {other : LooseWire} (h : g.Reports problem) (h' : g.Reports other)
    (hwire : problem.wire = other.wire) : problem = other := by
  obtain ⟨w, hw, hloose⟩ := h
  obtain ⟨w', hw', hloose'⟩ := h'
  rw [← hwire] at hw' hloose'
  have heq : w = w' := by
    rw [mem_numberedWires] at hw hw'
    exact Option.some_inj.mp (hw.symm.trans hw')
  subst heq
  exact hloose.unique hloose'

end

/-! ## The reported problems -/

/-- The problems of a graph that compiles are those that are to be said of its
    wires. So a wire has one exactly if the walk meets it and it does not
    connect two ports of one sort, and no wire has more than one. -/
theorem compile_problems {g : Graph} {c : Compilation} (h : g.compile .standard = .ok c) :
    (∀ problem, problem ∈ c.problems ↔ g.Reports problem) ∧
      (∀ id w, (id, w) ∈ g.numberedWires →
        ((∃ problem ∈ c.problems, problem.wire = id) ↔ g.Meets w ∧ ¬ g.Connects w)) ∧
      (c.problems.map LooseWire.wire).Nodup := by
  obtain ⟨body, draft, hwalk, rfl⟩ := compile_eq_ok h
  have hhonest := honest_of_walk hwalk
  have hproblems : ∀ problem, problem ∈ draft.problems ↔ g.Reports problem := by
    intro problem
    constructor
    · intro hproblem
      exact (hhonest.reports problem hproblem).resolve_left (List.not_mem_nil)
    · rintro ⟨w, hw, hloose⟩
      exact hloose.mem_problems hwalk hw
  have hfinish : (draft.finish body).problems = draft.problems :=
    congrArg Compilation.problems (Draft.finish_reporting draft draft.problems body)
  rw [hfinish]
  refine ⟨hproblems, ?_, ?_⟩
  · intro id w hw
    have hloose : (∃ problem, g.Loose id w problem) ↔ g.Meets w ∧ ¬ g.Connects w := exists_loose_iff
    rw [← hloose]
    constructor
    · rintro ⟨problem, hproblem, rfl⟩
      obtain ⟨w', hw', hloose⟩ := (hproblems problem).mp hproblem
      rw [mem_numberedWires] at hw hw'
      rw [Option.some_inj.mp (hw.symm.trans hw')]
      exact ⟨problem, hloose⟩
    · rintro ⟨problem, hloose⟩
      exact ⟨problem, hloose.mem_problems hwalk hw, hloose.wire_eq⟩
  · refine (hhonest.nodup List.nodup_nil).map_on ?_
    intro problem hproblem other hother hwire
    exact ((hproblems problem).mp hproblem).eq_of_wire_eq ((hproblems other).mp hother) hwire

/-- A command that two wires of one signal run, and a third wire of that signal
    brings it its value. -/
def tangled : Graph where
  nodes := [some ⟨"start", [], none⟩, some ⟨"emit:text", [], some "show"⟩]
  wires := [⟨⟨0, 0⟩, ⟨1, 0⟩⟩, ⟨⟨0, 0⟩, ⟨1, 1⟩⟩, ⟨⟨0, 0⟩, ⟨1, 0⟩⟩]
  entry := some 0

theorem compile_problems_tangled :
    ∃ c, tangled.compile .standard = .ok c ∧ c.problems = [.signalIntoValue 1 ⟨1, 1⟩] ∧
      tangled.Reports (.signalIntoValue 1 ⟨1, 1⟩) ∧ tangled.Meets ⟨⟨0, 0⟩, ⟨1, 1⟩⟩ := by
  obtain ⟨c, hc, hproblems⟩ : ∃ c, tangled.compile .standard = .ok c ∧
      c.problems = [.signalIntoValue 1 ⟨1, 1⟩] := ⟨_, rfl, rfl⟩
  obtain ⟨hreports, hmet, -⟩ := compile_problems hc
  have hone : LooseWire.signalIntoValue 1 ⟨1, 1⟩ ∈ c.problems := by simp [hproblems]
  exact ⟨c, hc, hproblems, (hreports _).mp hone, ((hmet 1 _ (by decide)).mp ⟨_, hone, rfl⟩).1⟩

end Graph

end FlowGraph
