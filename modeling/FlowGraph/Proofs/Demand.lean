import Mathlib.Logic.Relation
import FlowGraph.Proofs.Requests

/-! # What a graph asks for

    Which nodes run and which outputs are computed, said on the graph alone:
    a signal runs the nodes that it reaches from the entry, and a node that
    runs, or whose output is computed, needs the outputs that drive its value
    inputs.

    Main statement: a walk that succeeds has come to all of it, found nothing
    wrong there, reports every wire that it met and that leads nowhere, and
    remembers every output with several wires (`explored_of_walk`). That an
    event is `Explored` also says that nothing goes in circles from it.
-/

namespace FlowGraph

namespace Graph

/-! ## Events that happen -/

/-- A signal of the first node reaches the second. -/
def Activates (g : Graph) (id id' : NodeId) : Prop :=
  ∃ p ∈ g.signalOutputs id, ∃ w ∈ g.leaving p, g.isSignalInput w.2.target = true ∧ w.2.target.node = id'

/-- The output drives a value input of the node. -/
def Uses (g : Graph) (id : NodeId) (p : Port) : Prop :=
  ∃ index, g.isValueInput ⟨id, index⟩ = true ∧ ∃ decl, g.driver? ⟨id, index⟩ = some (p, decl)

/-- A signal that starts at the entry runs the node. -/
inductive Activated (g : Graph) : NodeId → Prop
  | entry {id id'} : g.entry = some id → g.Activates id id' → Activated g id'
  | next {id id'} : Activated g id → g.Activates id id' → Activated g id'

/-- The value of the output is needed. -/
inductive Demanded (g : Graph) : Port → Prop
  | node {id p} : g.Activated id → g.Uses id p → Demanded g p
  | output {p q} : Demanded g p → g.Uses p.node q → Demanded g q

def Occurs (g : Graph) : Event → Prop
  | .activate id => g.Activated id
  | .compute p => g.Demanded p

/-- What one event asks for, or leads to. -/
inductive LeadsTo (g : Graph) : Event → Event → Prop
  | value {e p} : g.Uses e.node p → LeadsTo g e (.compute p)
  | signal {id id'} : g.Activates id id' → LeadsTo g (.activate id) (.activate id')

theorem Occurs.next {g : Graph} {e e' : Event} (h : g.Occurs e) (hleads : g.LeadsTo e e') :
    g.Occurs e' := by
  cases hleads with
  | signal hactivates => exact Activated.next h hactivates
  | value huses =>
    cases e with
    | activate id => exact Demanded.node h huses
    | compute p => exact Demanded.output h huses

/-! ## Events by requests -/

end Graph

/-- What a request of a node leads to. -/
def Request.LeadsTo (g : Graph) (id : NodeId) : Request → Graph.Event → Prop
  | .input index, e => ∃ p decl, g.driver? ⟨id, index⟩ = some (p, decl) ∧ e = .compute p
  | .follow index, e => ∃ w ∈ g.leaving ⟨id, index⟩, g.isSignalInput w.2.target = true ∧
    e = .activate w.2.target.node

namespace Graph

theorem node_of_mem_signalOutputs {g : Graph} {id : NodeId} {p : Port} (h : p ∈ g.signalOutputs id) :
    p.node = id := by
  unfold signalOutputs at h
  split at h
  · cases h
  · obtain ⟨_, -, rfl⟩ := List.mem_map.mp h
    rfl

theorem output?_of_mem_signalOutputs {g : Graph} {p : Port} {id : NodeId} (h : p ∈ g.signalOutputs id) :
    ∃ decl, g.output? p = some decl ∧ decl.isSignal = true := by
  unfold signalOutputs at h
  unfold output?
  cases hrole : g.role? id with
  | none => simp [hrole] at h
  | some found =>
    simp only [hrole, List.mem_map, List.mem_filter, List.mem_zipIdx_iff_getElem?] at h
    obtain ⟨⟨decl, index⟩, ⟨hdecl, hsignal⟩, rfl⟩ := h
    exact ⟨decl, by simpa [hrole] using hdecl, hsignal⟩

/-- A port of a node that is not there is none. -/
theorem input?_of_node?_none {g : Graph} {p : Port} (h : g.node? p.node = none) : g.input? p = none := by
  simp [input?, role?, h]

theorem output?_of_node?_none {g : Graph} {p : Port} (h : g.node? p.node = none) : g.output? p = none := by
  simp [output?, role?, h]

theorem leadsTo_iff {g : Graph} {e e' : Event} :
    g.LeadsTo e e' ↔ ∃ request ∈ g.requests e, request.LeadsTo g e.node e' := by
  constructor
  · intro h
    cases h with
    | value huses =>
      obtain ⟨index, hvalue, decl, hdriver⟩ := huses
      exact ⟨.input index, input_mem_requests.mpr hvalue, _, decl, hdriver, rfl⟩
    | signal hactivates =>
      obtain ⟨⟨node, index⟩, hp, w, hw, hsignal, rfl⟩ := hactivates
      obtain rfl : node = _ := node_of_mem_signalOutputs hp
      exact ⟨.follow index, follow_mem_requests.mpr ⟨rfl, hp⟩, w, hw, hsignal, rfl⟩
  · intro ⟨request, hmem, hleads⟩
    cases request with
    | input index =>
      obtain ⟨p, decl, hdriver, rfl⟩ := hleads
      exact .value ⟨index, input_mem_requests.mp hmem, decl, hdriver⟩
    | follow index =>
      obtain ⟨w, hw, hsignal, rfl⟩ := hleads
      obtain ⟨he, hport⟩ := follow_mem_requests.mp hmem
      rw [he]
      exact .signal ⟨_, hport, w, hw, hsignal, rfl⟩

/-! ## What can be wrong -/

/-- If the node is there, then it is of a standard kind, and nothing is typed
    into inputs that the kind does not declare. -/
def Regular (g : Graph) (id : NodeId) : Prop :=
  ∀ node, g.node? id = some node → ∃ kind, Catalog.standard.get? node.kind = some kind ∧
    ∀ index, kind.inputs.length ≤ index → node.inset? index = none

/-- Nothing strays beyond the inputs. -/
theorem Resolved.strayInset?_eq_none {r : Resolved} :
    r.strayInset? = none ↔ ∀ index, r.kind.inputs.length ≤ index → r.node.inset? index = none := by
  unfold strayInset?
  rw [List.find?_eq_none]
  constructor
  · intro h index hindex
    by_cases hlt : index < r.node.insets.length
    · simpa [hindex] using h index (List.mem_range.mpr hlt)
    · simp [Node.inset?, List.getElem?_eq_none (Nat.not_lt.mp hlt)]
  · intro h index _ hstray
    simp only [Bool.and_eq_true, decide_eq_true_eq] at hstray
    simp [h index hstray.1] at hstray

/-- A regular node is one that the walk can look up. -/
theorem regular_iff {g : Graph} {id : NodeId} :
    g.Regular id ↔ ∃ found, g.resolve .standard id = .ok found := by
  unfold Regular resolve
  cases g.node? id with
  | none => simp
  | some node =>
    simp only [Option.some.injEq, forall_eq']
    cases Catalog.standard.get? node.kind with
    | none => simp
    | some kind =>
      simp only [Option.some.injEq, exists_eq_left']
      have hstray := Resolved.strayInset?_eq_none (r := ⟨id, node, kind⟩)
      rw [← hstray]
      cases Resolved.strayInset? ⟨id, node, kind⟩ <;> simp

/-! ## Wires that lead nowhere -/

/-- This is to be reported of a wire to a value input, because of its start. -/
def LooseStart (g : Graph) (id : WireId) (w : Wire) (problem : LooseWire) : Prop :=
  ∃ found, g.resolve .standard w.source.node = .ok found ∧ sourceAt id w found = .error problem

/-- This is to be reported of a wire that a signal takes, because of its end. -/
def LooseEnd (g : Graph) (id : WireId) (w : Wire) (problem : LooseWire) : Prop :=
  ∃ found, g.resolve .standard w.target.node = .ok found ∧ targetAt id w found = .error problem

theorem mem_record {d : Draft} {problem other : LooseWire} :
    other ∈ (d.record problem).problems ↔ other ∈ d.problems ∨ other = problem := by
  unfold Draft.record
  split
  · next hmem =>
    constructor
    · exact .inl
    · intro h
      rcases h with h | rfl
      · exact h
      · exact hmem
  · exact List.mem_append.trans (or_congr_right List.mem_singleton)

/-- Looking something up loses no problem, and reports the one that there is. -/
theorem mem_reported {α : Type} {d : Draft} {result : Except LooseWire α} :
    d.problems ⊆ (reported d result).2.problems ∧
      ∀ problem, result = .error problem → problem ∈ (reported d result).2.problems := by
  cases result with
  | ok a => exact ⟨List.Subset.refl _, by simp⟩
  | error problem =>
    refine ⟨fun other hother => mem_record.mpr (.inl hother), ?_⟩
    rintro _ ⟨⟩
    exact mem_record.mpr (.inr rfl)

/-- A wire that is loose at its end runs no node. -/
theorem LooseEnd.isSignalInput {g : Graph} {id : WireId} {w : Wire} {problem : LooseWire}
    (h : g.LooseEnd id w problem) : g.isSignalInput w.target = false := by
  obtain ⟨found, hresolve, hproblem⟩ := h
  unfold Graph.isSignalInput
  cases found with
  | none => rw [input?_of_resolve_none hresolve]; rfl
  | some r =>
    rw [input?_of_resolve hresolve]
    cases hdecl : r.kind.inputs[w.target.index]? with
    | none => rfl
    | some decl =>
      by_contra hsignal
      simp [targetAt, hdecl, by simpa using hsignal] at hproblem

theorem problems_of_producer? {g : Graph} {id : WireId} {w : Wire} {d : Draft} {r : Option Producer × Draft}
    (h : g.producer? .standard id w d = .ok r) :
    d.problems ⊆ r.2.problems ∧ ∀ problem, g.LooseStart id w problem → problem ∈ r.2.problems := by
  obtain ⟨found, hresolve, rfl⟩ := exists_of_producer? h
  refine ⟨mem_reported.1, ?_⟩
  rintro problem ⟨found', hresolve', hproblem⟩
  rw [hresolve] at hresolve'
  cases hresolve'
  exact mem_reported.2 problem hproblem

theorem problems_of_target? {g : Graph} {id : WireId} {w : Wire} {d : Draft}
    {r : Option (Resolved × Nat) × Draft} (h : g.target? .standard id w d = .ok r) :
    d.problems ⊆ r.2.problems ∧ ∀ problem, g.LooseEnd id w problem → problem ∈ r.2.problems := by
  obtain ⟨found, hresolve, rfl⟩ := exists_of_target? h
  refine ⟨mem_reported.1, ?_⟩
  rintro problem ⟨found', hresolve', hproblem⟩
  rw [hresolve] at hresolve'
  cases hresolve'
  exact mem_reported.2 problem hproblem

end Graph

/-- Nothing is wrong with what a request of a node comes to. -/
def Request.Fine (g : Graph) (id : NodeId) : Request → Prop
  | .input index => (g.arriving ⟨id, index⟩).length ≤ 1 ∧
    ∀ w ∈ g.arriving ⟨id, index⟩, g.Regular w.2.source.node
  | .follow index => ∀ w ∈ g.leaving ⟨id, index⟩, g.Regular w.2.target.node

/-- Whatever is to be said of the wires of a request is among the problems. -/
def Request.Reported (g : Graph) (id : NodeId) (problems : List LooseWire) : Request → Prop
  | .input index => ∀ x ∈ g.arriving ⟨id, index⟩, ∀ problem, g.LooseStart x.1 x.2 problem → problem ∈ problems
  | .follow index => ∀ x ∈ g.leaving ⟨id, index⟩, ∀ problem, g.LooseEnd x.1 x.2 problem → problem ∈ problems

theorem Request.Reported.mono {g : Graph} {id : NodeId} {problems problems' : List LooseWire}
    {request : Request} (h : request.Reported g id problems) (hsubset : problems ⊆ problems') :
    request.Reported g id problems' := by
  cases request with
  | input index => exact fun x hx problem hloose => hsubset (h x hx problem hloose)
  | follow index => exact fun x hx problem hloose => hsubset (h x hx problem hloose)

namespace Graph

/-- Nothing is wrong with an event, what is to be said of its wires is
    reported, and an output that several wires leave is remembered. -/
structure Checked (g : Graph) (d : Draft) (e : Event) : Prop where
  fine : ∀ request ∈ g.requests e, request.Fine g e.node
  reported : ∀ request ∈ g.requests e, request.Reported g e.node d.problems
  tagged : ∀ node role, g.role? e.node = some (node, role) → role.needsTag = true → node.tag.isSome
  remembered : ∀ p, e = .compute p → 1 < (g.leaving p).length → p ∈ d.remembered

/-- Nothing is wrong with an event and with all that it leads to. -/
inductive Explored (g : Graph) (d : Draft) : Event → Prop
  | intro {e} : g.Checked d e → (∀ e', g.LeadsTo e e' → Explored g d e') → Explored g d e

namespace Explored

variable {g : Graph} {d d' : Draft} {e e' : Event}

theorem checked (h : g.Explored d e) : g.Checked d e := by
  cases h with
  | intro hchecked _ => exact hchecked

theorem next (h : g.Explored d e) (hleads : g.LeadsTo e e') : g.Explored d e' := by
  cases h with
  | intro _ hnext => exact hnext e' hleads

theorem mono (h : g.Explored d e) (hproblems : d.problems ⊆ d'.problems)
    (hsubset : d.remembered ⊆ d'.remembered) : g.Explored d' e := by
  induction h with
  | intro hchecked _ ih =>
    refine .intro ⟨hchecked.fine, ?_, hchecked.tagged, ?_⟩ ih
    · intro request hrequest
      exact (hchecked.reported request hrequest).mono hproblems
    · intro p he hmany
      exact hsubset (hchecked.remembered p he hmany)

/-- What is explored does not lead back to itself. -/
theorem not_transGen (h : g.Explored d e) : ¬ Relation.TransGen g.LeadsTo e e := by
  induction h with
  | intro _ _ ih =>
    intro hcycle
    obtain ⟨e', hleads, hback⟩ := Relation.TransGen.head'_iff.mp hcycle
    exact ih e' hleads (Relation.TransGen.tail' hback hleads)

end Explored

/-! ## What a part of the walk explores -/

/-- A part of the walk that comes to what is asked for. Everything that the
    draft remembers is explored before it and after it. -/
structure Learns (g : Graph) (asked : Event → Prop) (d d' : Draft) : Prop where
  problems : d.problems ⊆ d'.problems
  remembered : d.remembered ⊆ d'.remembered
  explored : (∀ p ∈ d.remembered, g.Explored d (.compute p)) →
    (∀ p ∈ d'.remembered, g.Explored d' (.compute p)) ∧ ∀ e, asked e → g.Explored d' e

namespace Learns

variable {g : Graph} {asked asked' : Event → Prop} {d d₁ d' : Draft}

/-- Nothing is asked for, though something may be reported. -/
theorem idle {problems : List LooseWire} (hproblems : d.problems ⊆ problems) (h : ∀ e, ¬ asked e) :
    Learns g asked d { d with problems := problems } where
  problems := hproblems
  remembered := List.Subset.refl _
  explored hd := by
    refine ⟨?_, fun e he => absurd he (h e)⟩
    intro p hp
    exact (hd p hp).mono hproblems (List.Subset.refl _)

theorem refl (h : ∀ e, ¬ asked e) : Learns g asked d d := idle (List.Subset.refl _) h

theorem imp (h : Learns g asked d d') (himp : ∀ e, asked' e → asked e) : Learns g asked' d d' where
  problems := h.problems
  remembered := h.remembered
  explored hd := ⟨(h.explored hd).1, fun e he => (h.explored hd).2 e (himp e he)⟩

theorem append (h : Learns g asked d d₁) (h' : Learns g asked' d₁ d') :
    Learns g (fun e => asked e ∨ asked' e) d d' where
  problems := List.Subset.trans h.problems h'.problems
  remembered := List.Subset.trans h.remembered h'.remembered
  explored hd := by
    obtain ⟨hd₁, hasked⟩ := h.explored hd
    obtain ⟨hd', hasked'⟩ := h'.explored hd₁
    refine ⟨hd', ?_⟩
    intro e he
    rcases he with he | he
    · exact (hasked e he).mono h'.problems h'.remembered
    · exact hasked' e he

/-- An event whose requests were answered, and the output that is shared after
    it. -/
theorem close {v : Visit} {code code' : Code} (h : Learns g (g.LeadsTo v.frame) d d₁)
    (hfine : ∀ request ∈ g.requests v.frame, request.Fine g v.frame.node)
    (hreported : ∀ request ∈ g.requests v.frame, request.Reported g v.frame.node d₁.problems)
    (htagged : ∀ node role, g.role? v.frame.node = some (node, role) → role.needsTag = true →
      node.tag.isSome)
    (hclose : v.close g code d₁ = .ok (code', d')) : Learns g (· = v.frame) d d' := by
  rcases Visit.close_eq_ok hclose with ⟨rfl, -, hone⟩ | ⟨producer, rfl, -, hshare⟩
  · -- nothing is shared: at most one wire leaves, so there is nothing to remember
    refine ⟨h.problems, h.remembered, ?_⟩
    intro hd
    obtain ⟨hd', hnext⟩ := h.explored hd
    refine ⟨hd', ?_⟩
    intro e he
    subst he
    refine .intro ⟨hfine, hreported, htagged, ?_⟩ hnext
    intro p hframe hmany
    have := hone p hframe
    omega
  · -- the output is remembered only now, when all that it leads to is explored
    obtain ⟨-, rfl⟩ := Prod.mk.inj hshare
    have hsubset : d₁.remembered ⊆ (d₁.share producer.port code producer.decl.default).2.remembered :=
      List.subset_cons_self _ _
    have hsame : d₁.problems ⊆ (d₁.share producer.port code producer.decl.default).2.problems :=
      List.Subset.refl _
    refine ⟨List.Subset.trans h.problems hsame, List.Subset.trans h.remembered hsubset, ?_⟩
    intro hd
    obtain ⟨hd₁, hnext⟩ := h.explored hd
    have hself : g.Explored (d₁.share producer.port code producer.decl.default).2
        (.compute producer.port) := by
      refine .intro ⟨hfine, hreported, htagged, ?_⟩ fun e he => (hnext e he).mono hsame hsubset
      intro p hframe _
      cases hframe
      exact List.mem_cons_self
    refine ⟨?_, fun e he => he ▸ hself⟩
    intro p hp
    rcases List.mem_cons.mp hp with rfl | hp
    · exact hself
    · exact (hd₁ p hp).mono hsame hsubset

/-- An output that is found again was explored before. -/
theorem known {v : Visit} {code : Code} (h : v.known? d = some code) : Learns g (· = v.frame) d d where
  problems := List.Subset.refl _
  remembered := List.Subset.refl _
  explored hd := by
    refine ⟨hd, ?_⟩
    intro e he
    subst he
    cases v with
    | activate r input => cases h
    | compute producer =>
      obtain ⟨id, entry, hmemo, -⟩ := Draft.shared?_eq_some h
      exact hd _ (Draft.mem_remembered.mpr ⟨id, hmemo⟩)

end Learns

section

variable {g : Graph}

theorem regular_of_producer? {id : WireId} {w : Wire} {d : Draft} {r : Option Producer × Draft}
    (h : g.producer? .standard id w d = .ok r) : g.Regular w.source.node := by
  obtain ⟨source, hresolve, -⟩ := exists_of_producer? h
  exact regular_iff.mpr ⟨source, hresolve⟩

theorem regular_of_target? {id : WireId} {w : Wire} {d : Draft} {r : Option (Resolved × Nat) × Draft}
    (h : g.target? .standard id w d = .ok r) : g.Regular w.target.node := by
  obtain ⟨target, hresolve, -⟩ := exists_of_target? h
  exact regular_iff.mpr ⟨target, hresolve⟩

/-- A node at a signal input can be visited. -/
theorem meant_of_isSignalInput {r : Resolved} {p : Port} (hsignal : g.isSignalInput p = true)
    (hresolve : g.resolve .standard p.node = .ok (some r)) :
    r.id = p.node ∧ (Visit.activate r p.index).Meant g := by
  obtain ⟨hid, -⟩ := node?_of_resolve hresolve
  refine ⟨hid, hid ▸ hresolve, ?_⟩
  unfold isSignalInput at hsignal
  rw [input?_of_resolve hresolve] at hsignal
  simpa [Option.any_eq_true] using hsignal

/-- An input that has been answered has one wire at most, from a regular node. -/
theorem fine_of_inputWith {compute : Producer → Walk Code} {r : Resolved} {index : Nat} {d d' : Draft}
    {c : Code} (h : g.inputWith .standard compute r index d = .ok (c, d')) :
    Request.Fine g r.id (.input index) := by
  obtain ⟨decl, -, -, ⟨hwires, -, -⟩ | ⟨id, w, hwires, hfound⟩⟩ := arriving_of_inputWith h
  · simp [Request.Fine, hwires]
  · have hregular : g.Regular w.source.node := by
      rcases hfound with ⟨hproducer, -⟩ | ⟨producer, d₁, value, hproducer, -, -⟩
      · exact regular_of_producer? hproducer
      · exact regular_of_producer? hproducer
    simpa [Request.Fine, hwires] using hregular

/-- Answering an input reports what is to be said of its wire. -/
theorem problems_of_inputWith {compute : Producer → Walk Code} {r : Resolved} {index : Nat} {d d' : Draft}
    {c : Code} (hcompute : ∀ producer d c d', producer.Resolves g → compute producer d = .ok (c, d') →
      d.problems ⊆ d'.problems)
    (h : g.inputWith .standard compute r index d = .ok (c, d')) :
    d.problems ⊆ d'.problems ∧ Request.Reported g r.id d'.problems (.input index) := by
  obtain ⟨decl, -, -, ⟨hwires, -, rfl⟩ | ⟨id, w, hwires, hfound⟩⟩ := arriving_of_inputWith h
  · exact ⟨List.Subset.refl _, by simp [Request.Reported, hwires]⟩
  · simp only [Request.Reported, hwires, List.forall_mem_singleton]
    rcases hfound with ⟨hproducer, -⟩ | ⟨producer, d₁, value, hproducer, hcomputed, -⟩
    · exact problems_of_producer? hproducer
    · obtain ⟨hkept, hreported⟩ := problems_of_producer? hproducer
      obtain ⟨-, -, hres⟩ := resolves_of_producer? hproducer
      have hmore := hcompute producer d₁ value d' hres hcomputed
      exact ⟨List.Subset.trans hkept hmore, fun problem hloose => hmore (hreported problem hloose)⟩

theorem learns_inputWith {compute : Producer → Walk Code} {r : Resolved} {role : Role}
    (hkind : r.kind = role.kind)
    (hcompute : ∀ producer d c d', producer.Resolves g → compute producer d = .ok (c, d') →
      Learns g (· = .compute producer.port) d d')
    {index : Nat} {d d' : Draft} {c : Code} (h : g.inputWith .standard compute r index d = .ok (c, d')) :
    Learns g (Request.LeadsTo g r.id (.input index)) d d' := by
  obtain ⟨decl, -, -, hcases⟩ := inputWith_eq_ok hkind h
  rcases hcases with ⟨hnone, -, problems, rfl⟩ | ⟨producer, value, hres, hdriver, hcomputed, -⟩
  · have hkept : d.problems ⊆ problems := by
      refine (problems_of_inputWith ?_ h).1
      intro producer d c d' hres hcomputed
      exact (hcompute producer d c d' hres hcomputed).problems
    refine Learns.idle hkept ?_
    intro e ⟨p, decl, hdriver, _⟩
    rw [hnone] at hdriver
    cases hdriver
  · refine (hcompute producer d value d' hres hcomputed).imp ?_
    intro e ⟨p, decl, hsame, he⟩
    rw [hdriver] at hsame
    cases hsame
    exact he

theorem learns_followWires {activate : Resolved → Nat → Walk Code}
    (hactivate : ∀ r input d c d', (Visit.activate r input).Meant g → activate r input d = .ok (c, d') →
      Learns g (· = .activate r.id) d d')
    {wires : List (WireId × Wire)} {d d' : Draft} {c : Code}
    (h : g.followWires .standard activate wires d = .ok (c, d')) :
    Learns g (fun e => ∃ w ∈ wires, g.isSignalInput w.2.target = true ∧ e = .activate w.2.target.node) d d' ∧
      (∀ w ∈ wires, g.Regular w.2.target.node) ∧
      ∀ w ∈ wires, ∀ problem, g.LooseEnd w.1 w.2 problem → problem ∈ d'.problems := by
  induction wires generalizing d c with
  | nil =>
    cases h
    exact ⟨Learns.refl (by simp), by simp, by simp⟩
  | cons head rest ih =>
    obtain ⟨id, w⟩ := head
    rcases followWires_eq_ok h with ⟨d₁, htarget, hsignal, ⟨problems, rfl⟩, hrest⟩ |
      ⟨r, first, d₁, others, hsignal, hresolve, hfirst, hothers, -⟩
    · -- the wire ends at no signal input: it is reported, and the walk goes on with the others
      obtain ⟨hlearns, hothers, hreported⟩ := ih hrest
      obtain ⟨hkept, hloose⟩ := problems_of_target? htarget
      refine ⟨?_, List.forall_mem_cons.mpr ⟨regular_of_target? htarget, hothers⟩,
        List.forall_mem_cons.mpr ⟨fun problem hproblem => hlearns.problems (hloose problem hproblem), hreported⟩⟩
      have hidle : Learns g (fun _ => False) d { d with problems := problems } :=
        Learns.idle hkept fun _ hfalse => hfalse
      refine (hidle.append hlearns).imp ?_
      intro e ⟨w', hmem, hsignal', he⟩
      rcases List.mem_cons.mp hmem with rfl | hmem
      · rw [hsignal] at hsignal'
        cases hsignal'
      · exact .inr ⟨w', hmem, hsignal', he⟩
    · -- the target is activated, so the wire is no loose end
      obtain ⟨hid, hmeant⟩ := meant_of_isSignalInput hsignal hresolve
      obtain ⟨hlearns, hregulars, hreported⟩ := ih hothers
      have hnone : ∀ problem, g.LooseEnd id w problem → problem ∈ d'.problems := by
        intro problem hloose
        rw [hloose.isSignalInput] at hsignal
        cases hsignal
      refine ⟨?_, List.forall_mem_cons.mpr ⟨regular_iff.mpr ⟨_, hresolve⟩, hregulars⟩,
        List.forall_mem_cons.mpr ⟨hnone, hreported⟩⟩
      refine ((hactivate r _ _ _ _ hmeant hfirst).append hlearns).imp ?_
      intro e ⟨w', hmem, hsignal', he⟩
      rcases List.mem_cons.mp hmem with rfl | hmem
      · exact .inl (by rw [he, hid])
      · exact .inr ⟨w', hmem, hsignal', he⟩

theorem learns_followWith {activate : Resolved → Nat → Walk Code}
    (hactivate : ∀ r input d c d', (Visit.activate r input).Meant g → activate r input d = .ok (c, d') →
      Learns g (· = .activate r.id) d d')
    {r : Resolved} {index : Nat} {d d' : Draft} {c : Code}
    (h : g.followWith .standard activate r index d = .ok (c, d')) :
    Learns g (Request.LeadsTo g r.id (.follow index)) d d' ∧ Request.Fine g r.id (.follow index) ∧
      Request.Reported g r.id d'.problems (.follow index) := by
  unfold followWith at h
  cases hdecl : r.kind.outputs[index]? with
  | none => simp only [hdecl] at h; cases h
  | some decl =>
    simp only [hdecl] at h
    split at h
    · exact learns_followWires hactivate h
    · cases h

/-- What the answers to requests explore. -/
theorem learns_answered {id : NodeId} {answer : Request → Walk Code} {requests : List Request} {d d' : Draft}
    (hanswer : ∀ request d c d', answer request d = .ok (c, d') →
      Learns g (request.LeadsTo g id) d d' ∧ request.Fine g id ∧ request.Reported g id d'.problems)
    (h : Answered answer requests d d') :
    Learns g (fun e => ∃ request ∈ requests, request.LeadsTo g id e) d d' ∧
      (∀ request ∈ requests, request.Fine g id) ∧
      ∀ request ∈ requests, request.Reported g id d'.problems := by
  induction h with
  | nil => exact ⟨Learns.refl (by simp), by simp, by simp⟩
  | cons hfirst _ ih =>
    obtain ⟨hlearns, hfine, hreported⟩ := hanswer _ _ _ _ hfirst
    obtain ⟨hothers, hfines, hreports⟩ := ih
    refine ⟨(hlearns.append hothers).imp ?_, List.forall_mem_cons.mpr ⟨hfine, hfines⟩,
      List.forall_mem_cons.mpr ⟨hreported.mono hothers.problems, hreports⟩⟩
    intro e ⟨request, hmem, hleads⟩
    rcases List.mem_cons.mp hmem with rfl | hmem
    · exact .inl hleads
    · exact .inr ⟨request, hmem, hleads⟩

theorem learns_answer {deeper : Visit → Walk Code}
    (hdeeper : ∀ v d c d', v.Meant g → deeper v d = .ok (c, d') → Learns g (· = v.frame) d d')
    {v : Visit} {node : Node} {role : Role} (hplan : v.Plan g node role) {request : Request} {d d' : Draft}
    {c : Code} (h : v.answer g .standard deeper request d = .ok (c, d')) :
    Learns g (request.LeadsTo g v.frame.node) d d' ∧ request.Fine g v.frame.node ∧
      request.Reported g v.frame.node d'.problems := by
  have hid : v.subject.id = v.frame.node := by rw [hplan.subject]
  have hkind : v.subject.kind = role.kind := by rw [hplan.subject]
  rw [← hid]
  cases request with
  | input index =>
    have hcompute : ∀ producer d c d', producer.Resolves g → deeper (.compute producer) d = .ok (c, d') →
        Learns g (· = .compute producer.port) d d' := by
      intro producer d c d' hres hcompute
      exact hdeeper (.compute producer) d c d' hres hcompute
    refine ⟨learns_inputWith hkind hcompute h, fine_of_inputWith h, (problems_of_inputWith ?_ h).2⟩
    intro producer d c d' hres hcomputed
    exact (hcompute producer d c d' hres hcomputed).problems
  | follow index =>
    refine learns_followWith ?_ h
    intro r input d c d' hmeant hactivate
    exact hdeeper (.activate r input) d c d' hmeant hactivate

/-- A visit explores its event. The induction is on the depth that is left to
    the walk. -/
theorem learns_visit {depth : Nat} (opened : List Event) {v : Visit} {d d' : Draft} {code : Code}
    (hmeant : v.Meant g)
    (h : visit g .standard depth (activeNodes opened) (openOutputs opened) v d = .ok (code, d')) :
    Learns g (· = v.frame) d d' := by
  induction depth generalizing opened v d d' code with
  | zero => cases v <;> cases h
  | succ depth ih =>
    rcases visit_eq_ok h with ⟨hknown, rfl⟩ | ⟨-, -, hstep⟩
    · exact Learns.known hknown
    · obtain ⟨value, d₁, hfollow, hclose⟩ := Walk.bind_eq_ok hstep
      obtain ⟨node, role, hplan, htag, hanswered⟩ := hmeant.answered hfollow
      obtain ⟨hlearns, hfine, hreported⟩ := learns_answered
        (fun _ _ _ _ => learns_answer (fun _ _ _ _ hmeant hvisit => ih (v.frame :: opened) hmeant hvisit) hplan)
        hanswered
      refine Learns.close (hlearns.imp fun e he => leadsTo_iff.mp he) hfine hreported ?_ hclose
      intro node' role' hrole'
      rw [hplan.role?] at hrole'
      cases hrole'
      exact htag

theorem learns_followAll {activate : Resolved → Nat → Walk Code}
    (hactivate : ∀ r input d c d', (Visit.activate r input).Meant g → activate r input d = .ok (c, d') →
      Learns g (· = .activate r.id) d d')
    {id : NodeId} {decls : List (PortDecl × Nat)} {d d' : Draft} {c : Code}
    (h : g.followAll .standard activate id decls d = .ok (c, d')) :
    Learns g (fun e => ∃ x ∈ decls, x.1.isSignal = true ∧
        Request.LeadsTo g id (.follow x.2) e) d d' ∧
      (∀ x ∈ decls, x.1.isSignal = true → Request.Fine g id (.follow x.2)) ∧
      ∀ x ∈ decls, x.1.isSignal = true → Request.Reported g id d'.problems (.follow x.2) := by
  induction decls generalizing d c with
  | nil =>
    cases h
    exact ⟨Learns.refl (by simp), by simp, by simp⟩
  | cons head rest ih =>
    unfold followAll at h
    by_cases hsignal : head.1.isSignal = true
    · -- the wires of this output come first, then those of the outputs behind it
      simp only [hsignal, if_true] at h
      obtain ⟨first, d₁, hfirst, hrest⟩ := Walk.bind_eq_ok h
      obtain ⟨others, d₂, hothers, hdone⟩ := Walk.bind_eq_ok hrest
      cases hdone
      obtain ⟨hlearns₁, hfine₁, hreported₁⟩ := learns_followWires hactivate hfirst
      obtain ⟨hlearns₂, hfine₂, hreported₂⟩ := ih hothers
      have hfirst : Request.Reported g id d₁.problems (.follow head.2) := hreported₁
      have hreported := hfirst.mono hlearns₂.problems
      refine ⟨(hlearns₁.append hlearns₂).imp ?_, List.forall_mem_cons.mpr ⟨fun _ => hfine₁, hfine₂⟩,
        List.forall_mem_cons.mpr ⟨fun _ => hreported, hreported₂⟩⟩
      rintro e ⟨x, hmem, hx, hleads⟩
      rcases List.mem_cons.mp hmem with rfl | hmem
      · exact .inl hleads
      · exact .inr ⟨x, hmem, hx, hleads⟩
    · -- an output of values has no signals to follow
      simp only [hsignal] at h
      obtain ⟨hlearns, hfine, hreported⟩ := ih h
      refine ⟨hlearns.imp ?_, List.forall_mem_cons.mpr ⟨fun hx => absurd hx hsignal, hfine⟩,
        List.forall_mem_cons.mpr ⟨fun hx => absurd hx hsignal, hreported⟩⟩
      rintro e ⟨x, hmem, hx, hleads⟩
      rcases List.mem_cons.mp hmem with rfl | hmem
      · exact absurd hx hsignal
      · exact ⟨x, hmem, hx, hleads⟩

/-- A walk that succeeds has explored what the entry leads to. -/
theorem learns_walk {body : Code} {draft : Draft} (h : g.walk .standard = .ok (body, draft)) :
    ∃ id, g.entry = some id ∧ (g.node? id).isSome ∧ g.Regular id ∧
      (∀ p ∈ g.signalOutputs id, ∀ w ∈ g.leaving p, g.Regular w.2.target.node) ∧
      Learns g (fun e => ∃ id', g.Activates id id' ∧ e = .activate id') {} draft ∧
      ∀ p ∈ g.signalOutputs id, Request.Reported g id draft.problems (.follow p.index) := by
  obtain ⟨entry, hstart, hfollow⟩ := start_of_walk h
  obtain ⟨id, hentry, hresolve⟩ := start_eq_ok hstart
  obtain ⟨hid, hnode, -⟩ := node?_of_resolve hresolve
  obtain ⟨role, -, hrole, hkind, -⟩ := role?_of_resolve hresolve
  -- the outputs that send signals are those that the walk goes through
  have houtputs : ∀ p : Port, p ∈ g.signalOutputs id →
      p.node = id ∧ ∃ decl, (decl, p.index) ∈ entry.kind.outputs.zipIdx ∧ decl.isSignal = true := by
    intro p hp
    simp only [signalOutputs, hrole, ← hkind, List.mem_map, List.mem_filter] at hp
    obtain ⟨⟨decl, index⟩, ⟨hmem, hsignal⟩, rfl⟩ := hp
    exact ⟨rfl, decl, hmem, hsignal⟩
  obtain ⟨hlearns, hfine, hreported⟩ := learns_followAll
    (fun r input _ _ _ hmeant hvisit => learns_visit [.activate entry.id] hmeant hvisit) hfollow
  rw [hid] at hlearns hfine hreported
  refine ⟨id, hentry, by rw [hnode]; rfl, regular_iff.mpr ⟨_, hresolve⟩, ?_, hlearns.imp ?_, ?_⟩
  · intro p hp w hw
    obtain ⟨hpnode, decl, hmem, hsignal⟩ := houtputs p hp
    have hport : (⟨id, p.index⟩ : Port) = p := by rw [← hpnode]
    exact hfine (decl, p.index) hmem hsignal w (hport ▸ hw)
  · rintro e ⟨id', ⟨p, hp, w, hw, hsignal', htarget⟩, he⟩
    obtain ⟨hpnode, decl, hmem, hsignal⟩ := houtputs p hp
    have hport : (⟨id, p.index⟩ : Port) = p := by rw [← hpnode]
    exact ⟨(decl, p.index), hmem, hsignal, w, hport ▸ hw, hsignal', by rw [he, htarget]⟩
  · intro p hp
    obtain ⟨-, decl, hmem, hsignal⟩ := houtputs p hp
    exact hreported (decl, p.index) hmem hsignal

/-- A walk that succeeds has explored all that happens. -/
theorem explored_of_walk {body : Code} {draft : Draft} (h : g.walk .standard = .ok (body, draft))
    {e : Event} (he : g.Occurs e) : g.Explored draft e := by
  obtain ⟨id, hentry, -, -, -, hlearns, -⟩ := learns_walk h
  obtain ⟨-, hfirst⟩ := hlearns.explored (fun p hp => nomatch hp)
  -- first along the signals, then along the values that the nodes on the way need
  have hactivated : ∀ id', g.Activated id' → g.Explored draft (.activate id') := by
    intro id' hid'
    induction hid' with
    | entry hentry' hactivates =>
      rw [hentry] at hentry'
      cases hentry'
      exact hfirst _ ⟨_, hactivates, rfl⟩
    | next _ hactivates ih => exact ih.next (.signal hactivates)
  cases e with
  | activate id' => exact hactivated id' he
  | compute p =>
    have hdemanded : g.Demanded p := he
    clear he
    induction hdemanded with
    | node hrun huses => exact (hactivated _ hrun).next (.value huses)
    | output _ huses ih => exact ih.next (.value huses)

end

end Graph

end FlowGraph
