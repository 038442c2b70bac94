import FlowGraph.Proofs.Demand

/-! # Which graphs compile

    What a graph of standard nodes must be like so that it compiles, said on
    the graph alone (`WellFormed`), and what each error says about the graph
    that it is reported for (`Blames`).

    Main statement: a graph compiles exactly if it is well-formed, and if it
    does not, then the error names something that is wrong with it
    (`compile_eq_ok_iff`).
-/

namespace FlowGraph

namespace Graph

/-! ## Well-formed graphs -/

/-- A signal passes through the node: it starts there or runs it. -/
def Signalled (g : Graph) (id : NodeId) : Prop := g.entry = some id ∨ g.Activated id

/-- The node runs, or one of its outputs is computed. -/
def Works (g : Graph) (id : NodeId) : Prop := ∃ e, g.Occurs e ∧ e.node = id

/-- The value of the input is needed. -/
def DemandedInput (g : Graph) (p : Port) : Prop := g.isValueInput p = true ∧ g.Works p.node

/-- The node is looked up: it is the entry, at the end of a wire that a signal
    takes, or at the start of the wire that drives an input whose value is
    needed. -/
inductive LookedUp (g : Graph) : NodeId → Prop
  | entry {id} : g.entry = some id → LookedUp g id
  | target {id p w} : g.Signalled id → p ∈ g.signalOutputs id → w ∈ g.leaving p →
    LookedUp g w.2.target.node
  | source {p w} : g.DemandedInput p → g.arriving p = [w] → LookedUp g w.2.source.node

/-- All that has to hold of a graph so that it compiles. -/
structure WellFormed (g : Graph) : Prop where
  entry : ∃ id, g.entry = some id ∧ (g.node? id).isSome
  regular : ∀ id, g.LookedUp id → g.Regular id
  signals : ∀ id, g.Signalled id → ¬ Relation.TransGen g.Activates id id
  values : ∀ p, g.Demanded p → ¬ Relation.TransGen (fun p q : Port => g.Uses p.node q) p p
  single : ∀ p, g.DemandedInput p → (g.arriving p).length ≤ 1
  tagged : ∀ id node role, g.Works id → g.role? id = some (node, role) → role.needsTag = true →
    node.tag.isSome

/-- What is wrong with a graph if this error is reported. -/
def Blames (g : Graph) : GraphError → Prop
  | .noEntry => g.entry = none
  | .missingEntry id => g.entry = some id ∧ g.node? id = none
  | .unknownKind id kind => g.LookedUp id ∧ ∃ node, g.node? id = some node ∧ node.kind = kind ∧
    Catalog.standard.get? kind = none
  | .inputOutOfRange id kind index declared => g.LookedUp id ∧ ∃ node k, g.node? id = some node ∧
    node.kind = kind ∧ Catalog.standard.get? kind = some k ∧ declared = k.inputs.length ∧
    declared ≤ index ∧ (node.inset? index).isSome
  | .valueFanIn p count => g.DemandedInput p ∧ count = (g.arriving p).length ∧ 1 < count
  | .signalCycle id => g.Signalled id ∧ Relation.TransGen g.Activates id id
  | .valueCycle p => g.Demanded p ∧ Relation.TransGen (fun p q : Port => g.Uses p.node q) p p
  | .missingTag id kind => g.Works id ∧ ∃ node role, g.role? id = some (node, role) ∧
    node.kind = kind ∧ role.needsTag = true ∧ node.tag = none
  | .outputOutOfRange .. | .notAValue .. | .notASignal .. | .notActivatable .. | .noValueOutput ..
  | .tooManyArguments .. => False

/-- A graph that an error blames is not well-formed. -/
theorem WellFormed.not_blames {g : Graph} (h : g.WellFormed) {e : GraphError} : ¬ g.Blames e := by
  intro hblames
  -- each error denies one condition of well-formedness, and the last six are never to blame
  cases e with
  | noEntry =>
    obtain ⟨id, hentry, -⟩ := h.entry
    rw [show g.entry = none from hblames] at hentry
    cases hentry
  | missingEntry id =>
    obtain ⟨id', hentry, hlive⟩ := h.entry
    obtain ⟨hentry', hnone⟩ := hblames
    rw [hentry] at hentry'
    cases hentry'
    rw [hnone] at hlive
    cases hlive
  | unknownKind id kind =>
    obtain ⟨hlooked, node, hnode, rfl, hnone⟩ := hblames
    obtain ⟨k, hk, -⟩ := h.regular id hlooked node hnode
    rw [hnone] at hk
    cases hk
  | inputOutOfRange id kind index declared =>
    obtain ⟨hlooked, node, k, hnode, rfl, hk, rfl, hle, hinset⟩ := hblames
    obtain ⟨k', hk', hinsets⟩ := h.regular id hlooked node hnode
    rw [hk] at hk'
    cases hk'
    rw [hinsets index hle] at hinset
    cases hinset
  | valueFanIn p count =>
    obtain ⟨hdemanded, rfl, hmany⟩ := hblames
    have := h.single p hdemanded
    omega
  | signalCycle id => exact h.signals id hblames.1 hblames.2
  | valueCycle p => exact h.values p hblames.1 hblames.2
  | missingTag id kind =>
    obtain ⟨hworks, node, role, hrole, -, hneeds, hnone⟩ := hblames
    have htag := h.tagged id node role hworks hrole hneeds
    rw [hnone] at htag
    cases htag
  | outputOutOfRange | notAValue | notASignal | notActivatable | noValueOutput | tooManyArguments =>
    exact hblames

/-! ## A walk that succeeds -/

/-- Along the signals, events follow each other as the nodes do. -/
theorem transGen_activate {g : Graph} {id id' : NodeId} (h : Relation.TransGen g.Activates id id') :
    Relation.TransGen g.LeadsTo (.activate id) (.activate id') :=
  h.lift Event.activate fun _ _ hactivates => .signal hactivates

theorem transGen_compute {g : Graph} {p q : Port}
    (h : Relation.TransGen (fun p q : Port => g.Uses p.node q) p q) :
    Relation.TransGen g.LeadsTo (.compute p) (.compute q) :=
  h.lift Event.compute fun _ _ huses => .value huses

theorem Signalled.next {g : Graph} {id id' : NodeId} (h : g.Signalled id) (hactivates : g.Activates id id') :
    g.Activated id' := by
  rcases h with hentry | hactivated
  · exact .entry hentry hactivates
  · exact .next hactivated hactivates

theorem Signalled.activated {g : Graph} {id id' : NodeId} (h : g.Signalled id)
    (hreach : Relation.TransGen g.Activates id id') : g.Activated id' := by
  induction hreach with
  | single hactivates => exact h.next hactivates
  | tail _ hactivates ih => exact .next ih hactivates

/-- What is fine about the inputs and outputs of explored events. -/
theorem Explored.fine_input {g : Graph} {d : Draft} {e : Event} (h : g.Explored d e) {p : Port}
    (hnode : e.node = p.node) (hvalue : g.isValueInput p = true) :
    Request.Fine g p.node (.input p.index) := by
  rw [← hnode]
  refine h.checked.fine _ (input_mem_requests.mpr ?_)
  rw [hnode]
  exact hvalue

theorem Explored.fine_follow {g : Graph} {d : Draft} {id : NodeId} (h : g.Explored d (.activate id))
    {p : Port} (hp : p ∈ g.signalOutputs id) : Request.Fine g p.node (.follow p.index) := by
  obtain rfl := node_of_mem_signalOutputs hp
  exact h.checked.fine _ (follow_mem_requests.mpr ⟨rfl, hp⟩)

theorem wellFormed_of_walk {g : Graph} {body : Code} {draft : Draft}
    (h : g.walk .standard = .ok (body, draft)) : g.WellFormed := by
  obtain ⟨id, hentry, hlive, hregular, htargets, -⟩ := learns_walk h
  have hexplored : ∀ e, g.Occurs e → g.Explored draft e := fun e he => explored_of_walk h he
  refine ⟨⟨id, hentry, hlive⟩, ?_, ?_, ?_, ?_, ?_⟩
  · -- a node is looked up as the entry, at the end of a signal wire or at the start of a value wire
    intro id' hlooked
    cases hlooked with
    | entry hentry' =>
      rw [hentry] at hentry'
      cases hentry'
      exact hregular
    | target hsignalled hp hw =>
      rcases hsignalled with hentry' | hactivated
      · rw [hentry] at hentry'
        cases hentry'
        exact htargets _ hp _ hw
      · exact (hexplored (.activate _) hactivated).fine_follow hp _ hw
    | source hdemanded hwires =>
      obtain ⟨hvalue, e, he, hnode⟩ := hdemanded
      refine ((hexplored e he).fine_input hnode hvalue).2 _ ?_
      rw [hwires]
      exact List.mem_singleton.mpr rfl
  · -- explored events lead into no circle
    intro id' hsignalled hcycle
    have hactivated := hsignalled.activated hcycle
    exact (hexplored (.activate id') hactivated).not_transGen (transGen_activate hcycle)
  · intro p hdemanded hcycle
    exact (hexplored (.compute p) hdemanded).not_transGen (transGen_compute hcycle)
  · intro p ⟨hvalue, e, he, hnode⟩
    exact ((hexplored e he).fine_input hnode hvalue).1
  · intro id' node role ⟨e, he, hnode⟩ hrole hneeds
    subst hnode
    exact (hexplored e he).checked.tagged node role hrole hneeds

/-! ## A walk that fails -/

/-- A visit that is due: it happens, and it happens because of every frame
    that is open. -/
structure Due (g : Graph) (opened : List Event) (v : Visit) : Prop where
  meant : v.Meant g
  occurs : g.Occurs v.frame
  reached : ∀ e ∈ opened, Relation.TransGen g.LeadsTo e v.frame

/-- A signal that leads back to a node only passes through nodes. -/
theorem exists_activate_of_leadsTo {g : Graph} {e : Event} {id : NodeId}
    (h : g.LeadsTo e (.activate id)) : ∃ id', e = .activate id' ∧ g.Activates id' id := by
  cases h with
  | signal hactivates => exact ⟨_, rfl, hactivates⟩

theorem transGen_activates {g : Graph} {e : Event} {id : NodeId}
    (h : Relation.TransGen g.LeadsTo e (.activate id)) :
    ∃ id', e = .activate id' ∧ Relation.TransGen g.Activates id' id := by
  induction h using Relation.TransGen.head_induction_on with
  | single hleads =>
    obtain ⟨id', rfl, hactivates⟩ := exists_activate_of_leadsTo hleads
    exact ⟨id', rfl, .single hactivates⟩
  | head hleads _ ih =>
    obtain ⟨id', rfl, hreach⟩ := ih
    obtain ⟨id'', rfl, hactivates⟩ := exists_activate_of_leadsTo hleads
    exact ⟨id'', rfl, .head hactivates hreach⟩

theorem transGen_uses {g : Graph} {p : Port} {e : Event}
    (h : Relation.TransGen g.LeadsTo (.compute p) e) :
    ∃ q, e = .compute q ∧ Relation.TransGen (fun p q : Port => g.Uses p.node q) p q := by
  induction h with
  | single hleads =>
    cases hleads with
    | value huses => exact ⟨_, rfl, .single huses⟩
  | tail _ hleads ih =>
    obtain ⟨q, rfl, hreach⟩ := ih
    cases hleads with
    | value huses => exact ⟨_, rfl, .tail hreach huses⟩

/-- A frame that is open already closes a circle. -/
theorem Due.blames_cycle {g : Graph} {opened : List Event} {v : Visit} (h : g.Due opened v)
    (hopen : v.frame ∈ opened) : g.Blames v.cycle := by
  have hcycle := h.reached _ hopen
  cases v with
  | activate r input =>
    obtain ⟨id, hid, hreach⟩ := transGen_activates hcycle
    cases hid
    exact ⟨.inr h.occurs, hreach⟩
  | compute producer =>
    obtain ⟨p, hp, hreach⟩ := transGen_uses hcycle
    cases hp
    exact ⟨h.occurs, hreach⟩

/-- What is due inside a frame. -/
theorem Due.deeper {g : Graph} {opened : List Event} {v v' : Visit} (h : g.Due opened v)
    (hmeant : v'.Meant g) (hleads : g.LeadsTo v.frame v'.frame) : g.Due (v.frame :: opened) v' where
  meant := hmeant
  occurs := h.occurs.next hleads
  reached := by
    intro e he
    rcases List.mem_cons.mp he with rfl | he
    · exact .single hleads
    · exact .tail (h.reached e he) hleads

/-- A node that cannot be looked up is unknown, or has something typed into an
    input that it does not have. -/
theorem blames_of_resolve {g : Graph} {id : NodeId} {e : GraphError} (hlooked : g.LookedUp id)
    (h : g.resolve .standard id = .error e) : g.Blames e := by
  unfold resolve at h
  cases hnode : g.node? id with
  | none => simp [hnode] at h
  | some node =>
    simp only [hnode] at h
    cases hkind : Catalog.standard.get? node.kind with
    | none =>
      simp only [hkind] at h
      cases h
      exact ⟨hlooked, node, hnode, rfl, hkind⟩
    | some kind =>
      simp only [hkind] at h
      cases hstray : Resolved.strayInset? ⟨id, node, kind⟩ with
      | none => simp [hstray] at h
      | some index =>
        simp only [hstray] at h
        cases h
        have hfound := List.find?_some hstray
        simp only [Bool.and_eq_true, decide_eq_true_eq] at hfound
        exact ⟨hlooked, node, kind, hnode, rfl, hkind, rfl, hfound.1, hfound.2⟩

section

variable {g : Graph} {e : GraphError}

theorem resolve_of_producer? {id : WireId} {w : Wire} {d : Draft}
    (h : g.producer? .standard id w d = .error e) : g.resolve .standard w.source.node = .error e := by
  rw [producer?_apply] at h
  cases hresolve : g.resolve .standard w.source.node with
  | error e' => simpa [hresolve, Except.map] using h
  | ok found => simp [hresolve, Except.map] at h

theorem resolve_of_target? {id : WireId} {w : Wire} {d : Draft}
    (h : g.target? .standard id w d = .error e) : g.resolve .standard w.target.node = .error e := by
  rw [target?_apply] at h
  cases hresolve : g.resolve .standard w.target.node with
  | error e' => simpa [hresolve, Except.map] using h
  | ok found => simp [hresolve, Except.map] at h

/-- Computing an input fails because several wires arrive, because of the node
    at the start of the only one, or with the output there. -/
theorem blames_inputWith {compute : Producer → Walk Code} {r : Resolved} {index : Nat} {decl : PortDecl}
    (hdecl : r.kind.inputs[index]? = some decl) (hvalue : decl.isSignal = false)
    (hdemanded : g.DemandedInput ⟨r.id, index⟩)
    (hcompute : ∀ producer d, producer.Resolves g →
      g.driver? ⟨r.id, index⟩ = some (producer.port, producer.decl) → compute producer d = .error e →
      g.Blames e)
    {d : Draft} (h : g.inputWith .standard compute r index d = .error e) : g.Blames e := by
  unfold inputWith at h
  simp only [hdecl, hvalue] at h
  rcases hwires : g.arriving ⟨r.id, index⟩ with _ | ⟨⟨id, w⟩, _ | ⟨w', rest⟩⟩
  · -- without wires there is nothing that could fail
    simp only [hwires] at h
    cases h
  · -- a single wire: its source cannot be looked up, or cannot be computed
    simp only [hwires] at h
    rcases Walk.bind_eq_error h with hproducer | ⟨found, d₁, hproducer, hrest⟩
    · exact blames_of_resolve (.source hdemanded hwires) (resolve_of_producer? hproducer)
    · cases found with
      | none => cases hrest
      | some producer =>
        obtain ⟨-, hport, hres⟩ := resolves_of_producer? hproducer
        rcases Walk.bind_eq_error hrest with hcomputed | ⟨value, d₂, -, hdone⟩
        · exact hcompute producer d₁ hres (driver?_of_arriving hwires hport hres) hcomputed
        · cases hdone
  · -- several wires are to blame themselves
    simp only [hwires] at h
    cases h
    exact ⟨hdemanded, by rw [hwires], by simp⟩

/-- Following wires fails because of a node at the end of one of them, or with
    that node. -/
theorem blames_followWires {activate : Resolved → Nat → Walk Code} {wires : List (WireId × Wire)}
    (hlooked : ∀ w ∈ wires, g.LookedUp w.2.target.node)
    (hactivate : ∀ r input d, (Visit.activate r input).Meant g →
      (∃ w ∈ wires, g.isSignalInput w.2.target = true ∧ w.2.target.node = r.id) →
      activate r input d = .error e → g.Blames e)
    {d : Draft} (h : g.followWires .standard activate wires d = .error e) : g.Blames e := by
  induction wires generalizing d with
  | nil => cases h
  | cons head rest ih =>
    obtain ⟨id, w⟩ := head
    have hrest : ∀ d, g.followWires .standard activate rest d = .error e → g.Blames e := by
      intro d h
      refine ih (fun w hw => hlooked w (List.mem_cons_of_mem _ hw)) ?_ h
      intro r input d hmeant ⟨w, hw, hsignal⟩
      exact hactivate r input d hmeant ⟨w, List.mem_cons_of_mem _ hw, hsignal⟩
    -- looking up the target fails, or activating it, or one of the other wires
    rcases Walk.bind_eq_error h with htarget | ⟨found, d₁, htarget, hothers⟩
    · exact blames_of_resolve (hlooked (id, w) List.mem_cons_self) (resolve_of_target? htarget)
    · rcases target?_eq_ok htarget with ⟨hnone, -, -⟩ | ⟨r, heq, hsignal, hresolve⟩
      · obtain rfl : found = none := hnone
        exact hrest d₁ hothers
      · obtain ⟨rfl, rfl⟩ := Prod.mk.inj heq
        obtain ⟨hid, hmeant⟩ := meant_of_isSignalInput hsignal hresolve
        rcases Walk.bind_eq_error hothers with hfirst | ⟨first, d₂, -, hothers⟩
        · exact hactivate r _ d₁ hmeant ⟨(id, w), List.mem_cons_self, hsignal, hid.symm⟩ hfirst
        · rcases Walk.bind_eq_error hothers with hothers | ⟨others, d₃, -, hdone⟩
          · exact hrest d₂ hothers
          · cases hdone

/-- A request fails because of something that is wrong with the graph. -/
theorem blames_answer {opened : List Event} {v : Visit} {node : Node} {role : Role}
    {deeper : Visit → Walk Code} (hdue : g.Due opened v) (hplan : v.Plan g node role)
    (hdeeper : ∀ v', g.Due (v.frame :: opened) v' → ∀ d, deeper v' d = .error e → g.Blames e)
    {request : Request} (hrequest : request ∈ g.requests v.frame) {d : Draft}
    (h : v.answer g .standard deeper request d = .error e) : g.Blames e := by
  have hid : v.subject.id = v.frame.node := by rw [hplan.subject]
  have hkind : v.subject.kind = role.kind := by rw [hplan.subject]
  have hleads : ∀ e', request.LeadsTo g v.subject.id e' → g.LeadsTo v.frame e' := by
    intro e' he'
    exact leadsTo_iff.mpr ⟨request, hrequest, hid ▸ he'⟩
  cases request with
  | input index =>
    have hvalue := input_mem_requests.mp hrequest
    obtain ⟨decl, hdecl, hnot⟩ : ∃ decl, v.subject.kind.inputs[index]? = some decl ∧
        decl.isSignal = false := by
      simpa [isValueInput, input?, hplan.role?, hkind, Option.any_eq_true] using hvalue
    refine blames_inputWith hdecl hnot ⟨hid ▸ hvalue, v.frame, hdue.occurs, hid.symm⟩ ?_ h
    intro producer d hres hdriver hcompute
    refine hdeeper (.compute producer) (hdue.deeper hres ?_) d hcompute
    exact hleads _ ⟨producer.port, producer.decl, hdriver, rfl⟩
  | follow index =>
    obtain ⟨hframe, hport⟩ := follow_mem_requests.mp hrequest
    rw [← hid] at hframe hport
    have hactivated : g.Activated v.subject.id := by
      have hoccurs := hdue.occurs
      rwa [hframe] at hoccurs
    obtain ⟨decl, hdecl, hsignal⟩ : ∃ decl, v.subject.kind.outputs[index]? = some decl ∧
        decl.isSignal = true := by
      rw [hid] at hport
      simpa [signalOutputs, hplan.role?, hkind, List.mem_zipIdx_iff_getElem?] using hport
    -- the output is there and sends signals, so only its wires can fail
    have hfollow : g.followWires .standard (fun r input => deeper (.activate r input))
        (g.leaving ⟨v.subject.id, index⟩) d = .error e := by
      simpa only [Visit.answer, answer, followWith, followPort, hdecl, hsignal, if_true] using h
    refine blames_followWires ?_ ?_ hfollow
    · intro w hw
      exact .target (.inr hactivated) hport hw
    · rintro r input d hmeant ⟨w, hw, hsignal, htarget⟩ hactivate
      refine hdeeper (.activate r input) (hdue.deeper hmeant (hleads _ ?_)) d hactivate
      exact ⟨w, hw, hsignal, by rw [htarget]; rfl⟩

end

theorem exists_source_of_driver? {g : Graph} {p q : Port} {decl : PortDecl}
    (h : g.driver? p = some (q, decl)) : ∃ w ∈ g.arriving p, w.2.source = q := by
  simp only [driver?, Option.bind_eq_bind, Option.bind_eq_some_iff] at h
  obtain ⟨w, hw, produced, -, hif⟩ := h
  refine ⟨w, List.mem_of_mem_head? hw, ?_⟩
  split at hif
  · cases hif
  · cases hif
    rfl

/-- A node that runs is there, and an output that is computed has a wire. -/
theorem Due.hasFrame {g : Graph} {opened : List Event} {v : Visit} (h : g.Due opened v) :
    g.HasFrame v.frame := by
  cases v with
  | activate r input =>
    obtain ⟨-, hnode, -⟩ := node?_of_resolve h.meant.1
    show (g.node? r.id).isSome
    rw [hnode]
    rfl
  | compute producer =>
    have hdemanded : g.Demanded producer.port := h.occurs
    have huses : ∃ id, g.Uses id producer.port := by
      cases hdemanded with
      | node _ huses => exact ⟨_, huses⟩
      | output _ huses => exact ⟨_, huses⟩
    obtain ⟨id, index, -, decl, hdriver⟩ := huses
    obtain ⟨w, hw, hsource⟩ := exists_source_of_driver? hdriver
    show producer.port ∈ g.sources
    rw [← hsource]
    exact source_mem_sources hw

theorem Visit.close_ne_error {g : Graph} {v : Visit} {code : Code} {d : Draft} {e : GraphError} :
    v.close g code d ≠ .error e := by
  cases v with
  | activate r input => exact nofun
  | compute producer =>
    show g.shareIfNeeded producer code d ≠ .error e
    unfold shareIfNeeded
    split <;> exact nofun

/-- A step of the walk fails because of something that is wrong with the
    graph, if the steps inside its frame do. -/
theorem blames_step {g : Graph} {e : GraphError} {depth : Nat} {opened : List Event} {v : Visit}
    (hdue : g.Due opened v)
    (hdeeper : v.frame ∉ opened → ∀ v', g.Due (v.frame :: opened) v' → ∀ d,
      visit g .standard depth (activeNodes (v.frame :: opened)) (openOutputs (v.frame :: opened)) v' d =
        .error e → g.Blames e)
    {d : Draft}
    (h : visit g .standard (depth + 1) (activeNodes opened) (openOutputs opened) v d = .error e) :
    g.Blames e := by
  rw [visit_succ] at h
  cases hknown : v.known? d with
  | some code => simp only [hknown] at h; cases h
  | none =>
    simp only [hknown] at h
    by_cases hopen : v.frame ∈ opened
    · simp only [hopen, if_true] at h
      cases h
      exact hdue.blames_cycle hopen
    · simp only [hopen, if_false] at h
      rcases Walk.bind_eq_error h with hfollow | ⟨code, d₁, -, hclose⟩
      · -- a recipe fails at once if its tag is missing, and else at one of its requests
        obtain ⟨node, role, hplan⟩ := hdue.meant.exists_plan
        rcases hplan.recipe with ⟨hneeds, hnone, hfail⟩ | ⟨-, hmakes⟩
        · unfold Visit.follow at hfollow
          rw [hfail] at hfollow
          cases hfollow
          exact ⟨⟨v.frame, hdue.occurs, rfl⟩, node, role, hplan.role?, rfl, hneeds, hnone⟩
        · obtain ⟨request, hrequest, d', hanswer⟩ := exists_of_perform_error hmakes hfollow
          exact blames_answer hdue hplan (hdeeper hopen) hrequest hanswer
      · exact absurd hclose Visit.close_ne_error

/-- A visit that fails does so because of something that is wrong with the
    graph. The depth never runs out: with every frame that is opened there is
    room for one less. -/
theorem blames_visit {g : Graph} {e : GraphError} {depth : Nat} {opened : List Event} {v : Visit}
    (hdue : g.Due opened v) (hnested : g.Nested opened)
    (hdepth : g.nestingBound ≤ depth + opened.length) {d : Draft}
    (h : visit g .standard (depth + 1) (activeNodes opened) (openOutputs opened) v d = .error e) :
    g.Blames e := by
  induction depth generalizing opened v d with
  | zero =>
    refine blames_step hdue ?_ h
    intro hopen
    have hroom := (hnested.cons hopen hdue.hasFrame).length_le
    rw [List.length_cons] at hroom
    omega
  | succ depth ih =>
    refine blames_step hdue ?_ h
    intro hopen v' hdue' d' h'
    refine ih hdue' (hnested.cons hopen hdue.hasFrame) ?_ h'
    rw [List.length_cons]
    omega

/-! ## Whole graphs -/

theorem blames_start {g : Graph} {e : GraphError} (h : g.start .standard = .error e) : g.Blames e := by
  unfold start at h
  cases hentry : g.entry with
  | none =>
    simp only [hentry] at h
    cases h
    exact hentry
  | some id =>
    simp only [hentry] at h
    cases hresolve : g.resolve .standard id with
    | error e' =>
      rw [hresolve] at h
      cases h
      exact blames_of_resolve (.entry hentry) hresolve
    | ok found =>
      rw [hresolve] at h
      cases found with
      | some r => cases h
      | none =>
        cases h
        exact ⟨hentry, node?_of_resolve_none hresolve⟩

/-- The signals of the entry fail because of something that is wrong with the
    graph. -/
theorem blames_followAll {g : Graph} {e : GraphError} {activate : Resolved → Nat → Walk Code}
    {id : NodeId} {decls : List (PortDecl × Nat)}
    (hport : ∀ x ∈ decls, x.1.isSignal = true → ∀ d,
      g.followPort .standard activate ⟨id, x.2⟩ d = .error e → g.Blames e)
    {d : Draft} (h : g.followAll .standard activate id decls d = .error e) : g.Blames e := by
  induction decls generalizing d with
  | nil => cases h
  | cons head rest ih =>
    have hrest : ∀ {d}, g.followAll .standard activate id rest d = .error e → g.Blames e :=
      ih fun x hx => hport x (List.mem_cons_of_mem _ hx)
    unfold followAll at h
    by_cases hsignal : head.1.isSignal = true
    · simp only [hsignal, if_true] at h
      rcases Walk.bind_eq_error h with hfirst | ⟨first, d₁, -, hothers⟩
      · exact hport head List.mem_cons_self hsignal d hfirst
      · rcases Walk.bind_eq_error hothers with hothers | ⟨others, d₂, -, hdone⟩
        · exact hrest hothers
        · cases hdone
    · simp only [hsignal] at h
      exact hrest h

theorem blames_walk {g : Graph} {e : GraphError} (h : g.walk .standard = .error e) : g.Blames e := by
  cases hstart : g.start .standard with
  | error e' =>
    rw [walk_of_start_error hstart] at h
    cases h
    exact blames_start hstart
  | ok entry =>
    rw [walk_of_start hstart] at h
    obtain ⟨id, hentry, hresolve⟩ := start_eq_ok hstart
    obtain ⟨role, -, hrole, hkind, rfl⟩ := role?_of_resolve hresolve
    refine blames_followAll ?_ h
    intro x hx hsignal d hfollow
    have hport : (⟨entry.id, x.2⟩ : Port) ∈ g.signalOutputs entry.id := by
      simp only [signalOutputs, hrole, ← hkind, List.mem_map, List.mem_filter]
      exact ⟨x, ⟨hx, hsignal⟩, rfl⟩
    refine blames_followWires ?_ ?_ hfollow
    · intro w hw
      exact .target (.inl hentry) hport hw
    · rintro r input d hmeant ⟨w, hw, hsignal, htarget⟩ hactivate
      have hactivates : g.Activates entry.id r.id := ⟨_, hport, w, hw, hsignal, htarget⟩
      -- the entry is the only open frame, and a signal leads from it to the node
      have hdue : g.Due [.activate entry.id] (.activate r input) := by
        refine ⟨hmeant, .entry hentry hactivates, ?_⟩
        intro e' he'
        rw [List.mem_singleton.mp he']
        exact .single (.signal hactivates)
      refine blames_visit hdue (nested_entry hstart) ?_ hactivate
      exact Nat.le_succ_of_le g.nestingBound_le

theorem blames_compile {g : Graph} {e : GraphError} (h : g.compile .standard = .error e) : g.Blames e := by
  unfold compile at h
  cases hwalk : g.walk .standard with
  | error e' =>
    rw [hwalk] at h
    cases h
    exact blames_walk hwalk
  | ok result => rw [hwalk] at h; cases h

theorem wellFormed_of_compile {g : Graph} {c : Compilation} (h : g.compile .standard = .ok c) : g.WellFormed := by
  obtain ⟨body, draft, hwalk, -⟩ := compile_eq_ok h
  exact wellFormed_of_walk hwalk

/-- A graph of standard nodes compiles exactly if it is well-formed. If it
    does not compile, then the error says what is wrong with it; no other
    error is ever reported. -/
theorem compile_eq_ok_iff (g : Graph) :
    ((∃ c, g.compile .standard = .ok c) ↔ g.WellFormed) ∧
      ∀ e, g.compile .standard = .error e → g.Blames e := by
  refine ⟨⟨?_, ?_⟩, fun e => blames_compile⟩
  · intro ⟨c, hc⟩
    exact wellFormed_of_compile hc
  · intro hwell
    cases hcompile : g.compile .standard with
    | ok c => exact ⟨c, rfl⟩
    | error e => exact absurd (blames_compile hcompile) hwell.not_blames

end Graph

end FlowGraph
