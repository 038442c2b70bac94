import FlowGraph.Proofs.Execution

/-! # The meaning of a graph as an account

    What a graph does with one host may be required of the program of the
    graph with another, up to a relation between the states of the two. If
    the hosts give the same answers to what the nodes of the graph ask, this
    is an account that admits the graph (`Graph.meaning_admits`).
-/

namespace FlowGraph

variable {σ τ : Type}

namespace Graph

variable (g : Graph) (host : Host τ) (R : σ → τ → Prop)

/-- What the graph does, from all related states of its host. -/
noncomputable def meaning : Account σ where
  input p := (g.inputValue host p).upTo R
  output p := (g.outputValue host p).upTo R
  node id := (g.runNode host id).upTo R
  wires list := (g.runWires host list).upTo R

/-- To what the nodes of the graph ask, a host for its program gives the same
    answers as the host of the graph. -/
structure Respects (actual : Host σ) : Prop where
  query {id node c} : g.role? id = some (node, .query c) →
    (actual.call (node.tag.getD ("query_" ++ c.name)) [] c.native).ends.Within
      ((host.call (node.tag.getD ("query_" ++ c.name)) [] c.native).upTo R)
  emit {id node c v} : g.role? id = some (node, .emit c) →
    (actual.call (node.tag.getD ("emit_" ++ c.name)) [v] .void).ends.Within
      ((host.call (node.tag.getD ("emit_" ++ c.name)) [v] .void).upTo R)
  mathConstant {id node} : g.role? id = some (node, .mathConstant) →
    (actual.field "Math" (node.tag.getD "PI") .double).ends.Within
      ((host.field "Math" (node.tag.getD "PI") .double).upTo R)

variable {g host R}

/-- What does not ask the host anything is the same from related states. -/
theorem fetch_within_upTo (name : String) :
    (Act.fetch name : Act σ Value).ends.Within ((Act.fetch name : Act τ Value).upTo R) := by
  rintro vars w r heq w₁ hw
  cases heq
  exact ⟨w₁, rfl, hw⟩

theorem store_within_upTo (name : String) (object : Option Object) :
    (Act.store name object : Act σ Unit).ends.Within ((Act.store name object : Act τ Unit).upTo R) := by
  rintro vars w r heq w₁ hw
  cases heq
  exact ⟨w₁, rfl, hw⟩

theorem inputValue_own {p : Port} {node : Node} {role : Role} {decl : PortDecl}
    (hrole : g.role? p.node = some (node, role)) (hinput : role.kind.inputs[p.index]? = some decl)
    (hdriver : g.driver? p = none) : g.inputValue host p = pure (ownValue node p.index decl) := by
  rw [inputValue_eq, inputFrom, hrole]
  simp only [hinput, hdriver]

theorem inputValue_driven {p source : Port} {node : Node} {role : Role} {decl produced : PortDecl}
    (hrole : g.role? p.node = some (node, role)) (hinput : role.kind.inputs[p.index]? = some decl)
    (hdriver : g.driver? p = some (source, produced)) :
    g.inputValue host p = (do let v ← g.outputValue host source; return produced.adapt decl v) := by
  rw [inputValue_eq, inputFrom, hrole]
  simp only [hinput, hdriver]

theorem runWires_skip {w : WireId × Wire} {rest : List (WireId × Wire)}
    (h : g.isSignalInput w.2.target = false) : g.runWires host (w :: rest) = g.runWires host rest := by
  rw [runWires, wiresFrom]
  simp only [h, Bool.false_eq_true, if_false]

theorem runWires_cons {w : WireId × Wire} {rest : List (WireId × Wire)}
    (h : g.isSignalInput w.2.target = true) :
    g.runWires host (w :: rest) = (do g.runNode host w.2.target.node; g.runWires host rest) := by
  rw [runWires, wiresFrom]
  simp only [h, if_true]

/-- Two values are computed one after the other. -/
theorem binary_within_upTo (X Y : Act τ Value) (f : Value → Value → Value) :
    (do let x ← X.upTo R; let y ← Y.upTo R; return f x y).Within
      ((do let x ← X; let y ← Y; return f x y : Act τ Value).upTo R) :=
  (Ends.Within.bind_left _ fun x => Act.map_within_upTo R Y (f x)).trans
    (Act.bind_within_upTo R X fun x => do let y ← Y; return f x y)

/-- What is computed ahead does not matter. -/
theorem ahead_within_upTo {ahead : Ends σ Unit} (hahead : ahead.Within ((pure () : Act τ Unit).upTo R))
    (x : Act τ Unit) : (do ahead; x.upTo R).Within (x.upTo R) := by
  have hx := Act.bind_within_upTo R (pure () : Act τ Unit) fun _ => x
  rw [pure_bind] at hx
  exact (hahead.bind_right _).trans hx

theorem repeatBelow_within_upTo (x : Act τ Unit) (times : Double) (turns : Nat) (counter : Double) :
    (Ends.iterate (fun _ => x.upTo R) times turns counter ()).Within
      ((Act.repeatBelow times x counter).upTo R) := by
  induction turns generalizing counter with
  | zero =>
    rw [Ends.iterate, Act.repeatBelow_eq, Act.turnBelow]
    split
    · exact Ends.Within.never _
    · exact Act.pure_within_upTo R ()
  | succ turns ih =>
    rw [Ends.iterate, Act.repeatBelow_eq, Act.turnBelow]
    split
    · exact (Ends.Within.bind_left _ fun _ => ih (counter.add .one)).trans (Act.bind_within_upTo R _ _)
    · exact Act.pure_within_upTo R ()

/-- The meaning of a graph admits the graph. -/
theorem meaning_admits {actual : Host σ} (h : g.Respects host R actual) {ahead : Ends σ Unit}
    (hahead : ahead.Within ((pure () : Act τ Unit).upTo R)) :
    (g.meaning host R).Admits g actual ahead where
  own hrole hinput hdriver := by
    simp only [meaning, inputValue_own hrole hinput hdriver]
    exact Act.pure_within_upTo R _
  driven hrole hinput hdriver := by
    simp only [meaning, inputValue_driven hrole hinput hdriver]
    exact Act.map_within_upTo R _ _
  constant hrole := by
    simp only [meaning]
    rw [outputValue, outputFrom, hrole]
    exact Ends.Within.refl _
  getVariable hrole htag := by
    simp only [meaning]
    rw [outputValue, outputFrom, hrole]
    simp only [htag]
    exact fetch_within_upTo _
  query hrole := by
    simp only [meaning]
    rw [outputValue, outputFrom, hrole]
    refine Ends.Within.trans ?_ (Act.bind_within_upTo R _ _)
    refine (h.query hrole).bind (Ends.Yields.true _) ?_
    -- a query without a value has no end, whichever host is asked
    rintro (_ | v) -
    · exact Ends.Within.never _
    · exact Act.pure_within_upTo R v
  arith hrole := by
    simp only [meaning]
    rw [outputValue, outputFrom, hrole]
    exact binary_within_upTo _ _ _
  compare hrole := by
    simp only [meaning]
    rw [outputValue, outputFrom, hrole]
    exact binary_within_upTo _ _ _
  not hrole := by
    simp only [meaning]
    rw [outputValue, outputFrom, hrole]
    exact Act.map_within_upTo R _ _
  mathConstant hrole := by
    simp only [meaning]
    rw [outputValue, outputFrom, hrole]
    exact h.mathConstant hrole
  branch hrole := by
    simp only [meaning]
    rw [runNode_eq, nodeFrom, hrole]
    refine (Ends.Within.bind_left _ fun condition => ?_).trans (Act.bind_within_upTo R _ _)
    -- either arm comes behind what is computed ahead, which changes nothing
    cases condition.truth
    · exact ahead_within_upTo hahead _
    · exact ahead_within_upTo hahead _
  loop hrole := by
    simp only [meaning]
    rw [runNode_eq, nodeFrom, hrole]
    refine (Ends.Within.bind_left _ fun times => ?_).trans (Act.bind_within_upTo R _ _)
    refine Ends.Within.trans (Ends.Within.bind_left _ fun _ => ?_) (ahead_within_upTo hahead _)
    refine Ends.Within.trans (Ends.Within.bind_right _ (Ends.Within.anyOf fun turns => ?_))
      (Act.bind_within_upTo R _ _)
    -- however many turns were allowed, they are turns of the one loop
    exact repeatBelow_within_upTo _ _ turns _
  setVariable hrole htag := by
    simp only [meaning]
    rw [runNode_eq, nodeFrom, hrole]
    simp only [htag]
    refine (Ends.Within.bind_left _ fun v => ?_).trans (Act.bind_within_upTo R _ _)
    exact ((store_within_upTo _ _).bind_right _).trans (Act.bind_within_upTo R _ _)
  emit hrole := by
    simp only [meaning]
    rw [runNode_eq, nodeFrom, hrole]
    refine (Ends.Within.bind_left _ fun v => ?_).trans (Act.bind_within_upTo R _ _)
    exact ((h.emit hrole).bind_right _).trans (Act.bind_within_upTo R _ _)
  nil := by
    simp only [meaning]
    rw [runWires, wiresFrom]
    exact Act.pure_within_upTo R ()
  skip hloose := by
    simp only [meaning, runWires_skip hloose]
    exact Ends.Within.refl _
  cons hsignal := by
    simp only [meaning, runWires_cons hsignal]
    exact Act.bind_within_upTo R _ _

theorem ports_meaning_within (ports : List Port) :
    ((g.meaning host R).ports g ports).Within ((g.runPorts host ports).upTo R) := by
  induction ports with
  | nil => exact Act.pure_within_upTo R ()
  | cons p rest ih => exact (Ends.Within.bind_left _ fun _ => ih).trans (Act.bind_within_upTo R _ _)

theorem interpret_of_ports {id : NodeId} (hentry : g.entry = some id) {w : σ} {w₁ : τ} (hw : R w w₁)
    {r : Except Fault (Unit × Variables) × σ}
    (h : (g.meaning host R).ports g (g.signalOutputs id) Variables.unset w r) :
    ∃ w₁', g.interpret host w₁ = some (r.1.map fun _ => (), w₁') ∧ R r.2 w₁' := by
  obtain ⟨w₁', hrun, hw'⟩ := ports_meaning_within _ _ _ _ h w₁ hw
  refine ⟨w₁', ?_, hw'⟩
  rcases r with ⟨fault | ⟨_, vars⟩, w'⟩ <;> simp [interpret, hentry, hrun, Except.map]

/-- The program of a graph does what the graph does, up to the relation,
    unless it reaches a limit. -/
theorem Walked.exists_interpret {actual : Host σ} (hrespects : g.Respects host R actual) {body : Code}
    {draft : Draft} {log : List Event} (h : g.Walked body draft log)
    (hsettles : (g.meaning host R).Settles g draft ((pure () : Act τ Unit).upTo R))
    (limits : Limits) {w : σ} {w₁ : τ} (hw : R w w₁)
    (hlimit : ∀ fault, ((draft.finish body).program.run limits actual w).1 = .error fault →
      fault.isLimit = false) :
    ∃ w₁', g.interpret host w₁ =
        some (((draft.finish body).program.run limits actual w).1.map fun _ => (), w₁') ∧
      R ((draft.finish body).program.run limits actual w).2 w₁' := by
  have hadmits := meaning_admits hrespects (Ends.Within.refl ((pure () : Act τ Unit).upTo R))
  obtain ⟨id, hentry, hkeeps⟩ := h.keeps hadmits hsettles limits w
  rcases hrun : (draft.finish body).program.run limits actual w with ⟨fault | outcome, w'⟩
  · rw [hrun] at hkeeps hlimit
    rcases hkeeps with hfault | hports
    · simp [hlimit fault rfl] at hfault
    · exact interpret_of_ports hentry hw hports
  · rw [hrun] at hkeeps
    obtain ⟨-, vars, hports⟩ := hkeeps
    exact interpret_of_ports hentry hw hports

end Graph

end FlowGraph
