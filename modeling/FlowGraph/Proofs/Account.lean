import FlowGraph.Proofs.Conversions
import FlowGraph.Proofs.Traversal

/-! # Accounts of a graph

    An account says for every part of a graph in which ways it may end: for
    an input, an output, a node that a signal runs, a list of wires that it
    takes. It admits the graph if it is closed under what nodes do, one rule
    for each role.

    Main statement: the code that the walk builds keeps to every account
    that admits the graph (`Pulls.computes`, `Pushes.performs`). What the
    graph means is one account, that nothing but the host fails is another.
-/

namespace FlowGraph

variable {σ : Type}

namespace Graph

structure Account (σ : Type) where
  input : Port → Ends σ Value
  output : Port → Ends σ Value
  node : NodeId → Ends σ Unit
  wires : List (WireId × Wire) → Ends σ Unit

namespace Account

/-- How a value that is needed may end. -/
def need (a : Account σ) : Need → Ends σ Value
  | .input p => a.input p
  | .output p => a.output p
  | .result p => a.output p

def signal (a : Account σ) : Signal → Ends σ Unit
  | .node id => a.node id
  | .wires list => a.wires list

/-- The account is closed under what the nodes of the graph do, and under what
    is computed ahead of branches and loops. -/
structure Admits (a : Account σ) (g : Graph) (host : Host σ) (ahead : Ends σ Unit) : Prop where
  own {p node role decl} : g.role? p.node = some (node, role) →
    role.kind.inputs[p.index]? = some decl → g.driver? p = none →
    Ends.Within (pure (ownValue node p.index decl)) (a.input p)
  driven {p node role decl source produced} : g.role? p.node = some (node, role) →
    role.kind.inputs[p.index]? = some decl → g.driver? p = some (source, produced) →
    (do let v ← a.output source; return produced.adapt decl v).Within (a.input p)
  constant {id node c} : g.role? id = some (node, .constant c) →
    (a.input ⟨id, 0⟩).Within (a.output ⟨id, 0⟩)
  getVariable {id node c name} : g.role? id = some (node, .getVariable c) → node.tag = some name →
    (Act.fetch name).ends.Within (a.output ⟨id, 0⟩)
  query {id node c} : g.role? id = some (node, .query c) →
    (do
      match ← (host.call (node.tag.getD ("query_" ++ c.name)) [] c.native).ends with
      | some v => return v
      | none => Ends.never).Within (a.output ⟨id, 0⟩)
  arith {id node f} : g.role? id = some (node, .arith f) →
    (do
      let x ← a.input ⟨id, 0⟩
      let y ← a.input ⟨id, 1⟩
      return Value.double (f.eval x.number y.number)).Within (a.output ⟨id, 0⟩)
  compare {id node f} : g.role? id = some (node, .compare f) →
    (do
      let x ← a.input ⟨id, 0⟩
      let y ← a.input ⟨id, 1⟩
      return Value.boolean (f.eval x.number y.number)).Within (a.output ⟨id, 0⟩)
  not {id node} : g.role? id = some (node, .not) →
    (do let x ← a.input ⟨id, 0⟩; return Value.boolean !x.truth).Within (a.output ⟨id, 0⟩)
  mathConstant {id node} : g.role? id = some (node, .mathConstant) →
    (host.field "Math" (node.tag.getD "PI") .double).ends.Within (a.output ⟨id, 0⟩)
  branch {id node} : g.role? id = some (node, .branch) →
    (do
      let condition ← a.input ⟨id, 1⟩
      ahead
      if condition.truth then a.wires (g.leaving ⟨id, 0⟩)
      else a.wires (g.leaving ⟨id, 1⟩)).Within (a.node id)
  loop {id node} : g.role? id = some (node, .loop) →
    (do
      let times ← a.input ⟨id, 1⟩
      ahead
      Ends.anyOf fun turns =>
        Ends.iterate (fun _ => a.wires (g.leaving ⟨id, 0⟩)) times.number turns .zero ()
      a.wires (g.leaving ⟨id, 1⟩)).Within (a.node id)
  setVariable {id node c name} : g.role? id = some (node, .setVariable c) → node.tag = some name →
    (do
      let v ← a.input ⟨id, 1⟩
      (Act.store name v.object).ends
      a.wires (g.leaving ⟨id, 0⟩)).Within (a.node id)
  emit {id node c} : g.role? id = some (node, .emit c) →
    (do
      let v ← a.input ⟨id, 1⟩
      let _ ← (host.call (node.tag.getD ("emit_" ++ c.name)) [v] .void).ends
      a.wires (g.leaving ⟨id, 0⟩)).Within (a.node id)
  nil : Ends.Within (pure ()) (a.wires [])
  skip {w : WireId × Wire} {rest} : g.isSignalInput w.2.target = false → (a.wires rest).Within (a.wires (w :: rest))
  cons {w : WireId × Wire} {rest} : g.isSignalInput w.2.target = true →
    (do a.node w.2.target.node; a.wires rest).Within (a.wires (w :: rest))

end Account

/-- The declaration of the port that a value is needed for. -/
def Need.decl? (g : Graph) : Need → Option PortDecl
  | .input p => g.input? p
  | .output p => g.output? p
  | .result p => g.output? p

/-! ## Roles and their ports -/

theorem role_mem {g : Graph} {id : NodeId} {node : Node} {role : Role}
    (h : g.role? id = some (node, role)) : role ∈ Role.all := by
  simp only [role?, Option.bind_eq_bind, Option.pure_def, Option.bind_eq_some_iff,
    Option.some.injEq, Prod.mk.injEq] at h
  obtain ⟨_, _, _, hname, -, rfl⟩ := h
  exact Role.mem_all_of_ofName? hname

/-- A family of roles is for a category of data. -/
theorem isSignal_of_family {g : Graph} {id : NodeId} {node : Node} {role : Role} {c : Category}
    (h : g.role? id = some (node, role)) (hc : role ∈ Role.family c) : c.isSignal = false := by
  have hfamilies : ∀ role ∈ Role.all, role ∉ Role.family .signal := by decide
  cases c with
  | signal => exact absurd hc (hfamilies role (role_mem h))
  | number => rfl
  | condition => rfl
  | text => rfl

theorem input?_of_role {g : Graph} {p : Port} {node : Node} {role : Role}
    (h : g.role? p.node = some (node, role)) : g.input? p = role.kind.inputs[p.index]? := by
  simp [input?, h]

theorem output?_of_role {g : Graph} {p : Port} {node : Node} {role : Role}
    (h : g.role? p.node = some (node, role)) : g.output? p = role.kind.outputs[p.index]? := by
  simp [output?, h]

theorem driver?_eq_some {g : Graph} {p source : Port} {produced : PortDecl}
    (h : g.driver? p = some (source, produced)) :
    g.output? source = some produced ∧ produced.isSignal = false := by
  simp only [driver?, Option.bind_eq_bind, Option.bind_eq_some_iff] at h
  obtain ⟨_, -, decl, houtput, hif⟩ := h
  split at hif
  · cases hif
  · next hsignal =>
    cases hif
    exact ⟨houtput, by simpa using hsignal⟩

/-! ## Code that keeps to an account -/

section

variable {a : Account σ} {g : Graph} {host : Host σ} {s : Sharing σ}

/-- What a value is needed for allows only values of the declared type. -/
def Account.typed (a : Account σ) (need : Need) (decl : PortDecl) : Ends σ Value :=
  (a.need need).having fun v => v.conforms decl.ty = true

/-- The shared values are those of the outputs that they were shared for. -/
def Account.Shares (a : Account σ) (g : Graph) (s : Sharing σ) (d : Draft) : Prop :=
  ∀ p id decl, (p, id) ∈ d.memo → g.output? p = some decl →
    (s.value id).Within (a.typed (.output p) decl)

/-- The shared computations compute the outputs that they were shared for. -/
def Account.Known (a : Account σ) (g : Graph) (host : Host σ) (s : Sharing σ) (d : Draft) : Prop :=
  ∀ p id entry decl, (p, id) ∈ d.memo → d.shared[id]? = some entry → g.output? p = some decl →
    entry.value.Computes host s (a.typed (.output p) decl)

theorem Account.Shares.of_grows {d d' : Draft} (h : a.Shares g s d') (hd : d.Grows d') :
    a.Shares g s d :=
  fun p id decl hmem hdecl => h p id decl (hd.memo.mem hmem) hdecl

/-- Code that computes what the account allows, with values of the type. -/
theorem computes_typed {need : Need} {decl : PortDecl} {c : Code} {x : Ends σ Value}
    (hc : c.Computes host s x) (hx : x.Within (a.need need))
    (hty : x.Yields fun v => v.conforms decl.ty = true) :
    c.Computes host s (a.typed need decl) :=
  hc.within (hx.having hty)

/-- A computation of two numbers. -/
theorem computes_binary {x y : Code} {X Y : Ends σ Value} {o : Op} {ty ty' : Ty}
    {f : Double → Double → Value} (hx : x.Computes host s X)
    (hX : X.Yields fun v => v.conforms .double = true) (hy : y.Computes host s Y)
    (hY : Y.Yields fun v => v.conforms .double = true)
    (ho : ∀ m n stack, o.act host (.double n :: .double m :: stack) = pure (none, f m n :: stack)) :
    (Code.block ty [x, y, .op o ty']).Computes host s
      (do let v ← X; let w ← Y; return f v.number w.number) := by
  intro stack
  simp only [Code.block, List.foldr_cons, List.foldr_nil, Code.ends, bind_assoc, pure_bind]
  refine hx.bind hX stack fun v hv => hy.bind hY (v :: stack) fun w hw => ?_
  obtain ⟨m, rfl⟩ := Value.conforms_double.mp hv
  obtain ⟨n, rfl⟩ := Value.conforms_double.mp hw
  simp only [ho, Act.ends_pure, pure_bind, Value.number]
  exact Ends.Within.refl _

theorem binary_within {X X' Y Y' : Ends σ Value} (hX : X.Within X') (hY : Y.Within Y')
    (f : Value → Value → Value) :
    Ends.Within (do let v ← X; let w ← Y; return f v w) (do let v ← X'; let w ← Y'; return f v w) :=
  hX.bind (Ends.Yields.true _) fun _ _ => hY.bind_right _

theorem binary_yields {X Y : Ends σ Value} {f : Value → Value → Value} {property : Value → Prop}
    (h : ∀ v w, property (f v w)) :
    Ends.Yields (do let v ← X; let w ← Y; return f v w) property :=
  (Ends.Yields.true X).bind fun v _ => (Ends.Yields.true Y).bind fun w _ => Ends.Yields.pure (h v w)

/-- A question to the host. -/
theorem computes_query {target : String} {c : Category} (hc : c.isSignal = false) :
    (Code.block c.native [.op (.invoke target 0 c.native) c.native]).Computes host s
      (do
        match ← (host.call target [] c.native).ends with
        | some v => return v
        | none => Ends.never) := by
  intro stack
  have hact : (Op.invoke target 0 c.native).act host stack = _ := Op.act_invoke host stack target [] _
  simp only [Code.block, List.foldr_cons, List.foldr_nil, Code.ends, hact, Act.ends_bind,
    Act.ends_pure, bind_assoc, pure_bind]
  refine Ends.Within.bind (Ends.Within.refl _) (host.call_yields target [] c.native) ?_
  rintro (_ | v) hv
  · cases c <;> simp [Category.native, Category.isSignal] at hv hc
  · simp only [Option.toList, List.cons_append, List.nil_append, pure_bind]
    exact Ends.Within.refl _

/-- A static field of the host. -/
theorem computes_field {owner name : String} {ty ty' : Ty} :
    (Code.op (.getStatic owner name ty) ty').Computes host s (host.field owner name ty).ends := by
  intro stack
  simp only [Code.ends, Op.act_getStatic, Act.ends_bind, Act.ends_pure, bind_assoc, pure_bind]
  exact Ends.Within.refl _

/-- A reference to a shared value. -/
theorem Account.Shares.computes {d : Draft} (hs : a.Shares g s d) {p : Port} {id : SharedId}
    {ty : Ty} {decl : PortDecl} (hmem : (p, id) ∈ d.memo) (hdecl : g.output? p = some decl) :
    (Code.shared id ty).Computes host s (a.typed (.output p) decl) :=
  fun _ => (hs p id decl hmem hdecl).bind_right _

/-- Code for a value keeps to the account. -/
theorem Pulls.computes (ha : a.Admits g host s.ahead) {opened : List Port} {need : Need} {d d' : Draft}
    {c : Code} {log : List Event} (h : Pulls g opened need d c d' log) (hs : a.Shares g s d')
    {decl : PortDecl} (hdecl : need.decl? g = some decl) (hvalue : decl.isSignal = false) :
    c.Computes host s (a.typed need decl) := by
  induction h generalizing decl with
  | @own _ p node role decl' _ _ hrole hinput _ hdriver =>
    obtain rfl : decl' = decl := by
      simpa [Need.decl?, input?_of_role hrole, hinput] using hdecl
    exact computes_typed (Code.computes_unconnected hvalue) (ha.own hrole hinput hdriver)
      (Ends.Yields.pure (Code.ownValue_conforms node p.index hvalue))
  | @driven _ p node role decl' source produced _ _ _ _ hrole hinput _ hdriver _ ih =>
    obtain rfl : decl' = decl := by
      simpa [Need.decl?, input?_of_role hrole, hinput] using hdecl
    obtain ⟨houtput, hproduced⟩ := driver?_eq_some hdriver
    -- the adapter is given only values of the type that the source declares
    have hyields := (a.output source).having_yields fun v => v.conforms produced.ty = true
    refine computes_typed (Code.computes_adapt hproduced hvalue (ih hs houtput hproduced) hyields) ?_ ?_
    · exact ((Ends.having_within _ _).bind_right _).trans (ha.driven hrole hinput hdriver)
    · exact hyields.bind fun v hv => Ends.Yields.pure (PortDecl.adapt_conforms hvalue hv)
  | recalled hshared =>
    obtain ⟨id, entry, hmem, -, rfl⟩ := Draft.shared?_eq_some hshared
    exact hs.computes hmem hdecl
  | single _ _ _ _ ih => exact ih hs hdecl hvalue
  | shared _ _ _ _ _ _ => exact hs.computes List.mem_cons_self hdecl
  | @constant _ id node category _ _ _ _ hrole _ ih =>
    obtain rfl : PortDecl.native "value" category = decl := by
      simpa [Need.decl?, output?_of_role (p := ⟨id, 0⟩) hrole, Role.kind, Kind.constant] using hdecl
    have hinput := input?_of_role (p := ⟨id, 0⟩) hrole
    exact (ih hs hinput hvalue).within (ha.constant hrole).having_mono
  | @getVariable _ id node category name _ hrole htag =>
    obtain rfl : PortDecl.boxed "value" category = decl := by
      simpa [Need.decl?, output?_of_role (p := ⟨id, 0⟩) hrole, Role.kind, Kind.getVariable] using hdecl
    refine computes_typed (fun _ => Ends.Within.refl _) (ha.getVariable hrole htag) ?_
    intro vars w v vars' w' hfetch
    cases hfetch
    exact Value.conforms_object.mpr ⟨_, rfl⟩
  | @query _ id node category _ hrole =>
    obtain rfl : PortDecl.native "value" category = decl := by
      simpa [Need.decl?, output?_of_role (p := ⟨id, 0⟩) hrole, Role.kind, Kind.query] using hdecl
    refine computes_typed (computes_query hvalue) (ha.query hrole) ?_
    refine (host.call_yields _ [] _).bind ?_
    -- a call without a result ends in no way at all
    rintro (_ | v) hv
    · exact Ends.Yields.never
    · exact Ends.Yields.pure hv
  | @arith _ id node f _ _ _ _ _ _ _ hrole _ hright ihx ihy =>
    obtain rfl : PortDecl.native "result" .number = decl := by
      simpa [Need.decl?, output?_of_role (p := ⟨id, 0⟩) hrole, Role.kind, Kind.arith] using hdecl
    -- the first operand is read on an earlier draft, and what that one shares is still shared
    have hx := ihx (hs.of_grows hright.grows) (input?_of_role (p := ⟨id, 0⟩) hrole) rfl
    have hy := ihy hs (input?_of_role (p := ⟨id, 1⟩) hrole) rfl
    refine computes_typed (computes_binary hx (Ends.having_yields _ _) hy (Ends.having_yields _ _)
      fun m n stack => Op.act_arith host stack f m n) ?_ ?_
    · exact (binary_within (Ends.having_within _ _) (Ends.having_within _ _) _).trans (ha.arith hrole)
    · exact binary_yields fun v w => rfl
  | @compare _ id node f _ _ _ _ _ _ _ hrole _ hright ihx ihy =>
    obtain rfl : PortDecl.native "result" .condition = decl := by
      simpa [Need.decl?, output?_of_role (p := ⟨id, 0⟩) hrole, Role.kind, Kind.compare] using hdecl
    have hx := ihx (hs.of_grows hright.grows) (input?_of_role (p := ⟨id, 0⟩) hrole) rfl
    have hy := ihy hs (input?_of_role (p := ⟨id, 1⟩) hrole) rfl
    refine computes_typed (computes_binary hx (Ends.having_yields _ _) hy (Ends.having_yields _ _)
      fun m n stack => Op.act_compare host stack f m n) ?_ ?_
    · exact (binary_within (Ends.having_within _ _) (Ends.having_within _ _) _).trans (ha.compare hrole)
    · exact binary_yields fun v w => rfl
  | @not _ id node _ _ _ _ hrole _ ih =>
    obtain rfl : PortDecl.native "result" .condition = decl := by
      simpa [Need.decl?, output?_of_role (p := ⟨id, 0⟩) hrole, Role.kind, Kind.not] using hdecl
    have hx := ih hs (input?_of_role (p := ⟨id, 0⟩) hrole) rfl
    have hnot : ∀ v, v.conforms .boolean = true → ∀ stack,
        Op.not.act host (v :: stack) = pure (none, .boolean (!v.truth) :: stack) := by
      intro v hv stack
      obtain ⟨b, rfl⟩ := Value.conforms_boolean.mp hv
      exact Op.act_not host stack b
    refine computes_typed (hx.op (Ends.having_yields _ _) hnot) ?_ ?_
    · exact ((Ends.having_within _ _).bind_right _).trans (ha.not hrole)
    · exact (Ends.Yields.true _).bind fun v _ => Ends.Yields.pure rfl
  | @mathConstant _ id node _ hrole =>
    obtain rfl : PortDecl.native "value" .number = decl := by
      simpa [Need.decl?, output?_of_role (p := ⟨id, 0⟩) hrole, Role.kind, Kind.mathConstant] using hdecl
    exact computes_typed computes_field (ha.mathConstant hrole) (host.field_yields _ _ _)

/-- A body that is repeated. -/
theorem iterate_within {body : Code} {x : Ends σ Unit} (hbody : body.Performs host s x)
    (limit : Double) (turns : Nat) (counter : Double) (stack : List Value) :
    (Ends.iterate (body.ends host s) limit turns counter stack).Within
      (do Ends.iterate (fun _ => x) limit turns counter (); return stack) := by
  induction turns generalizing counter with
  | zero =>
    simp only [Ends.iterate]
    split
    · exact Ends.Within.never _
    · rw [pure_bind]
      exact Ends.Within.refl _
  | succ turns ih =>
    simp only [Ends.iterate]
    split
    · rw [bind_assoc]
      exact hbody.bind stack (ih (counter.add .one))
    · rw [pure_bind]
      exact Ends.Within.refl _

theorem repeat_within {body : Code} {x : Ends σ Unit} (hbody : body.Performs host s x)
    (limit counter : Double) (stack : List Value) :
    (Ends.anyOf fun turns => Ends.iterate (body.ends host s) limit turns counter stack).Within
      (do
        Ends.anyOf fun turns => Ends.iterate (fun _ => x) limit turns counter ()
        return stack) :=
  Ends.Within.anyOf fun turns => (iterate_within hbody limit turns counter stack).trans
    ((Ends.within_anyOf (fun n => Ends.iterate (fun _ => x) limit n counter ()) turns).bind_right _)

/-! ## Signals -/

theorem performs_branch {condition yes no : Code} {X : Ends σ Value} {Y N : Ends σ Unit}
    (hcondition : condition.Computes host s X) (hX : X.Yields fun v => v.conforms .boolean = true)
    (hyes : yes.Performs host s Y) (hno : no.Performs host s N) :
    (Code.branch condition yes no).Performs host s
      (do let v ← X; s.ahead; if v.truth then Y else N) := by
  intro stack
  simp only [Code.ends, bind_assoc]
  refine hcondition.bind hX stack fun v hv => Ends.Within.bind_left _ fun _ => ?_
  obtain ⟨b, rfl⟩ := Value.conforms_boolean.mp hv
  cases b
  · exact hno stack
  · exact hyes stack

theorem performs_loop {times body : Code} {X : Ends σ Value} {Y : Ends σ Unit}
    (htimes : times.Computes host s X) (hX : X.Yields fun v => v.conforms .double = true)
    (hbody : body.Performs host s Y) :
    (Code.loop times body).Performs host s
      (do
        let v ← X
        s.ahead
        Ends.anyOf fun turns => Ends.iterate (fun _ => Y) v.number turns .zero ()) := by
  intro stack
  simp only [Code.ends, bind_assoc]
  refine htimes.bind hX stack fun v hv => ?_
  obtain ⟨limit, rfl⟩ := Value.conforms_double.mp hv
  exact Ends.Within.bind_left _ fun _ => repeat_within hbody limit .zero stack

theorem performs_setVariable {value : Code} {X : Ends σ Value} (name : String)
    (hvalue : value.Computes host s X) (hX : X.Yields fun v => v.conforms (.ref .object) = true) :
    (Code.setVariable name value).Performs host s
      (do let v ← X; (Act.store name v.object).ends) := by
  intro stack
  simp only [Code.ends, bind_assoc]
  refine hvalue.bind hX stack fun v hv => ?_
  obtain ⟨object, rfl⟩ := Value.conforms_object.mp hv
  exact Ends.Within.refl _

/-- A call that gives nothing back. -/
theorem performs_emit {value : Code} {X : Ends σ Value} (target : String)
    (hvalue : value.Computes host s X) :
    (Code.block .void [value, .op (.invoke target 1 .void) .void]).Performs host s
      (do let v ← X; let _ ← (host.call target [v] .void).ends; return ()) := by
  intro stack
  simp only [Code.block, List.foldr_cons, List.foldr_nil, Code.ends, bind_assoc, pure_bind, bind_pure]
  refine hvalue.bind (Ends.Yields.true _) stack fun v _ => ?_
  have hact : (Op.invoke target 1 .void).act host (v :: stack) = _ :=
    Op.act_invoke host stack target [v] .void
  simp only [hact, Act.ends_bind, Act.ends_pure, bind_assoc, pure_bind]
  refine Ends.Within.bind (Ends.Within.refl _) (host.call_yields target [v] .void) ?_
  rintro (_ | v) hv
  · exact Ends.Within.refl _
  · simp [Value.conforms_void] at hv

/-- Code behind a signal keeps to the account. -/
theorem Pushes.performs (ha : a.Admits g host s.ahead) {signal : Signal} {d d' : Draft} {c : Code}
    {log : List Event} (h : Pushes g signal d c d' log) (hs : a.Shares g s d') :
    c.Performs host s (a.signal signal) := by
  induction h with
  | @branch id _ _ _ _ _ _ _ _ _ _ _ hrole hpulls hyes hno ihyes ihno =>
    -- each part is read against the draft behind it, and the last draft has grown from all of these
    have hs₂ := hs.of_grows hno.grows
    have hcondition := hpulls.computes ha (hs₂.of_grows hyes.grows)
      (input?_of_role (p := ⟨id, 1⟩) hrole) rfl
    refine (performs_branch hcondition (Ends.having_yields _ _) (ihyes hs₂) (ihno hs)).within ?_
    exact ((Ends.having_within _ _).bind_right _).trans (ha.branch hrole)
  | @loop id _ _ _ _ _ _ _ _ _ _ _ hrole hpulls hbody hnext ihbody ihnext =>
    have hs₂ := hs.of_grows hnext.grows
    have htimes := hpulls.computes ha (hs₂.of_grows hbody.grows)
      (input?_of_role (p := ⟨id, 1⟩) hrole) rfl
    refine ((performs_loop htimes (Ends.having_yields _ _) (ihbody hs₂)).block (ihnext hs)).within ?_
    simp only [bind_assoc]
    exact ((Ends.having_within _ _).bind_right _).trans (ha.loop hrole)
  | @setVariable id _ category name _ _ _ _ _ _ _ hrole htag hpulls hnext ihnext =>
    have hcategory : category.isSignal = false := isSignal_of_family hrole (by simp [Role.family])
    have hvalue := hpulls.computes ha (hs.of_grows hnext.grows)
      (input?_of_role (p := ⟨id, 1⟩) hrole) hcategory
    refine ((performs_setVariable name hvalue (Ends.having_yields _ _)).block (ihnext hs)).within ?_
    simp only [bind_assoc]
    exact ((Ends.having_within _ _).bind_right _).trans (ha.setVariable hrole htag)
  | @emit id node category _ _ _ _ _ _ _ hrole hpulls hnext ihnext =>
    have hcategory : category.isSignal = false := isSignal_of_family hrole (by simp [Role.family])
    have hvalue := hpulls.computes ha (hs.of_grows hnext.grows)
      (input?_of_role (p := ⟨id, 1⟩) hrole) hcategory
    refine ((performs_emit _ hvalue).block (ihnext hs)).within ?_
    simp only [bind_assoc, pure_bind]
    exact ((Ends.having_within _ _).bind_right _).trans (ha.emit hrole)
  | nil => exact (Code.performs_done .void).within ha.nil
  | skip _ hloose _ ih => exact (ih hs).within (ha.skip hloose)
  | cons hsignal _ hrest ihfirst ihrest =>
    exact ((ihfirst (hs.of_grows hrest.grows)).andThen (ihrest hs)).within (ha.cons hsignal)

/-- Follows the wires of outputs, one output after the other. -/
def Account.ports (a : Account σ) (g : Graph) : List Port → Ends σ Unit
  | [] => return ()
  | p :: rest => do
    a.wires (g.leaving p)
    a.ports g rest

theorem Starts.performs (ha : a.Admits g host s.ahead) {ports : List Port} {d d' : Draft} {c : Code}
    {log : List Event} (h : Starts g ports d c d' log) (hs : a.Shares g s d') :
    c.Performs host s (a.ports g ports) := by
  induction h with
  | nil => exact Code.performs_done .void
  | cons hpushes hrest ih =>
    exact (hpushes.performs ha (hs.of_grows hrest.grows)).andThen (ih hs)

/-! ## The shared computations -/

/-- An output that is computed gives a value. -/
theorem Pulls.isSignal_eq_false {opened : List Port} {p : Port} {d d' : Draft} {c : Code}
    {log : List Event} (h : Pulls g opened (.result p) d c d' log) {decl : PortDecl}
    (hdecl : g.output? p = some decl) : decl.isSignal = false := by
  -- a family of roles is for data, and the other results are numbers or conditions
  cases h with
  | constant hrole =>
    rw [output?_of_role (p := ⟨_, 0⟩) hrole] at hdecl
    cases hdecl
    exact isSignal_of_family hrole (by simp [Role.family, PortDecl.native])
  | getVariable hrole =>
    rw [output?_of_role (p := ⟨_, 0⟩) hrole] at hdecl
    cases hdecl
    exact isSignal_of_family hrole (by simp [Role.family, PortDecl.boxed])
  | query hrole =>
    rw [output?_of_role (p := ⟨_, 0⟩) hrole] at hdecl
    cases hdecl
    exact isSignal_of_family hrole (by simp [Role.family, PortDecl.native])
  | arith hrole =>
    rw [output?_of_role (p := ⟨_, 0⟩) hrole] at hdecl
    cases hdecl
    rfl
  | compare hrole =>
    rw [output?_of_role (p := ⟨_, 0⟩) hrole] at hdecl
    cases hdecl
    rfl
  | not hrole =>
    rw [output?_of_role (p := ⟨_, 0⟩) hrole] at hdecl
    cases hdecl
    rfl
  | mathConstant hrole =>
    rw [output?_of_role (p := ⟨_, 0⟩) hrole] at hdecl
    cases hdecl
    rfl

theorem Account.Known.share {d : Draft} {p : Port} {c : Code} {default : Const}
    (hd : a.Known g host s d) (hfresh : d.Fresh)
    (hc : ∀ decl, g.output? p = some decl → c.Computes host s (a.typed (.output p) decl)) :
    a.Known g host s (d.share p c default).2 := by
  intro q id entry decl hmem hentry hdecl
  rcases List.mem_cons.mp hmem with heq | hmem
  · obtain ⟨rfl, rfl⟩ := Prod.mk.inj heq
    rcases Draft.share_getElem? hentry with hold | ⟨-, rfl⟩
    · simp at hold
    · exact hc decl hdecl
  · rcases Draft.share_getElem? hentry with hold | ⟨rfl, -⟩
    · exact hd q id entry decl hmem hold hdecl
    · exact absurd (hfresh.lt_of_mem hmem) (Nat.lt_irrefl _)

/-- The walk keeps that the shared computations keep to the account. -/
theorem kept_known (ha : a.Admits g host s.ahead) :
    Kept g fun d => d.Fresh ∧ (a.Shares g s d → a.Known g host s d) where
  problems problems h := ⟨(Draft.Grows.problems problems .refl).fresh h.1, h.2⟩
  share hpulls _ _ h := by
    refine ⟨(Draft.Grows.share _ _ _ .refl).fresh h.1, fun hs => ?_⟩
    have hs' := hs.of_grows (.share _ _ _ .refl)
    exact (h.2 hs').share h.1 fun decl hdecl =>
      hpulls.computes ha hs' hdecl (hpulls.isSignal_eq_false hdecl)

/-- A graph that was walked keeps to the account: its code behind the entry,
    and the shared computations. -/
theorem Walked.performs (ha : a.Admits g host s.ahead) {body : Code} {draft : Draft} {log : List Event}
    (h : g.Walked body draft log) (hs : a.Shares g s draft) :
    a.Known g host s draft ∧
      ∃ id, g.entry = some id ∧ body.Performs host s (a.ports g (g.signalOutputs id)) := by
  have hempty : (({} : Draft).Fresh ∧ (a.Shares g s {} → a.Known g host s {})) :=
    ⟨Draft.fresh_empty, fun _ p id entry decl hmem => nomatch hmem⟩
  refine ⟨((kept_known ha).walked h hempty).2 hs, ?_⟩
  obtain ⟨id, _, _, hentry, _, hstarts⟩ := h
  exact ⟨id, hentry, hstarts.performs ha hs⟩

end

end Graph

end FlowGraph
