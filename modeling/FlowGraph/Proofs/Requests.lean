import FlowGraph.Proofs.Nesting

/-! # What recipes ask for

    The recipe of a standard kind asks for every value input of its node in
    order, and a recipe for a signal then follows every signal output in
    order. The only way to fail is a tag that is missing.

    So a recipe is run by answering a list of requests that can be read off
    the ports of the kind.
-/

namespace FlowGraph

/-- What a recipe asks for. -/
inductive Request where
  /-- The value of an input. -/
  | input (index : Nat)
  /-- Everything behind a signal output. -/
  | follow (index : Nat)
  deriving DecidableEq, Repr

/-- The recipe makes these requests in this order, whatever the answers. -/
inductive Recipe.Makes {α : Type} : List Request → Recipe α → Prop
  | done {a : α} : Makes [] (.done a)
  | input {index next rest} : (∀ c, Makes rest (next c)) → Makes (.input index :: rest) (.input index next)
  | follow {index next rest} : (∀ c, Makes rest (next c)) →
    Makes (.follow index :: rest) (.follow index next)

namespace Kind

/-- The inputs that take values. -/
def valueInputs (k : Kind) : List Nat :=
  (k.inputs.zipIdx.filter fun (decl, _) => !decl.isSignal).map Prod.snd

/-- The outputs that signals leave by. -/
def signalOutputs (k : Kind) : List Nat :=
  (k.outputs.zipIdx.filter fun (decl, _) => decl.isSignal).map Prod.snd

/-- What a node asks for when a signal reaches it. -/
def activation (k : Kind) : List Request := k.valueInputs.map .input ++ k.signalOutputs.map .follow

/-- What a node asks for to compute an output. -/
def computation (k : Kind) : List Request := k.valueInputs.map .input

theorem mem_valueInputs {k : Kind} {index : Nat} :
    index ∈ k.valueInputs ↔ ∃ decl, k.inputs[index]? = some decl ∧ decl.isSignal = false := by
  simp [valueInputs, List.mem_zipIdx_iff_getElem?]

end Kind

namespace Role

/-- A signal runs the nodes of the role. -/
def runs : Role → Bool
  | .setVariable _ | .emit _ | .branch | .loop => true
  | _ => false

/-- The tag of a node names the variable that it sets or reads. -/
def needsTag : Role → Bool
  | .setVariable _ | .getVariable _ => true
  | _ => false

/-- Only nodes that a signal runs take one. -/
theorem runs_of_isSignal :
    ∀ role ∈ all, ∀ decl ∈ role.kind.inputs, decl.isSignal = true → role.runs = true := by
  decide

/-- Only the first output of a node gives a value, and only if no signal runs
    the node. -/
theorem runs_of_isValue :
    ∀ role ∈ all, ∀ x ∈ role.kind.outputs.zipIdx, x.1.isSignal = false →
      x.2 = 0 ∧ role.runs = false ∧ role ≠ .start := by
  decide

/-- What a node asks for, by its role. -/
def valueCount : Role → Nat
  | .arith _ | .compare _ => 2
  | .constant _ | .not => 1
  | _ => 0

theorem activation_eq :
    ∀ role ∈ all, role.runs = true → role.kind.activation = .input 1 :: role.kind.signalOutputs.map .follow := by
  decide

theorem computation_eq :
    ∀ role ∈ all, role.runs = false → role.kind.computation = (List.range role.valueCount).map .input := by
  decide

/-- A node that a signal reaches asks for its value inputs and goes on at its
    signal outputs, unless it sets a variable and has no tag to name it. -/
theorem activate_makes {role : Role} (hrole : role ∈ all) {index : Nat} {decl : PortDecl}
    (hdecl : role.kind.inputs[index]? = some decl) (hsignal : decl.isSignal = true) (site : Site) :
    (role.needsTag = true ∧ site.tag = none ∧
      role.kind.behaviour.activate site index = .fail (.missingTag site.node site.kind)) ∨
    ((role.needsTag = true → site.tag.isSome) ∧
      Recipe.Makes role.kind.activation (role.kind.behaviour.activate site index)) := by
  have hruns := runs_of_isSignal role hrole decl (List.mem_of_getElem? hdecl) hsignal
  rw [activation_eq role hrole hruns]
  cases role with
  | start | constant | getVariable | query | arith | compare | not | mathConstant => cases hruns
  | setVariable c =>
    cases htag : site.tag with
    | none =>
      refine .inl ⟨rfl, rfl, ?_⟩
      simp [kind, Kind.setVariable, Behaviour.setVariable, Site.requireTag, htag, Bind.bind, Recipe.bind]
    | some name =>
      refine .inr ⟨fun _ => rfl, ?_⟩
      simp only [kind, Kind.setVariable, Behaviour.setVariable, Site.requireTag, htag]
      exact .input fun _ => .follow fun _ => .done
  | emit c =>
    refine .inr ⟨by rintro ⟨⟩, ?_⟩
    exact .input fun _ => .follow fun _ => .done
  | branch =>
    refine .inr ⟨by rintro ⟨⟩, ?_⟩
    exact .input fun _ => .follow fun _ => .follow fun _ => .done
  | loop =>
    refine .inr ⟨by rintro ⟨⟩, ?_⟩
    exact .input fun _ => .follow fun _ => .follow fun _ => .done

/-- A node whose value is needed asks for its value inputs, unless it reads a
    variable and has no tag to name it. -/
theorem compute_makes {role : Role} (hrole : role ∈ all) {index : Nat} {decl : PortDecl}
    (hdecl : role.kind.outputs[index]? = some decl) (hvalue : decl.isSignal = false) (site : Site) :
    (role.needsTag = true ∧ site.tag = none ∧
      role.kind.behaviour.compute site index = .fail (.missingTag site.node site.kind)) ∨
    ((role.needsTag = true → site.tag.isSome) ∧
      Recipe.Makes role.kind.computation (role.kind.behaviour.compute site index)) := by
  obtain ⟨hzero, hruns, hstart⟩ :=
    runs_of_isValue role hrole (decl, index) (List.mem_zipIdx_iff_getElem?.mpr hdecl) hvalue
  obtain rfl : index = 0 := hzero
  rw [computation_eq role hrole hruns]
  -- reading a variable is the one computation that needs a tag
  cases role with
  | start => exact absurd rfl hstart
  | setVariable | emit | branch | loop => cases hruns
  | constant c =>
    refine .inr ⟨by rintro ⟨⟩, ?_⟩
    exact .input fun _ => .done
  | getVariable c =>
    cases htag : site.tag with
    | none =>
      refine .inl ⟨rfl, rfl, ?_⟩
      simp [kind, Kind.getVariable, Behaviour.getVariable, Behaviour.single, Site.requireTag, htag,
        Bind.bind, Recipe.bind]
    | some name =>
      refine .inr ⟨fun _ => rfl, ?_⟩
      simp only [kind, Kind.getVariable, Behaviour.getVariable, Behaviour.single, Site.requireTag, htag,
        if_true]
      exact .done
  | query c =>
    refine .inr ⟨by rintro ⟨⟩, ?_⟩
    exact .done
  | arith f =>
    refine .inr ⟨by rintro ⟨⟩, ?_⟩
    exact .input fun _ => .input fun _ => .done
  | compare f =>
    refine .inr ⟨by rintro ⟨⟩, ?_⟩
    exact .input fun _ => .input fun _ => .done
  | not =>
    refine .inr ⟨by rintro ⟨⟩, ?_⟩
    exact .input fun _ => .done
  | mathConstant =>
    refine .inr ⟨by rintro ⟨⟩, ?_⟩
    exact .done

end Role

namespace Graph

/-! ## Answers -/

/-- The code that a request is answered with. -/
def answer (input follow : Nat → Walk Code) : Request → Walk Code
  | .input index => input index
  | .follow index => follow index

/-- Requests that are answered one after the other. -/
inductive Answered (answer : Request → Walk Code) : List Request → Draft → Draft → Prop
  | nil {d} : Answered answer [] d d
  | cons {request rest d c d₁ d'} : answer request d = .ok (c, d₁) → Answered answer rest d₁ d' →
    Answered answer (request :: rest) d d'

section

variable {α : Type} {requests : List Request} {recipe : Recipe α} {input follow : Nat → Walk Code}

/-- A recipe that is run has all its requests answered. -/
theorem answered_of_perform (hmakes : recipe.Makes requests) {d d' : Draft} {a : α}
    (h : perform input follow recipe d = .ok (a, d')) : Answered (answer input follow) requests d d' := by
  induction hmakes generalizing d with
  | done =>
    cases h
    exact .nil
  | input _ ih =>
    obtain ⟨c, d₁, hc, hrest⟩ := Walk.bind_eq_ok h
    have hanswer : answer input follow (.input _) d = .ok (c, d₁) := hc
    exact .cons hanswer (ih c hrest)
  | follow _ ih =>
    obtain ⟨c, d₁, hc, hrest⟩ := Walk.bind_eq_ok h
    have hanswer : answer input follow (.follow _) d = .ok (c, d₁) := hc
    exact .cons hanswer (ih c hrest)

/-- A recipe fails with one of its requests. -/
theorem exists_of_perform_error (hmakes : recipe.Makes requests) {d : Draft} {e : GraphError}
    (h : perform input follow recipe d = .error e) :
    ∃ request ∈ requests, ∃ d', answer input follow request d' = .error e := by
  induction hmakes generalizing d with
  | done => cases h
  | input _ ih =>
    rcases Walk.bind_eq_error h with hfirst | ⟨c, d₁, -, hrest⟩
    · exact ⟨_, List.mem_cons_self, d, hfirst⟩
    · obtain ⟨request, hmem, hanswer⟩ := ih c hrest
      exact ⟨request, List.mem_cons_of_mem _ hmem, hanswer⟩
  | follow _ ih =>
    rcases Walk.bind_eq_error h with hfirst | ⟨c, d₁, -, hrest⟩
    · exact ⟨_, List.mem_cons_self, d, hfirst⟩
    · obtain ⟨request, hmem, hanswer⟩ := ih c hrest
      exact ⟨request, List.mem_cons_of_mem _ hmem, hanswer⟩

end

/-! ## Visits -/

/-- The node at which something happens. -/
def Event.node : Event → NodeId
  | .activate id => id
  | .compute p => p.node

/-- What has to be asked for when something happens. -/
def requests (g : Graph) (e : Event) : List Request :=
  match g.role? e.node with
  | none => []
  | some (_, role) =>
    match e with
    | .activate _ => role.kind.activation
    | .compute _ => role.kind.computation

/-- A value that arrives at the port is used. -/
def isValueInput (g : Graph) (p : Port) : Bool := (g.input? p).any fun decl => !decl.isSignal

theorem input_mem_requests {g : Graph} {e : Event} {index : Nat} :
    .input index ∈ g.requests e ↔ g.isValueInput ⟨e.node, index⟩ = true := by
  unfold requests isValueInput input?
  cases g.role? e.node with
  | none => simp
  | some found =>
    have hvalue : index ∈ found.2.kind.valueInputs ↔
        (found.2.kind.inputs[index]?.any fun decl => !decl.isSignal) = true := by
      rw [Kind.mem_valueInputs, Option.any_eq_true]
      simp
    cases e <;> simp [Kind.activation, Kind.computation, hvalue]

theorem follow_mem_requests {g : Graph} {e : Event} {index : Nat} :
    .follow index ∈ g.requests e ↔
      e = .activate e.node ∧ (⟨e.node, index⟩ : Port) ∈ g.signalOutputs e.node := by
  unfold requests signalOutputs
  cases g.role? e.node with
  | none => simp
  | some found =>
    cases e <;> simp [Kind.activation, Kind.computation, Kind.signalOutputs, Event.node]

/-- A visit that the walk of a standard graph can come to: of a node at a
    signal input, or of a value output. -/
def Visit.Meant (g : Graph) : Visit → Prop
  | .activate r input => g.resolve .standard r.id = .ok (some r) ∧
    ∃ decl, r.kind.inputs[input]? = some decl ∧ decl.isSignal = true
  | .compute producer => producer.Resolves g

theorem Visit.Meant.resolve {g : Graph} {v : Visit} (h : v.Meant g) :
    g.resolve .standard v.subject.id = .ok (some v.subject) := by
  cases v with
  | activate r input => exact h.1
  | compute producer =>
    obtain ⟨hid, -⟩ := node?_of_resolve h.source
    show g.resolve .standard producer.source.id = .ok (some producer.source)
    rw [hid]
    exact h.source

/-- What a visit does: it fails because there is no tag, or makes the requests
    of its event. -/
structure Visit.Plan (g : Graph) (v : Visit) (node : Node) (role : Role) : Prop where
  role? : g.role? v.frame.node = some (node, role)
  subject : v.subject = ⟨v.frame.node, node, role.kind⟩
  recipe : role.needsTag = true ∧ node.tag = none ∧
      v.recipe = .fail (.missingTag v.frame.node node.kind) ∨
    (role.needsTag = true → node.tag.isSome) ∧ v.recipe.Makes (g.requests v.frame)

/-- The answer to a request of a visit. `deeper` visits what it comes to. -/
def Visit.answer (g : Graph) (catalog : Catalog) (deeper : Visit → Walk Code) (v : Visit) :
    Request → Walk Code :=
  Graph.answer (inputWith g catalog (fun producer => deeper (.compute producer)) v.subject)
    (followWith g catalog (fun r input => deeper (.activate r input)) v.subject)

theorem Visit.Meant.exists_plan {g : Graph} {v : Visit} (h : v.Meant g) :
    ∃ node role, v.Plan g node role := by
  cases v with
  | activate r input =>
    obtain ⟨hresolve, decl, hdecl, hsignal⟩ := h
    obtain ⟨role, hmem, hrole, hkind, -⟩ := role?_of_resolve hresolve
    rw [hkind] at hdecl
    refine ⟨r.node, role, hrole, by rw [← hkind]; rfl, ?_⟩
    have hmakes := role.activate_makes hmem hdecl hsignal r.site
    simpa only [Visit.recipe, hkind, requests, Visit.frame, Event.node, hrole, Resolved.site] using hmakes
  | compute producer =>
    obtain ⟨role, hmem, hrole, hkind, hid⟩ := role?_of_resolve h.source
    have hdecl := h.decl
    rw [hkind] at hdecl
    refine ⟨producer.source.node, role, hrole, ?_, ?_⟩
    · show producer.source = ⟨producer.port.node, producer.source.node, role.kind⟩
      rw [← hid, ← hkind]
    · have hmakes := role.compute_makes hmem hdecl h.value producer.source.site
      simpa only [Visit.recipe, hkind, requests, Visit.frame, Event.node, hrole, Resolved.site, hid]
        using hmakes

/-- A visit that follows its recipe to the end has a tag if it needs one, and
    all its requests are answered. -/
theorem Visit.Meant.answered {g : Graph} {v : Visit} (hmeant : v.Meant g) {deeper : Visit → Walk Code}
    {d d' : Draft} {code : Code} (h : v.follow g .standard deeper d = .ok (code, d')) :
    ∃ node role, v.Plan g node role ∧ (role.needsTag = true → node.tag.isSome) ∧
      Answered (v.answer g .standard deeper) (g.requests v.frame) d d' := by
  obtain ⟨node, role, hplan⟩ := hmeant.exists_plan
  rcases hplan.recipe with ⟨-, -, hfail⟩ | ⟨htag, hmakes⟩
  · -- without the tag that it needs, the node has a recipe that fails
    unfold Visit.follow at h
    rw [hfail] at h
    cases h
  · exact ⟨node, role, hplan, htag, answered_of_perform hmakes h⟩

end Graph

end FlowGraph
