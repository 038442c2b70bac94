import FlowGraph.Machine.Host

/-! # Acts

    What a graph, or an operation, does apart from where its values are
    kept: it reads and stores variables, asks the host, and ends with a
    result or with a fault, if it ends.
-/

namespace FlowGraph

/-- The object that every variable refers to. -/
abbrev Variables := String → Option Object

namespace Variables

/-- Before anything is stored. -/
def unset : Variables := fun _ => none

def set (vars : Variables) (name : String) (object : Option Object) : Variables :=
  fun other => if other = name then object else vars other

@[simp] theorem set_self (vars : Variables) (name : String) (object : Option Object) :
    vars.set name object name = object := by simp [set]

@[simp] theorem set_ne (vars : Variables) (name other : String) (object : Option Object)
    (h : other ≠ name) : vars.set name object other = vars other := by simp [set, h]

end Variables

/-- Takes the variables and the state of the host to a result, or to a fault,
    and the state of the host after it; `none` if it does not end. -/
abbrev Act (σ : Type) := StateT Variables (ExceptT Fault (StateT σ Option))

namespace Act

variable {σ α β γ : Type}

/-- Does not end. -/
def never : Act σ α := fun _ _ => none

/-- Asks the host. -/
def ask (question : σ → Except Fault α × σ) : Act σ α := fun vars w =>
  some ((question w).1.map (·, vars), (question w).2)

/-- Reads a variable. -/
def fetch (name : String) : Act σ Value := do return .ref ((← get) name)

/-- Stores a variable. -/
def store (name : String) (object : Option Object) : Act σ Unit :=
  modify fun vars => vars.set name object

/-! ## Running -/

@[simp] theorem pure_apply (a : α) (vars : Variables) (w : σ) :
    (pure a : Act σ α) vars w = some (.ok (a, vars), w) := rfl

@[simp] theorem throw_apply (fault : Fault) (vars : Variables) (w : σ) :
    (throw fault : Act σ α) vars w = some (.error fault, w) := rfl

@[simp] theorem never_apply (vars : Variables) (w : σ) : (never : Act σ α) vars w = none := rfl

@[simp] theorem ask_apply (question : σ → Except Fault α × σ) (vars : Variables) (w : σ) :
    ask question vars w = some ((question w).1.map (·, vars), (question w).2) := rfl

@[simp] theorem fetch_apply (name : String) (vars : Variables) (w : σ) :
    (fetch name : Act σ Value) vars w = some (.ok (.ref (vars name), vars), w) := rfl

@[simp] theorem store_apply (name : String) (object : Option Object) (vars : Variables) (w : σ) :
    (store name object : Act σ Unit) vars w = some (.ok ((), vars.set name object), w) := rfl

/-- One act after the other: the second runs if the first gives a result. -/
theorem bind_apply (x : Act σ α) (f : α → Act σ β) (vars : Variables) (w : σ) :
    (x >>= f) vars w =
      match x vars w with
      | none => none
      | some (.error fault, w) => some (.error fault, w)
      | some (.ok (a, vars), w) => f a vars w := by
  change (x vars >>= fun r => f r.1 r.2 : ExceptT Fault (StateT σ Option) (β × Variables)) w = _
  simp only [Bind.bind, ExceptT.bind, ExceptT.mk, StateT.bind]
  rcases x vars w with _ | ⟨_ | ⟨a, vars'⟩, w'⟩ <;> rfl

theorem bind_of_ok {x : Act σ α} {f : α → Act σ β} {vars vars' : Variables} {w w' : σ} {a : α}
    (h : x vars w = some (.ok (a, vars'), w')) : (x >>= f) vars w = f a vars' w' := by
  rw [bind_apply, h]

theorem bind_of_error {x : Act σ α} {f : α → Act σ β} {vars : Variables} {w w' : σ} {fault : Fault}
    (h : x vars w = some (.error fault, w')) : (x >>= f) vars w = some (.error fault, w') := by
  rw [bind_apply, h]

/-- How two acts in a row can end. -/
theorem bind_eq_some {x : Act σ α} {f : α → Act σ β} {vars : Variables} {w : σ}
    {r : Except Fault (β × Variables) × σ} (h : (x >>= f) vars w = some r) :
    (∃ fault w', x vars w = some (.error fault, w') ∧ r = (.error fault, w')) ∨
    (∃ a vars' w', x vars w = some (.ok (a, vars'), w') ∧ f a vars' w' = some r) := by
  rw [bind_apply] at h
  rcases hx : x vars w with _ | ⟨fault | ⟨a, vars'⟩, w'⟩
  · simp [hx] at h
  · simp only [hx, Option.some.injEq] at h
    exact .inl ⟨fault, w', rfl, h.symm⟩
  · simp only [hx] at h
    exact .inr ⟨a, vars', w', rfl, h⟩

end Act

namespace Host

variable {σ : Type}

/-- What a function gives back has to be of the expected type, and nothing if
    nothing is expected. -/
def checkResult (target : String) (returns : Ty) : Option Value → Except Fault (Option Value)
  | none => if returns = .void then .ok none else .error (.badHostResult target returns "nothing")
  | some v =>
    if v.conforms returns then .ok (some v) else .error (.badHostResult target returns v.describe)

/-- A static field has to be of the expected type. -/
def checkField (ty : Ty) (v : Value) : Except Fault Value :=
  if v.conforms ty then .ok v else .error (.typeMismatch "getstatic" ty v.describe)

/-- Calls a function. -/
def call (host : Host σ) (target : String) (args : List Value) (returns : Ty) :
    Act σ (Option Value) :=
  Act.ask fun w =>
    ((host.invoke target args returns w).1 >>= checkResult target returns,
      (host.invoke target args returns w).2)

/-- Reads a static field. -/
def field (host : Host σ) (owner name : String) (ty : Ty) : Act σ Value :=
  Act.ask fun w =>
    ((host.readStatic owner name w).1 >>= checkField ty, (host.readStatic owner name w).2)

theorem call_apply (host : Host σ) (target : String) (args : List Value) (returns : Ty)
    (vars : Variables) (w : σ) :
    host.call target args returns vars w =
      some (((host.invoke target args returns w).1 >>= checkResult target returns).map (·, vars),
        (host.invoke target args returns w).2) := rfl

theorem field_apply (host : Host σ) (owner name : String) (ty : Ty) (vars : Variables) (w : σ) :
    host.field owner name ty vars w =
      some (((host.readStatic owner name w).1 >>= checkField ty).map (·, vars),
        (host.readStatic owner name w).2) := rfl

end Host

end FlowGraph
