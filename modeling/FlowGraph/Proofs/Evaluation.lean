import FlowGraph.Code.Category
import FlowGraph.Proofs.Ends
import FlowGraph.Proofs.Frames

/-! # The meaning of code trees

    What a code tree does to a stack, said on the tree: no slots, no labels,
    no limits. Code has the ends that its pieces have one after the other.

    A tree does not say when a shared value is computed. What the value of
    one may be, and what may be computed ahead of the arms of a branch and
    of the body of a loop, is left to a parameter (`Sharing`).
-/

namespace FlowGraph

variable {σ : Type}

namespace Op

/-- What an operation does to a stack that has room for one more value, and
    the label that it jumps to. -/
def act (host : Host σ) (o : Op) (stack : List Value) : Act σ (Option Label × List Value) :=
  match o.effect (stack.length + 1) ⟨.ofList stack, #[]⟩ with
  | .error fault => throw fault
  | .ok (.next f) => return (none, f.stack.values)
  | .ok (.goto l f) => return (some l, f.stack.values)
  | .ok (.halt _) => Act.never
  | .ok (.readStatic owner name ty f) => do
    let v ← host.field owner name ty
    return (none, v :: f.stack.values)
  | .ok (.invoke target args returns f) => do
    let result ← host.call target args returns
    return (none, result.toList ++ f.stack.values)

section

variable (host : Host σ) (stack : List Value)

/-- A value that is pushed with room for it. -/
theorem act_of_push {o : Op} {rest : List Value} {v : Value} (hroom : rest.length ≤ stack.length)
    (h : o.effect (stack.length + 1) ⟨.ofList stack, #[]⟩ =
      Effect.next <$> Frame.push (stack.length + 1) ⟨.ofList rest, #[]⟩ v) :
    o.act host stack = pure (none, v :: rest) := by
  rw [act, h, Frame.push_of_lt _ _ _ (by omega)]
  rfl

@[simp] theorem act_const (c : Const) :
    (Op.const c).act host stack = pure (none, Value.ofConst c :: stack) :=
  act_of_push host stack (Nat.le_refl _) rfl

@[simp] theorem act_pop (v : Value) : Op.pop.act host (v :: stack) = pure (none, stack) := rfl

@[simp] theorem act_dup (v : Value) : Op.dup.act host (v :: stack) = pure (none, v :: v :: stack) :=
  act_of_push host (v :: stack) (Nat.le_refl _) rfl

@[simp] theorem act_instanceOf (c : HeapClass) (object : Option Object) :
    (Op.instanceOf c).act host (.ref object :: stack) =
      pure (none, .boolean (object.any fun o => o.heapClass.isSubclass c) :: stack) := by
  cases object <;> exact act_of_push host _ (by simp) rfl

theorem act_checkCast {c : HeapClass} {v : Value} (h : v.conforms (.ref c) = true) :
    (Op.checkCast c).act host (v :: stack) = pure (none, v :: stack) := by
  simp [act, effect, h, Bind.bind, Except.bind]

@[simp] theorem act_box_double (x : Double) :
    (Op.box .double).act host (.double x :: stack) = pure (none, .ref (some (.double x)) :: stack) :=
  act_of_push host _ (by simp) rfl

@[simp] theorem act_box_boolean (b : Bool) :
    (Op.box .boolean).act host (.boolean b :: stack) =
      pure (none, .ref (some (.boolean b)) :: stack) :=
  act_of_push host _ (by simp) rfl

@[simp] theorem act_unbox_double (x : Double) :
    (Op.unbox .double).act host (.ref (some (.double x)) :: stack) = pure (none, .double x :: stack) :=
  act_of_push host _ (by simp) rfl

@[simp] theorem act_unbox_boolean (b : Bool) :
    (Op.unbox .boolean).act host (.ref (some (.boolean b)) :: stack) =
      pure (none, .boolean b :: stack) :=
  act_of_push host _ (by simp) rfl

@[simp] theorem act_arith (f : Arith) (x y : Double) :
    (Op.arith f).act host (.double y :: .double x :: stack) =
      pure (none, .double (f.eval x y) :: stack) :=
  act_of_push host _ (by simp; omega) rfl

@[simp] theorem act_compare (f : Comparison) (x y : Double) :
    (Op.compare f).act host (.double y :: .double x :: stack) =
      pure (none, .boolean (f.eval x y) :: stack) :=
  act_of_push host _ (by simp; omega) rfl

@[simp] theorem act_not (b : Bool) :
    Op.not.act host (.boolean b :: stack) = pure (none, .boolean (!b) :: stack) :=
  act_of_push host _ (by simp) rfl

@[simp] theorem act_label (l : Label) : (Op.label l).act host stack = pure (none, stack) := rfl

@[simp] theorem act_jump (l : Label) : (Op.jump l).act host stack = pure (some l, stack) := rfl

@[simp] theorem act_jumpIf (l : Label) (b : Bool) :
    (Op.jumpIf l).act host (.boolean b :: stack) = pure (if b then some l else none, stack) := by
  cases b <;> rfl

@[simp] theorem act_jumpUnless (l : Label) (b : Bool) :
    (Op.jumpUnless l).act host (.boolean b :: stack) = pure (if b then none else some l, stack) := by
  cases b <;> rfl

@[simp] theorem act_getStatic (owner name : String) (ty : Ty) :
    (Op.getStatic owner name ty).act host stack =
      (do let v ← host.field owner name ty; return (none, v :: stack)) := rfl

/-- A call takes its arguments from the stack, the last one from the top. -/
@[simp] theorem act_invoke (target : String) (args : List Value) (returns : Ty) :
    (Op.invoke target args.length returns).act host (args.reverse ++ stack) =
      (do let result ← host.call target args returns; return (none, result.toList ++ stack)) := by
  simp [act, effect, Stack.ofList, Stack.take?]

end

end Op

namespace Code

/-- Where a label is defined in a list of operations. -/
def labelAt? (ops : List Op) (l : Label) : Option Nat :=
  ops.findIdx? fun op => op.defines? == some l

/-- Runs operations from a position to their end. -/
def actFrom (host : Host σ) (ops : List Op) : Nat → Nat → List Value → Act σ (List Value)
  | 0, pc, stack => if pc < ops.length then Act.never else return stack
  | turns + 1, pc, stack =>
    match ops[pc]? with
    | none => return stack
    | some o => do
      match ← o.act host stack with
      | (none, stack) => actFrom host ops turns (pc + 1) stack
      | (some l, stack) =>
        match labelAt? ops l with
        | some target => actFrom host ops turns target stack
        | none => Act.never

end Code

/-- What is known of shared computations. -/
structure Sharing (σ : Type) where
  /-- The value of a shared computation. -/
  value : SharedId → Ends σ Value
  /-- What computing some of them ahead of their use does. -/
  ahead : Ends σ Unit

namespace Code

/-- What code does to a stack. -/
def ends (host : Host σ) (s : Sharing σ) : Code → List Value → Ends σ (List Value)
  | .op o _, stack => do
    match ← (o.act host stack).ends with
    | (none, stack) => return stack
    | (some _, _) => Ends.never
  | .done _, stack => return stack
  | .andThen first rest, stack => do
    let stack ← first.ends host s stack
    rest.ends host s stack
  | .raw _ ops, stack => Ends.anyOf fun turns => (actFrom host ops turns 0 stack).ends
  | .shared id _, stack => do
    let v ← s.value id
    return v :: stack
  | .getVariable name, stack => do
    let v ← (Act.fetch name).ends
    return v :: stack
  | .setVariable name value, stack => do
    match ← value.ends host s stack with
    | .ref object :: stack => do
      (Act.store name object).ends
      return stack
    | v :: _ => Ends.fault (.typeMismatch "store" (.ref .object) v.describe)
    | [] => Ends.fault .stackUnderflow
  | .loop times body, stack => do
    match ← times.ends host s stack with
    | .double limit :: stack => do
      -- computations that are stored ahead run before the first test
      s.ahead
      Ends.anyOf fun turns => Ends.iterate (body.ends host s) limit turns .zero stack
    | v :: _ => Ends.fault (.typeMismatch "store" .double v.describe)
    | [] => Ends.fault .stackUnderflow
  | .branch condition yes no, stack => do
    let stack ← condition.ends host s stack
    s.ahead
    match stack with
    | .boolean true :: stack => yes.ends host s stack
    | .boolean false :: stack => no.ends host s stack
    | v :: _ => Ends.fault (.typeMismatch "jumpunless" .boolean v.describe)
    | [] => Ends.fault .stackUnderflow

/-! ## Steps of a raw piece of code -/

section

variable {host : Host σ} {ops : List Op} {turns pc : Nat} {stack stack' : List Value} {o : Op}

theorem actFrom_next (hop : ops[pc]? = some o) (hact : o.act host stack = pure (none, stack')) :
    actFrom host ops (turns + 1) pc stack = actFrom host ops turns (pc + 1) stack' := by
  rw [actFrom, hop]
  simp only [hact, pure_bind]

theorem actFrom_jump {l : Label} {target : Nat} (hop : ops[pc]? = some o)
    (hact : o.act host stack = pure (some l, stack')) (htarget : labelAt? ops l = some target) :
    actFrom host ops (turns + 1) pc stack = actFrom host ops turns target stack' := by
  rw [actFrom, hop]
  simp only [hact, pure_bind, htarget]

theorem actFrom_end (hop : ops[pc]? = none) :
    actFrom host ops (turns + 1) pc stack = pure stack := by
  rw [actFrom, hop]

end

/-! ## More turns -/

/-- More turns do not change how a raw piece of code ends. -/
theorem actFrom_within_succ (host : Host σ) (ops : List Op) (turns pc : Nat) (stack : List Value) :
    (actFrom host ops turns pc stack).ends.Within (actFrom host ops (turns + 1) pc stack).ends := by
  induction turns generalizing pc stack with
  | zero =>
    by_cases h : pc < ops.length
    · -- without turns left there is no end yet, and nothing to compare
      simp only [actFrom, h, if_true, Act.ends_never]
      exact Ends.Within.never _
    · have hnone : ops[pc]? = none := List.getElem?_eq_none (by omega)
      simp only [actFrom, h, if_false, hnone]
      exact Ends.Within.refl _
  | succ turns ih =>
    rw [actFrom, actFrom]
    cases ops[pc]? with
    | none => exact Ends.Within.refl _
    | some o =>
      simp only [Act.ends_bind]
      refine Ends.Within.bind (Ends.Within.refl _) (Ends.Yields.true _) ?_
      rintro ⟨_ | l, stack⟩ -
      · exact ih (pc + 1) stack
      · cases h : labelAt? ops l with
        | none => simp only [h]; exact Ends.Within.refl _
        | some target => simp only [h]; exact ih target stack

theorem actFrom_within (host : Host σ) (ops : List Op) (turns more pc : Nat) (stack : List Value) :
    (actFrom host ops turns pc stack).ends.Within
      (actFrom host ops (turns + more) pc stack).ends := by
  induction more with
  | zero => exact Ends.Within.refl _
  | succ more ih => exact ih.trans (actFrom_within_succ host ops (turns + more) pc stack)

end Code

end FlowGraph
