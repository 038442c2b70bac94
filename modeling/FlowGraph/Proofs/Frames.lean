import FlowGraph.Machine.Basic

/-! # Frames and limits

    The frames of the machine by the list of values on their stack, and what
    a limit on the stack does: an operation that touches no slot either
    overflows, or does what it does with room for one more value
    (`Op.effect_limit`).
-/

namespace FlowGraph

/-- A stack with these values. -/
def Stack.ofList (values : List Value) : Stack := ⟨values, values.length, rfl⟩

@[simp] theorem Stack.values_ofList (values : List Value) : (ofList values).values = values := rfl

@[simp] theorem Stack.ofList_values (s : Stack) : ofList s.values = s := Stack.ext_values rfl

namespace Frame

variable (v : Value) (stack : List Value) (locals : Array (Option Value))

@[simp] theorem pop_nil : pop ⟨.ofList [], locals⟩ = .error .stackUnderflow := rfl

@[simp] theorem pop_cons : pop ⟨.ofList (v :: stack), locals⟩ = .ok (v, ⟨.ofList stack, locals⟩) := rfl

@[simp] theorem top_nil : top ⟨.ofList [], locals⟩ = .error .stackUnderflow := rfl

@[simp] theorem top_cons : top ⟨.ofList (v :: stack), locals⟩ = .ok v := rfl

theorem push_ofList (limit : Nat) : push limit ⟨.ofList stack, locals⟩ v =
    if stack.length < limit then .ok ⟨.ofList (v :: stack), locals⟩
    else .error (.stackOverflow limit) := rfl

theorem push_of_lt {limit : Nat} (h : stack.length < limit) :
    push limit ⟨.ofList stack, locals⟩ v = .ok ⟨.ofList (v :: stack), locals⟩ := by
  rw [push_ofList, if_pos h]

end Frame

/-- The effect with other locals. -/
def Effect.withLocals (locals : Array (Option Value)) : Effect → Effect
  | .next f => .next { f with locals }
  | .goto l f => .goto l { f with locals }
  | .halt f => .halt { f with locals }
  | .readStatic owner name ty f => .readStatic owner name ty { f with locals }
  | .invoke target args returns f => .invoke target args returns { f with locals }

namespace Op

/-- The operation reads or writes a slot. -/
def touchesSlot : Op → Bool
  | .load _ _ => true
  | .store _ _ => true
  | _ => false

/-- A push within a limit, and a push with room. -/
theorem push_limit (limit room : Nat) (stack : List Value) (locals : Array (Option Value)) (v : Value)
    (hroom : stack.length < room) :
    (Effect.next <$> Frame.push limit ⟨.ofList stack, locals⟩ v) = .error (.stackOverflow limit) ∨
    (Effect.next <$> Frame.push limit ⟨.ofList stack, locals⟩ v) =
      (Effect.next <$> Frame.push room ⟨.ofList stack, #[]⟩ v).map (Effect.withLocals locals) := by
  rw [Frame.push_ofList, Frame.push_of_lt v stack #[] hroom]
  split
  · exact .inr rfl
  · exact .inl rfl

/-- A limit on the stack shows only as an overflow. -/
theorem effect_limit (o : Op) (h : o.touchesSlot = false) (limit : Nat) (stack : List Value)
    (locals : Array (Option Value)) :
    o.effect limit ⟨.ofList stack, locals⟩ = .error (.stackOverflow limit) ∨
    o.effect limit ⟨.ofList stack, locals⟩ =
      (o.effect (stack.length + 1) ⟨.ofList stack, #[]⟩).map (Effect.withLocals locals) := by
  -- only a push asks for room, so what pushes nothing has one effect within all limits
  cases o with
  | load slot ty => cases h
  | store slot ty => cases h
  | const c => exact push_limit _ _ _ _ _ (by omega)
  | pop => cases stack <;> exact .inr rfl
  | dup =>
    rcases stack with _ | ⟨v, stack⟩
    · exact .inr rfl
    · exact push_limit _ _ _ _ _ (by simp)
  | instanceOf c =>
    rcases stack with _ | ⟨_ | _ | _ | _, stack⟩
    · exact .inr rfl
    · exact .inr rfl
    · exact .inr rfl
    · exact push_limit _ _ _ _ _ (by simp only [List.length_cons]; omega)
    · exact push_limit _ _ _ _ _ (by simp only [List.length_cons]; omega)
  | checkCast c =>
    rcases stack with _ | ⟨v, stack⟩
    · exact .inr rfl
    · simp only [effect, Frame.top_cons, Bind.bind, Except.bind]
      split <;> exact .inr rfl
  | box c =>
    rcases stack with _ | ⟨v, stack⟩
    · cases c <;> exact .inr rfl
    · cases c <;> cases v <;> first
        | exact .inr rfl
        | exact push_limit _ _ _ _ _ (by simp only [List.length_cons]; omega)
  | unbox c =>
    rcases stack with _ | ⟨_ | _ | _ | _ | _ | _, stack⟩ <;> cases c <;> first
      | exact .inr rfl
      | exact push_limit _ _ _ _ _ (by simp only [List.length_cons]; omega)
  | arith f =>
    rcases stack with _ | ⟨y | _ | _, _ | ⟨x | _ | _, stack⟩⟩ <;> first
      | exact .inr rfl
      | exact push_limit _ _ _ _ _ (by simp only [List.length_cons]; omega)
  | compare f =>
    rcases stack with _ | ⟨y | _ | _, _ | ⟨x | _ | _, stack⟩⟩ <;> first
      | exact .inr rfl
      | exact push_limit _ _ _ _ _ (by simp only [List.length_cons]; omega)
  | not =>
    rcases stack with _ | ⟨_ | _ | _, stack⟩ <;> first
      | exact .inr rfl
      | exact push_limit _ _ _ _ _ (by simp only [List.length_cons]; omega)
  | label l => exact .inr rfl
  | jump l => exact .inr rfl
  | jumpIf l => rcases stack with _ | ⟨_ | (_ | _) | _, stack⟩ <;> exact .inr rfl
  | jumpUnless l => rcases stack with _ | ⟨_ | (_ | _) | _, stack⟩ <;> exact .inr rfl
  | getStatic owner name ty => exact .inr rfl
  | invoke target argc returns =>
    simp only [effect, Stack.take?]
    split
    · next h =>
      split at h
      · next hle => cases h; simp only [hle]; exact .inr rfl
      · cases h
    · next h =>
      split at h
      · cases h
      · next hle => simp only [hle]; exact .inr rfl
  | ret => exact .inr rfl

end Op

end FlowGraph
