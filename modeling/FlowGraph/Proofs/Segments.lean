import FlowGraph.Proofs.Evaluation

/-! # Runs over a piece of code

    What a run of the machine does from one position of its code to another.
    `Machine.Follows` says that it goes over a limit, stops with a fault that
    is allowed, or comes to its goal; the rules below put such runs together,
    operation by operation.

    The number of steps that are left only gets smaller, so a run through a
    loop is followed by induction on it.
-/

namespace FlowGraph

variable {σ : Type}

/-- The fault says that a limit of the machine was reached. -/
def Fault.isLimit : Fault → Bool
  | .stackOverflow _ => true
  | .tooManyLocals _ _ => true
  | .stepLimit _ => true
  | _ => false

/-- The run ends because of a limit. -/
def Limited (r : Except Fault Outcome × σ) : Prop := ∃ fault, r.1 = .error fault ∧ fault.isLimit = true

namespace Op

/-- Only an operation that names a label jumps to it. -/
theorem effect_goto {o : Op} {limit : Nat} {f f' : Frame} {l : Label}
    (h : o.effect limit f = .ok (.goto l f')) : o.references? = some l := by
  cases o <;>
    simp only [effect, Bind.bind, Except.bind, Functor.map, Except.map, pure, Except.pure] at h <;>
    (repeat' split at h) <;> simp_all [references?]

theorem effect_halt {o : Op} {limit : Nat} {f f' : Frame}
    (h : o.effect limit f = .ok (.halt f')) : o = .ret := by
  cases o <;>
    simp only [effect, Bind.bind, Except.bind, Functor.map, Except.map, pure, Except.pure] at h <;>
    (repeat' split at h) <;> simp_all

theorem act_goto {host : Host σ} {o : Op} {stack stack' : List Value} {vars vars' : Variables} {w w' : σ}
    {l : Label} (h : o.act host stack vars w = some (.ok ((some l, stack'), vars'), w')) :
    o.references? = some l := by
  unfold act at h
  cases heffect : o.effect (stack.length + 1) ⟨.ofList stack, #[]⟩ with
  | error fault => simp [heffect] at h
  | ok effect =>
    cases effect with
    | next f => simp [heffect] at h
    | goto l' f =>
      simp only [heffect, Act.pure_apply, Option.some.injEq, Prod.mk.injEq, Except.ok.injEq] at h
      obtain ⟨⟨⟨rfl, -⟩, -⟩, -⟩ := h
      exact effect_goto heffect
    | halt f => simp [heffect] at h
    | readStatic owner name ty f =>
      rw [heffect] at h
      rcases Act.bind_eq_some h with ⟨_, _, -, heq⟩ | ⟨_, _, _, -, heq⟩ <;> cases heq
    | invoke target args returns f =>
      rw [heffect] at h
      rcases Act.bind_eq_some h with ⟨_, _, -, heq⟩ | ⟨_, _, _, -, heq⟩ <;> cases heq

end Op

namespace Machine

variable {m : Machine} {host : Host σ} {o : Op} {left pc : Nat} {stack : List Value}
  {locals : Array (Option Value)} {w : σ}

/-- Where the machine goes on: behind the operation or at a label. -/
def next? (m : Machine) (pc : Nat) : Option Label → Option Nat
  | none => some (pc + 1)
  | some l => m.positions[l]?

/-- A step from a position accords with what an operation does to the stack
    alone: the step reaches a limit, or both fault, or both go on. -/
def Accords (m : Machine) (pc steps : Nat) (locals : Array (Option Value)) (vars : Variables)
    (step : Except Fault Progress × σ)
    (act : Option (Except Fault ((Option Label × List Value) × Variables) × σ)) : Prop :=
  (∃ fault w, step = (.error fault, w) ∧ (fault.isLimit = true ∨ act = some (.error fault, w))) ∨
  ∃ l stack w, act = some (.ok ((l, stack), vars), w) ∧
    ∀ target, m.next? pc l = some target →
      step = (.ok (.running ⟨target, steps + 1, ⟨.ofList stack, locals⟩⟩), w)

section

variable {steps : Nat} {vars : Variables}

theorem Accords.of_error (fault : Fault) :
    m.Accords pc steps locals vars (.error fault, w) (some (.error fault, w)) :=
  .inl ⟨fault, w, rfl, .inr rfl⟩

/-- Both go on behind the operation. -/
theorem Accords.of_next (f : Frame) :
    m.Accords pc steps locals vars (.ok (.running ⟨pc + 1, steps + 1, { f with locals }⟩), w)
      (some (.ok ((none, f.stack.values), vars), w)) := by
  refine .inr ⟨none, f.stack.values, w, rfl, fun target htarget => ?_⟩
  cases htarget
  rw [Stack.ofList_values]

/-- An answer of the host is pushed, if there is room. -/
theorem Accords.of_push (f : Frame) (v : Value) :
    m.Accords pc steps locals vars
      ((fun f => .running ⟨pc + 1, steps + 1, f⟩) <$> Frame.push m.limits.stack { f with locals } v, w)
      (some (.ok ((none, v :: f.stack.values), vars), w)) := by
  by_cases hroom : f.stack.depth < m.limits.stack
  · rw [Frame.push, if_pos hroom]
    exact .of_next { f with stack := f.stack.push v }
  · rw [Frame.push, if_neg hroom]
    exact .inl ⟨_, w, rfl, .inl rfl⟩

end

/-- An operation that touches no slot does on the machine what it does to the
    stack alone, if no limit is reached. -/
theorem step_accords (m : Machine) (host : Host σ) (hslot : o.touchesSlot = false) (hret : o ≠ .ret)
    (pc steps : Nat) (stack : List Value) (locals : Array (Option Value)) (vars : Variables) (w : σ) :
    m.Accords pc steps locals vars (m.step host o ⟨pc, steps, ⟨.ofList stack, locals⟩⟩ w)
      (o.act host stack vars w) := by
  simp only [step, Op.act]
  -- either the limit on the stack shows here, or it does not matter for this operation
  rcases o.effect_limit hslot m.limits.stack stack locals with hover | heffect
  · rw [hover]
    exact .inl ⟨_, w, rfl, .inl rfl⟩
  rw [heffect]
  cases hroom : o.effect (stack.length + 1) ⟨.ofList stack, #[]⟩ with
  | error fault => exact .of_error fault
  | ok effect =>
    cases effect with
    | next f => exact .of_next f
    | goto l f =>
      refine .inr ⟨some l, f.stack.values, w, rfl, fun target htarget => ?_⟩
      rw [next?] at htarget
      simp only [Except.map, Effect.withLocals, htarget, Stack.ofList_values]
    | halt f => exact absurd (Op.effect_halt hroom) hret
    | readStatic owner name ty f =>
      simp only [Except.map, Effect.withLocals, Act.bind_apply, Host.field_apply]
      -- both ask the host the same, and both check its answer against the type
      rcases host.readStatic owner name w with ⟨fault | v, w⟩
      · exact .of_error fault
      · simp only [Bind.bind, Except.bind, Host.checkField]
        by_cases hty : v.conforms ty = true
        · simp only [hty, if_true]
          exact .of_push f v
        · simp only [hty]
          exact .of_error _
    | invoke target args returns f =>
      simp only [Except.map, Effect.withLocals, Act.bind_apply, Host.call_apply]
      rcases host.invoke target args returns w with ⟨fault | _ | v, w⟩
      · exact .of_error fault
      · simp only [Bind.bind, Except.bind, Host.checkResult]
        by_cases hvoid : returns = .void
        · simp only [hvoid, if_true]
          exact .of_next f
        · simp only [hvoid]
          exact .of_error _
      · simp only [Bind.bind, Except.bind, Host.checkResult]
        by_cases hty : v.conforms returns = true
        · simp only [hty, if_true]
          exact .of_push f v
        · simp only [hty]
          exact .of_error _

/-! ## Following code -/

/-- Where a run should come to, the ends that are allowed, and what holds of
    the locals and the variables there. -/
structure Goal (σ : Type) where
  target : Nat
  allowed : Except Fault (List Value × Variables) × σ → Prop
  keeps : Array (Option Value) → Variables → Prop

/-- The run from a position reaches a limit, faults as allowed, or comes to
    the goal. -/
def Follows (m : Machine) (host : Host σ) (left pc : Nat) (f : Frame) (w : σ) (goal : Goal σ) : Prop :=
  ∀ steps,
    (∃ fault w', m.run host left ⟨pc, steps, f⟩ w = (.error fault, w') ∧
      (fault.isLimit = true ∨ goal.allowed (.error fault, w'))) ∨
    ∃ left' steps' stack locals vars w', left' ≤ left ∧
      m.run host left ⟨pc, steps, f⟩ w =
        m.run host left' ⟨goal.target, steps', ⟨.ofList stack, locals⟩⟩ w' ∧
      goal.allowed (.ok (stack, vars), w') ∧ goal.keeps locals vars

variable {goal goal' : Goal σ} {f : Frame}

/-- The goal is reached. -/
theorem Follows.arrive (vars : Variables) (hok : goal.allowed (.ok (stack, vars), w))
    (hkeeps : goal.keeps locals vars) (hpc : pc = goal.target) :
    m.Follows host left pc ⟨.ofList stack, locals⟩ w goal := by
  subst hpc
  exact fun steps => .inr ⟨left, steps, stack, locals, vars, w, Nat.le_refl _, rfl, hok, hkeeps⟩

/-- One piece of code after the other. -/
theorem Follows.andThen (h : m.Follows host left pc f w goal)
    (herror : ∀ fault w', goal.allowed (.error fault, w') → goal'.allowed (.error fault, w'))
    (hok : ∀ left' stack locals vars w', left' ≤ left → goal.allowed (.ok (stack, vars), w') →
      goal.keeps locals vars → m.Follows host left' goal.target ⟨.ofList stack, locals⟩ w' goal') :
    m.Follows host left pc f w goal' := by
  intro steps
  rcases h steps with ⟨fault, w', hrun, hfault⟩ |
    ⟨left', steps', stack, locals, vars, w', hle, hrun, hallowed, hkeeps⟩
  · exact .inl ⟨fault, w', hrun, hfault.imp_right (herror fault w')⟩
  · rw [hrun]
    rcases hok left' stack locals vars w' hle hallowed hkeeps steps' with hfault |
      ⟨left'', steps'', stack', locals', vars', w'', hle', hrun', hgoal⟩
    · exact .inl hfault
    · exact .inr ⟨left'', steps'', stack', locals', vars', w'', Nat.le_trans hle' hle, hrun', hgoal⟩

theorem Follows.mono (h : m.Follows host left pc f w goal) (htarget : goal.target = goal'.target)
    (hallowed : ∀ r, goal.allowed r → goal'.allowed r)
    (hkeeps : ∀ locals vars, goal.keeps locals vars → goal'.keeps locals vars) :
    m.Follows host left pc f w goal' :=
  h.andThen (fun _ _ => hallowed _) fun _ _ _ _ _ _ hok hgoal =>
    .arrive _ (hallowed _ hok) (hkeeps _ _ hgoal) htarget

/-- Ends one after the other. -/
theorem Follows.bind {x : Ends σ (List Value)} {g : List Value → Ends σ (List Value)} {mid target : Nat}
    {keeps keeps' : Array (Option Value) → Variables → Prop} {vars : Variables}
    (h : m.Follows host left pc f w ⟨mid, x vars w, keeps⟩)
    (hok : ∀ left' stack locals vars' w', left' ≤ left → x vars w (.ok (stack, vars'), w') →
      keeps locals vars' →
      m.Follows host left' mid ⟨.ofList stack, locals⟩ w' ⟨target, g stack vars' w', keeps'⟩) :
    m.Follows host left pc f w ⟨target, (x >>= g) vars w, keeps'⟩ :=
  h.andThen (fun _ _ herror => Ends.bind_error herror)
    fun left' stack locals vars' w' hle hx hgoal =>
      (hok left' stack locals vars' w' hle hx hgoal).mono rfl (fun _ hg => Ends.bind_ok hx hg)
        fun _ _ hkeeps => hkeeps

/-- A step of the machine, and the rest with fewer steps left. -/
theorem Follows.of_step (hop : m.code[pc]? = some o)
    (h : ∀ steps,
      (∃ fault w', m.step host o ⟨pc, steps, f⟩ w = (.error fault, w') ∧
        (fault.isLimit = true ∨ goal.allowed (.error fault, w'))) ∨
      ∃ target steps' f' w', m.step host o ⟨pc, steps, f⟩ w = (.ok (.running ⟨target, steps', f'⟩), w') ∧
        ∀ left' < left, m.Follows host left' target f' w' goal) :
    m.Follows host left pc f w goal := by
  intro steps
  cases left with
  | zero =>
    -- no step is left
    refine .inl ⟨.stepLimit m.limits.steps, w, ?_, .inl rfl⟩
    simp only [run, hop]
  | succ left =>
    rcases h steps with ⟨fault, w', hstep, hfault⟩ | ⟨target, steps', f', w', hstep, hrest⟩
    · refine .inl ⟨fault, w', ?_, hfault⟩
      simp only [run, hop, hstep]
    · have hrun : m.run host (left + 1) ⟨pc, steps, f⟩ w = m.run host left ⟨target, steps', f'⟩ w' := by
        simp only [run, hop, hstep]
      rw [hrun]
      rcases hrest left (Nat.lt_succ_self left) steps' with hfault |
        ⟨left', steps'', stack, locals, vars, w'', hle, hgoal⟩
      · exact .inl hfault
      · exact .inr ⟨left', steps'', stack, locals, vars, w'', Nat.le_succ_of_le hle, hgoal⟩

/-- An operation that touches no slot, by what it does to the stack. -/
theorem Follows.act (vars : Variables) (hop : m.code[pc]? = some o) (hslot : o.touchesSlot = false)
    (hret : o ≠ .ret)
    (herror : ∀ fault w', o.act host stack vars w = some (.error fault, w') →
      goal.allowed (.error fault, w'))
    (hok : ∀ l stack' w', o.act host stack vars w = some (.ok ((l, stack'), vars), w') →
      ∃ target, m.next? pc l = some target ∧
        ∀ left' < left, m.Follows host left' target ⟨.ofList stack', locals⟩ w' goal) :
    m.Follows host left pc ⟨.ofList stack, locals⟩ w goal := by
  refine .of_step hop fun steps => ?_
  rcases m.step_accords host hslot hret pc steps stack locals vars w with
    ⟨fault, w', hstep, hfault⟩ | ⟨l, stack', w', hact, hstep⟩
  · exact .inl ⟨fault, w', hstep, hfault.imp_right (herror fault w')⟩
  · obtain ⟨target, htarget, hrest⟩ := hok l stack' w' hact
    exact .inr ⟨target, steps + 1, ⟨.ofList stack', locals⟩, w', hstep target htarget, hrest⟩

/-- An operation that asks nothing of the host and goes on. -/
theorem Follows.goOn {stack' : List Value} {l : Option Label} {target : Nat}
    (hop : m.code[pc]? = some o) (hslot : o.touchesSlot = false) (hret : o ≠ .ret)
    (hact : o.act host stack = pure (l, stack')) (htarget : m.next? pc l = some target)
    (h : ∀ left' < left, m.Follows host left' target ⟨.ofList stack', locals⟩ w goal) :
    m.Follows host left pc ⟨.ofList stack, locals⟩ w goal := by
  refine .act Variables.unset hop hslot hret ?_ ?_
  · intro fault w' hfault
    simp [hact] at hfault
  · intro l' stack'' w' heq
    simp only [hact, Act.pure_apply, Option.some.injEq, Prod.mk.injEq, Except.ok.injEq, and_true] at heq
    obtain ⟨⟨rfl, rfl⟩, rfl⟩ := heq
    exact ⟨target, htarget, h⟩

/-- An operation that faults. -/
theorem Follows.fault {fault : Fault} (hop : m.code[pc]? = some o) (hslot : o.touchesSlot = false)
    (hret : o ≠ .ret) (hact : o.act host stack = throw fault)
    (h : goal.allowed (.error fault, w)) : m.Follows host left pc ⟨.ofList stack, locals⟩ w goal := by
  refine .act Variables.unset hop hslot hret ?_ ?_
  · intro fault' w' hfault
    rw [hact] at hfault
    cases hfault
    exact h
  · intro l' stack'' w' heq
    rw [hact] at heq
    cases heq

/-! ## Slots -/

section

variable {slot : Nat} {ty : Ty} {v : Value}

/-- A slot that was written is read. -/
theorem Follows.load (hop : m.code[pc]? = some (.load slot ty)) (hv : locals[slot]? = some (some v))
    (h : ∀ left' < left, m.Follows host left' (pc + 1) ⟨.ofList (v :: stack), locals⟩ w goal) :
    m.Follows host left pc ⟨.ofList stack, locals⟩ w goal := by
  refine .of_step hop fun steps => ?_
  by_cases hroom : stack.length < m.limits.stack
  · refine .inr ⟨pc + 1, steps + 1, ⟨.ofList (v :: stack), locals⟩, w, ?_, h⟩
    simp [step, Op.effect, Frame.load, hv, Frame.push_of_lt v stack locals hroom, Bind.bind, Except.bind,
      Functor.map, Except.map]
  · refine .inl ⟨.stackOverflow m.limits.stack, w, ?_, .inl rfl⟩
    simp [step, Op.effect, Frame.load, hv, Frame.push_ofList, hroom, Bind.bind, Except.bind,
      Functor.map, Except.map]

theorem Follows.store (hop : m.code[pc]? = some (.store slot ty)) (hty : v.conforms ty = true)
    (hslot : slot < locals.size)
    (h : ∀ left' < left,
      m.Follows host left' (pc + 1) ⟨.ofList stack, locals.setIfInBounds slot (some v)⟩ w goal) :
    m.Follows host left pc ⟨.ofList (v :: stack), locals⟩ w goal := by
  refine .of_step hop fun steps => .inr ⟨pc + 1, steps + 1, _, w, ?_, h⟩
  simp [step, Op.effect, hty, Frame.store, hslot, Bind.bind, Except.bind, Functor.map, Except.map]

theorem Follows.store_mismatch (hop : m.code[pc]? = some (.store slot ty)) (hty : v.conforms ty = false)
    (h : goal.allowed (.error (.typeMismatch "store" ty v.describe), w)) :
    m.Follows host left pc ⟨.ofList (v :: stack), locals⟩ w goal := by
  refine .of_step hop fun steps => .inl ⟨_, w, ?_, .inr h⟩
  simp [step, Op.effect, hty, Bind.bind, Except.bind]

theorem Follows.store_empty (hop : m.code[pc]? = some (.store slot ty))
    (h : goal.allowed (.error .stackUnderflow, w)) :
    m.Follows host left pc ⟨.ofList [], locals⟩ w goal :=
  .of_step hop fun _ => .inl ⟨.stackUnderflow, w, rfl, .inr h⟩

end

/-! ## Places of operations -/

/-- The operations stand at the position. -/
def Placed (m : Machine) (pc : Nat) (ops : List Op) : Prop :=
  ∀ (i : Nat) (o : Op), ops[i]? = some o → m.code[pc + i]? = some o

theorem Placed.first {ops₁ ops₂ : List Op} (h : m.Placed pc (ops₁ ++ ops₂)) : m.Placed pc ops₁ := by
  intro i o ho
  refine h i o ?_
  rwa [List.getElem?_append_left (List.getElem?_eq_some_iff.mp ho).1]

theorem Placed.rest {ops₁ ops₂ : List Op} (h : m.Placed pc (ops₁ ++ ops₂)) :
    m.Placed (pc + ops₁.length) ops₂ := by
  intro i o ho
  rw [Nat.add_assoc]
  refine h (ops₁.length + i) o ?_
  rwa [List.getElem?_append_right (Nat.le_add_right _ _), Nat.add_sub_cancel_left]

theorem Placed.head {ops : List Op} (h : m.Placed pc (o :: ops)) : m.code[pc]? = some o := h 0 o rfl

theorem Placed.tail {ops : List Op} (h : m.Placed pc (o :: ops)) : m.Placed (pc + 1) ops := by
  have happend : m.Placed pc ([o] ++ ops) := h
  exact happend.rest

/-- Every label is found where it stands. -/
def Sound (m : Machine) : Prop :=
  ∀ (i : Nat) (l : Label), m.code[i]? = some (.label l) → m.positions[l]? = some i

end Machine

end FlowGraph
