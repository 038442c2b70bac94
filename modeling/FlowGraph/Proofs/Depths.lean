import Mathlib
import FlowGraph.Proofs.Trees

/-! # Stacks of a known depth

    An operation takes a number of values from the stack and leaves a number
    of others. Code in which these numbers fit together (`Code.Depth`) takes
    stacks of one depth to stacks of another, and never looks below its
    operands: what it does there it does above anything else
    (`Code.framed_eval`). This says less than that the code is well typed,
    since it leaves the types of the values aside.

    Main statement: `Code.run_eq_eval`.
-/

namespace FlowGraph

variable {σ : Type}

theorem Stack.take?_ofList {values : List Value} {n : Nat} (h : n ≤ values.length) :
    (ofList values).take? n = some ((values.take n).reverse, ofList (values.drop n)) := by
  have hrest : (⟨values.drop n, values.length - n, by simp⟩ : Stack) = ofList (values.drop n) := Stack.ext_values rfl
  rw [take?, if_pos (show n ≤ (ofList values).depth from h), ← hrest]
  rfl

namespace Op

/-- How many values an operation takes from the stack. -/
def operands : Op → Nat
  | .pop | .dup | .store _ _ | .instanceOf _ | .checkCast _ | .box _ | .unbox _ | .not | .jumpIf _ | .jumpUnless _ => 1
  | .arith _ | .compare _ => 2
  | .invoke _ argc _ => argc
  | .const _ | .load _ _ | .label _ | .jump _ | .getStatic _ _ _ | .ret => 0

/-- How many values an operation leaves in their place. -/
def results : Op → Nat
  | .const _ | .load _ _ | .instanceOf _ | .checkCast _ | .box _ | .unbox _ | .arith _ | .compare _ | .not
  | .getStatic _ _ _ => 1
  | .dup => 2
  | .invoke _ _ returns => if returns = .void then 0 else 1
  | .pop | .store _ _ | .label _ | .jump _ | .jumpIf _ | .jumpUnless _ | .ret => 0

/-- Where an operation can go on: behind itself, or at the label that it names. -/
def exits (o : Op) : Option Label → Prop
  | none => ∀ l, o ≠ .jump l
  | some l => o.references? = some l

end Op

/-- The effect above other values on the stack. -/
def Effect.above (below : List Value) : Effect → Effect
  | .next f => .next { f with stack := .ofList (f.stack.values ++ below) }
  | .goto l f => .goto l { f with stack := .ofList (f.stack.values ++ below) }
  | .halt f => .halt { f with stack := .ofList (f.stack.values ++ below) }
  | .readStatic owner name ty f => .readStatic owner name ty { f with stack := .ofList (f.stack.values ++ below) }
  | .invoke target args returns f => .invoke target args returns { f with stack := .ofList (f.stack.values ++ below) }

/-- How many values there are on the stack afterwards. -/
def Effect.depth : Effect → Nat
  | .next f | .goto _ f | .halt f => f.stack.values.length
  | .readStatic _ _ _ f => f.stack.values.length + 1
  | .invoke _ _ returns f => f.stack.values.length + if returns = .void then 0 else 1

namespace Op

variable {stack below : List Value}

/-- What an operation does on its operands it does above other values. -/
def Frames (o : Op) (stack below : List Value) : Prop :=
  o.effect ((stack ++ below).length + 1) ⟨.ofList (stack ++ below), #[]⟩ =
      (o.effect (stack.length + 1) ⟨.ofList stack, #[]⟩).map (Effect.above below) ∧
    ∀ effect, o.effect (stack.length + 1) ⟨.ofList stack, #[]⟩ = .ok effect →
      effect.depth = stack.length - o.operands + o.results

theorem frames_of_error {o : Op} {fault : Fault}
    (h : o.effect (stack.length + 1) ⟨.ofList stack, #[]⟩ = .error fault)
    (h' : o.effect ((stack ++ below).length + 1) ⟨.ofList (stack ++ below), #[]⟩ = .error fault) :
    o.Frames stack below := by
  rw [Frames, h, h']
  exact ⟨rfl, fun effect heffect => by cases heffect⟩

theorem frames_of_ok {o : Op} {effect : Effect}
    (h : o.effect (stack.length + 1) ⟨.ofList stack, #[]⟩ = .ok effect)
    (h' : o.effect ((stack ++ below).length + 1) ⟨.ofList (stack ++ below), #[]⟩ = .ok (effect.above below))
    (hdepth : effect.depth = stack.length - o.operands + o.results) : o.Frames stack below := by
  rw [Frames, h, h']
  refine ⟨rfl, ?_⟩
  intro effect' heffect
  cases heffect
  exact hdepth

/-- A value is pushed after the operands were taken. -/
theorem frames_of_push {o : Op} {rest : List Value} {v : Value}
    (h : o.effect (stack.length + 1) ⟨.ofList stack, #[]⟩ =
      Effect.next <$> Frame.push (stack.length + 1) ⟨.ofList rest, #[]⟩ v)
    (h' : o.effect ((stack ++ below).length + 1) ⟨.ofList (stack ++ below), #[]⟩ =
      Effect.next <$> Frame.push ((stack ++ below).length + 1) ⟨.ofList (rest ++ below), #[]⟩ v)
    (hrest : rest.length ≤ stack.length) (hdepth : rest.length + 1 = stack.length - o.operands + o.results) :
    o.Frames stack below := by
  have hroom : (rest ++ below).length < (stack ++ below).length + 1 := by
    rw [List.length_append, List.length_append]
    omega
  rw [Frame.push_of_lt _ _ _ (by omega)] at h
  rw [Frame.push_of_lt _ _ _ hroom] at h'
  exact frames_of_ok h h' hdepth

theorem frames (o : Op) (below : List Value) (hslot : o.touchesSlot = false) (h : o.operands ≤ stack.length) :
    o.Frames stack below := by
  -- an operation sees its operands only, so what lies below changes neither its effect nor its fault
  cases o with
  | load slot ty => cases hslot
  | store slot ty => cases hslot
  | const c => exact frames_of_push rfl rfl (Nat.le_refl _) rfl
  | label l => exact frames_of_ok rfl rfl rfl
  | jump l => exact frames_of_ok rfl rfl rfl
  | getStatic owner name ty => exact frames_of_ok rfl rfl rfl
  | ret => exact frames_of_ok rfl rfl rfl
  | pop =>
    rcases stack with _ | ⟨v, stack⟩
    · cases h
    · exact frames_of_ok rfl rfl rfl
  | dup =>
    rcases stack with _ | ⟨v, stack⟩
    · cases h
    · exact frames_of_push rfl rfl (Nat.le_refl _) rfl
  | instanceOf c =>
    rcases stack with _ | ⟨_ | _ | _ | _, stack⟩
    · cases h
    · exact frames_of_error rfl rfl
    · exact frames_of_error rfl rfl
    · exact frames_of_push rfl rfl (Nat.le_succ _) rfl
    · exact frames_of_push rfl rfl (Nat.le_succ _) rfl
  | checkCast c =>
    rcases stack with _ | ⟨v, stack⟩
    · cases h
    · by_cases hv : v.conforms (.ref c) = true
      · exact frames_of_ok (if_pos hv) (if_pos hv) rfl
      · exact frames_of_error (if_neg hv) (if_neg hv)
  | box c =>
    rcases stack with _ | ⟨v, stack⟩
    · cases h
    · cases c <;> cases v <;> first
        | exact frames_of_error rfl rfl
        | exact frames_of_push rfl rfl (Nat.le_succ _) rfl
  | unbox c =>
    rcases stack with _ | ⟨_ | _ | _ | _ | _ | _, stack⟩
    · cases h
    all_goals cases c <;> first
      | exact frames_of_error rfl rfl
      | exact frames_of_push rfl rfl (Nat.le_succ _) rfl
  | arith f =>
    rcases stack with _ | ⟨y, _ | ⟨x, stack⟩⟩
    · cases h
    · exact absurd h (Nat.not_succ_le_self 1)
    · cases y <;> cases x <;> first
        | exact frames_of_error rfl rfl
        | exact frames_of_push rfl rfl (Nat.le_add_right _ 2) rfl
  | compare f =>
    rcases stack with _ | ⟨y, _ | ⟨x, stack⟩⟩
    · cases h
    · exact absurd h (Nat.not_succ_le_self 1)
    · cases y <;> cases x <;> first
        | exact frames_of_error rfl rfl
        | exact frames_of_push rfl rfl (Nat.le_add_right _ 2) rfl
  | not =>
    rcases stack with _ | ⟨_ | _ | _, stack⟩
    · cases h
    · exact frames_of_error rfl rfl
    · exact frames_of_push rfl rfl (Nat.le_succ _) rfl
    · exact frames_of_error rfl rfl
  | jumpIf l =>
    rcases stack with _ | ⟨_ | (_ | _) | _, stack⟩
    · cases h
    · exact frames_of_error rfl rfl
    · exact frames_of_ok rfl rfl rfl
    · exact frames_of_ok rfl rfl rfl
    · exact frames_of_error rfl rfl
  | jumpUnless l =>
    rcases stack with _ | ⟨_ | (_ | _) | _, stack⟩
    · cases h
    · exact frames_of_error rfl rfl
    · exact frames_of_ok rfl rfl rfl
    · exact frames_of_ok rfl rfl rfl
    · exact frames_of_error rfl rfl
  | invoke target argc returns =>
    have hargc : argc ≤ stack.length := h
    have hroom : argc ≤ (stack ++ below).length := by
      rw [List.length_append]
      omega
    -- the arguments are all in the upper part of the stack
    have heffect {values : List Value} (hle : argc ≤ values.length) :
        (Op.invoke target argc returns).effect (values.length + 1) ⟨.ofList values, #[]⟩ =
          .ok (.invoke target (values.take argc).reverse returns ⟨.ofList (values.drop argc), #[]⟩) := by
      simp only [effect, Stack.take?_ofList hle]
    refine frames_of_ok (heffect hargc) ?_ ?_
    · rw [heffect hroom, List.take_append_of_le_length hargc, List.drop_append_of_le_length hargc]
      rfl
    · simp only [Effect.depth, Stack.values_ofList, List.length_drop]
      rfl

section

variable {o : Op} (host : Host σ)

/-- An operation does the same above other values. -/
theorem act_append (hslot : o.touchesSlot = false) (h : o.operands ≤ stack.length) :
    o.act host (stack ++ below) = (do
      let (l, stack) ← o.act host stack
      return (l, stack ++ below)) := by
  obtain ⟨heffect, -⟩ := o.frames below hslot h
  rw [act, act, heffect]
  rcases o.effect (stack.length + 1) ⟨.ofList stack, #[]⟩ with fault | f | ⟨l, f⟩ | f | ⟨owner, name, ty, f⟩ |
    ⟨target, args, returns, f⟩
  · rfl
  · rfl
  · rfl
  · rfl
  · simp [Except.map, Effect.above]
  · simp [Except.map, Effect.above]

theorem act_depth (hslot : o.touchesSlot = false) (h : o.operands ≤ stack.length) :
    (o.act host stack).ends.Yields fun r => r.2.length = stack.length - o.operands + o.results ∧ o.exits r.1 := by
  obtain ⟨-, hdepth⟩ := o.frames [] hslot h
  have hjump (l : Label) (f : Frame) (hl : o = .jump l) : o.effect (stack.length + 1) ⟨.ofList stack, #[]⟩ ≠ .ok (.next f) := by
    rw [hl]
    simp [effect]
  rw [act]
  rcases heffect : o.effect (stack.length + 1) ⟨.ofList stack, #[]⟩ with fault | f | ⟨l, f⟩ | f | ⟨owner, name, ty, f⟩ |
    ⟨target, args, returns, f⟩
  · intro vars w r vars' w' hr
    cases hr
  · rw [Act.ends_pure]
    exact .pure ⟨hdepth _ heffect, fun l hl => hjump l f hl heffect⟩
  · rw [Act.ends_pure]
    exact .pure ⟨hdepth _ heffect, effect_goto heffect⟩
  · rw [Act.ends_never]
    exact .never
  · rw [Act.ends_bind]
    refine .bind (host.field_yields owner name ty) fun v _ => ?_
    rw [Act.ends_pure]
    refine .pure ⟨hdepth _ heffect, ?_⟩
    rintro l rfl
    cases heffect
  · rw [Act.ends_bind]
    refine .bind (host.call_yields target args returns) fun result hresult => ?_
    rw [Act.ends_pure]
    refine .pure ⟨?_, ?_⟩
    · rw [← hdepth _ heffect]
      -- a result is left unless none is expected
      cases result with
      | none => simp [Effect.depth, hresult]
      | some v =>
        have hne : returns ≠ .void := by
          intro hvoid
          rw [hvoid] at hresult
          rcases v with _ | _ | _ | _ <;> cases hresult
        simp [Effect.depth, hne]
    · rintro l rfl
      cases heffect

end

end Op

/-! ## Stacks of a known depth -/

theorem Ends.anyOf_bind {α β : Type} (list : Nat → Ends σ α) (f : α → Ends σ β) :
    anyOf list >>= f = anyOf fun n => list n >>= f := by
  funext vars w r
  refine propext ⟨?_, ?_⟩
  · rintro (⟨fault, w', ⟨n, hn⟩, rfl⟩ | ⟨a, vars', w', ⟨n, hn⟩, hf⟩)
    · exact ⟨n, bind_error hn⟩
    · exact ⟨n, bind_ok hn hf⟩
  · rintro ⟨n, ⟨fault, w', hn, rfl⟩ | ⟨a, vars', w', hn, hf⟩⟩
    · exact bind_error ⟨n, hn⟩
    · exact bind_ok ⟨n, hn⟩ hf

namespace Act

/-- An act is known by its ends. -/
theorem ext_ends {α : Type} {x y : Act σ α} (h : x.ends = y.ends) : x = y := by
  funext vars w
  refine Option.ext fun r => ?_
  exact Iff.of_eq (congrFun (congrFun (congrFun h vars) w) r)

variable {α β : Type}

/-- What follows matters only for the results that there can be. -/
theorem bind_congr_yields {x : Act σ α} {f g : α → Act σ β} {property : α → Prop} (hx : x.ends.Yields property)
    (h : ∀ a, property a → f a = g a) : x >>= f = x >>= g := by
  funext vars w
  rw [bind_apply, bind_apply]
  rcases hr : x vars w with _ | ⟨fault | ⟨a, vars'⟩, w'⟩
  · rfl
  · rfl
  · simp only [h a (hx _ _ _ _ _ hr)]

/-- Takes stacks of one depth to stacks of another, whatever is below. -/
def Framed (act : List Value → Act σ (List Value)) (before after : Nat) : Prop :=
  ∀ stack, stack.length = before → (act stack).ends.Yields (fun stack => stack.length = after) ∧
    ∀ below, act (stack ++ below) = do return (← act stack) ++ below

namespace Framed

variable {act next : List Value → Act σ (List Value)} {before between after : Nat}

theorem bind (hact : Framed act before between) (hnext : Framed next between after) :
    Framed (fun stack => act stack >>= next) before after := by
  intro stack hstack
  obtain ⟨hyields, hbelow⟩ := hact stack hstack
  constructor
  · rw [ends_bind]
    exact hyields.bind fun stack hstack => (hnext stack hstack).1
  · intro below
    simp only [hbelow below, bind_assoc, pure_bind]
    exact bind_congr_yields hyields fun stack hstack => (hnext stack hstack).2 below

theorem throw (fault : Fault) : Framed (fun _ => (throw fault : Act σ (List Value))) before after := by
  intro stack _
  refine ⟨?_, fun _ => rfl⟩
  intro vars w stack' vars' w' hr
  cases hr

theorem never : Framed (fun _ => (never : Act σ (List Value))) before after := by
  intro stack _
  refine ⟨?_, fun _ => rfl⟩
  intro vars w stack' vars' w' hr
  cases hr

theorem pure : Framed (fun stack => (Pure.pure stack : Act σ (List Value))) before before := by
  intro stack hstack
  refine ⟨?_, fun _ => rfl⟩
  rw [ends_pure]
  exact .pure hstack

theorem limit {acts : Nat → List Value → Act σ (List Value)} (hrising : ∀ stack, Rising fun n => acts n stack)
    (h : ∀ n, Framed (acts n) before after) : Framed (fun stack => limit fun n => acts n stack) before after := by
  intro stack hstack
  constructor
  · rw [(hrising stack).ends_limit]
    rintro vars w stack' vars' w' ⟨n, hn⟩
    exact (h n stack hstack).1 _ _ _ _ _ hn
  · intro below
    refine ext_ends ?_
    rw [ends_bind, (hrising stack).ends_limit, (hrising (stack ++ below)).ends_limit, Ends.anyOf_bind]
    congr
    funext n
    rw [(h n stack hstack).2 below, ends_bind]

theorem iterate {body : List Value → Act σ (List Value)} {depth : Nat} (h : Framed body depth depth) (bound : Double)
    (turns : Nat) (counter : Double) : Framed (Act.iterate body bound turns counter) depth depth := by
  induction turns generalizing counter with
  | zero =>
    intro stack hstack
    simp only [Act.iterate]
    split
    · exact never stack hstack
    · exact pure stack hstack
  | succ turns ih =>
    intro stack hstack
    simp only [Act.iterate]
    split
    · exact h.bind (ih _) stack hstack
    · exact pure stack hstack

theorem countUp {body : List Value → Act σ (List Value)} {depth : Nat} (h : Framed body depth depth)
    (bound counter : Double) : Framed (Act.countUp body bound counter) depth depth :=
  limit (fun stack => rising_iterate body bound counter stack) fun turns => h.iterate bound turns counter

/-- An operation, and what follows it wherever it goes on. -/
theorem andThen (host : Host σ) {o : Op} (next : Option Label → List Value → Act σ (List Value))
    (hslot : o.touchesSlot = false) (h : o.operands ≤ before)
    (hnext : ∀ exit, o.exits exit → Framed (next exit) (before - o.operands + o.results) after) :
    Framed (fun stack => do let r ← o.act host stack; next r.1 r.2) before after := by
  rintro stack rfl
  have hyields := o.act_depth host hslot h
  constructor
  · rw [ends_bind]
    exact hyields.bind fun r hr => (hnext r.1 hr.2 r.2 hr.1).1
  · intro below
    simp only [o.act_append host hslot h, bind_assoc, pure_bind]
    exact bind_congr_yields hyields fun r hr => (hnext r.1 hr.2 r.2 hr.1).2 below

end Framed

end Act

/-! ## Code of a known depth -/

namespace Code

/-- Where the operations go on from a position. -/
def nextAt? (ops : List Op) (pc : Nat) : Option Label → Option Nat
  | none => some (pc + 1)
  | some l => labelAt? ops l

theorem nextAt?_le {ops : List Op} {pc next : Nat} {exit : Option Label} (hpc : pc < ops.length)
    (h : nextAt? ops pc exit = some next) : next ≤ ops.length := by
  cases exit with
  | none =>
    cases h
    exact hpc
  | some l =>
    obtain ⟨hlt, -⟩ := List.getElem?_eq_some_iff.mp (getElem?_of_labelAt? h)
    exact Nat.le_of_lt hlt

/-- Code that takes stacks of one depth to stacks of another, by the number of
    values that each piece takes and leaves. The arms of a branch leave the same
    depth, and so does every way through a raw piece of code. -/
def Depth : Code → Nat → Nat → Prop
  | .op o _, before, after => o.operands ≤ before ∧ after = before - o.operands + o.results
  | .done _, before, after => after = before
  | .andThen first rest, before, after => ∃ between, first.Depth before between ∧ rest.Depth between after
  | .raw _ ops, before, after => ∃ depth : Nat → Nat, depth 0 = before ∧ depth ops.length = after ∧
    ∀ pc o, ops[pc]? = some o → o.operands ≤ depth pc ∧ ∀ exit next, o.exits exit → nextAt? ops pc exit = some next →
      depth next = depth pc - o.operands + o.results
  | .shared _ _, before, after => after = before + 1
  | .getVariable _, before, after => after = before + 1
  | .setVariable _ value, before, after => value.Depth before (after + 1)
  | .loop times body, before, after => times.Depth before (after + 1) ∧ body.Depth after after
  | .branch condition yes no, before, after =>
    ∃ between, condition.Depth before (between + 1) ∧ yes.Depth between after ∧ no.Depth between after

/-- Goes on after an operation. -/
def goOn (host : Host σ) (ops : List Op) (turns pc : Nat) (exit : Option Label) (stack : List Value) : Act σ (List Value) :=
  match nextAt? ops pc exit with
  | some next => actFrom host ops turns next stack
  | none => Act.never

theorem actFrom_of_getElem? (host : Host σ) {ops : List Op} {pc : Nat} {o : Op} (hop : ops[pc]? = some o) (turns : Nat) :
    actFrom host ops (turns + 1) pc = fun stack => (do
      let r ← o.act host stack
      goOn host ops turns pc r.1 r.2) := by
  funext stack
  rw [actFrom, hop]
  dsimp only
  congr
  funext r
  obtain ⟨_ | l, stack⟩ := r
  · rfl
  · unfold goOn nextAt?
    cases labelAt? ops l <;> rfl

theorem framed_actFrom (host : Host σ) {ops : List Op} (hslots : ∀ o ∈ ops, o.touchesSlot = false)
    {depth : Nat → Nat}
    (hdepth : ∀ pc o, ops[pc]? = some o → o.operands ≤ depth pc ∧ ∀ exit next, o.exits exit →
      nextAt? ops pc exit = some next → depth next = depth pc - o.operands + o.results)
    (turns pc : Nat) (hpc : pc ≤ ops.length) :
    Act.Framed (actFrom host ops turns pc) (depth pc) (depth ops.length) := by
  have hend {pc : Nat} (hpc : pc ≤ ops.length) (hle : ops.length ≤ pc) :
      Act.Framed (fun stack => (pure stack : Act σ (List Value))) (depth pc) (depth ops.length) := by
    rw [Nat.le_antisymm hpc hle]
    exact .pure
  induction turns generalizing pc with
  | zero =>
    -- no turns are left: the run has come to the end, or has no end
    intro stack hstack
    simp only [actFrom]
    split
    · exact Act.Framed.never stack hstack
    · next hlt => exact hend hpc (Nat.le_of_not_lt hlt) stack hstack
  | succ turns ih =>
    cases hop : ops[pc]? with
    | none =>
      intro stack hstack
      simp only [actFrom, hop]
      exact hend hpc (List.getElem?_eq_none_iff.mp hop) stack hstack
    | some o =>
      obtain ⟨hoperands, hnext⟩ := hdepth pc o hop
      have hslot := hslots o (List.mem_of_getElem? hop)
      rw [actFrom_of_getElem? host hop]
      refine .andThen host (goOn host ops turns pc) hslot hoperands ?_
      intro exit hexit stack hstack
      unfold goOn
      cases htarget : nextAt? ops pc exit with
      | none => exact Act.Framed.never stack hstack
      | some target =>
        -- wherever it goes on, the stack has the depth that is given for that place
        have hle := nextAt?_le (List.getElem?_eq_some_iff.mp hop).1 htarget
        refine ih target hle stack ?_
        rw [hstack, hnext exit target hexit htarget]

theorem framed_eval (host : Host σ) {c : Code} (hc : c.Fits [] 0) {before after : Nat} (h : c.Depth before after) :
    Act.Framed (c.eval host) before after := by
  induction c generalizing before after with
  | op o ty =>
    obtain ⟨hoperands, rfl⟩ := h
    have hslot : o.touchesSlot = false := by
      cases o <;> first | rfl | cases hc
    -- a single operation has nowhere to jump to
    have heval : (Code.op o ty).eval host = fun stack => (do
        let r ← o.act host stack
        if r.1.isSome then Act.never else return r.2) := by
      funext stack
      rw [eval]
      congr
      funext r
      obtain ⟨_ | l, stack⟩ := r <;> rfl
    rw [heval]
    refine .andThen host (fun exit stack => if exit.isSome then Act.never else return stack) hslot hoperands ?_
    intro exit _
    cases exit with
    | none => exact .pure
    | some l => exact .never
  | done ty =>
    cases h
    exact .pure
  | andThen first rest ihf ihr =>
    obtain ⟨between, hfirst, hrest⟩ := h
    exact (ihf hc.1 hfirst).bind (ihr hc.2 hrest)
  | raw ty ops =>
    obtain ⟨depth, rfl, rfl, hdepth⟩ := h
    exact .limit (rising_actFrom host ops 0) fun turns =>
      -- every number of turns is framed, and so is what they come to
      framed_actFrom host (fun o ho => (hc.slots o ho).1) hdepth turns 0 (Nat.zero_le _)
  | shared id ty => exact .never
  | getVariable name =>
    cases h
    intro stack hstack
    simp only [eval]
    refine ⟨?_, fun below => by simp⟩
    rw [Act.ends_bind]
    refine .bind (.true _) fun v _ => ?_
    rw [Act.ends_pure]
    exact .pure (by simp [hstack])
  | setVariable name value ih =>
    refine (ih hc h).bind ?_
    rintro (_ | ⟨_ | _ | object, stack⟩) hstack
    · cases hstack
    · exact Act.Framed.throw _ [] rfl
    · exact Act.Framed.throw _ [] rfl
    · refine ⟨?_, fun below => by simp⟩
      rw [Act.ends_bind]
      refine .bind (.true _) fun _ _ => ?_
      rw [Act.ends_pure]
      exact .pure (Nat.succ.inj hstack)
  | loop times body iht ihb =>
    refine (iht hc.1 h.1).bind ?_
    rintro (_ | ⟨bound | _ | _, stack⟩) hstack
    · cases hstack
    · exact (ihb hc.2 h.2).countUp bound .zero stack (Nat.succ.inj hstack)
    · exact Act.Framed.throw _ [] rfl
    · exact Act.Framed.throw _ [] rfl
  | branch condition yes no ihc ihy ihn =>
    obtain ⟨between, hcondition, hyes, hno⟩ := h
    refine (ihc hc.1 hcondition).bind ?_
    rintro (_ | ⟨_ | (_ | _) | _, stack⟩) hstack
    · cases hstack
    · exact Act.Framed.throw _ [] rfl
    · exact ihn hc.2.2 hno stack (Nat.succ.inj hstack)
    · exact ihy hc.2.1 hyes stack (Nat.succ.inj hstack)
    · exact Act.Framed.throw _ [] rfl

/-- A conversion takes one value and leaves one, in both of its ways. -/
theorem depth_castOps (c : Category) (default : Const) : (Code.raw c.native (c.castOps default)).Depth 1 1 := by
  refine ⟨fun pc => [1, 2, 2, 1, 0].getD pc 1, rfl, ?_, ?_⟩
  · cases c <;> rfl
  · intro pc o hop
    have hpc := (List.getElem?_eq_some_iff.mp hop).1
    cases c
    all_goals
      simp only [Category.castOps, reduceCtorEq, if_true, if_false, List.cons_append, List.nil_append, List.length_cons, List.length_nil, Nat.zero_add] at hop hpc
      interval_cases pc <;> cases hop
      all_goals
        refine ⟨by simp [Op.operands], ?_⟩
        rintro (_ | l) next hexit hnext
        · first
          | exact absurd rfl (hexit _)
          | (cases hnext; rfl)
        · first
          | cases hexit
            cases hnext
            rfl
          | cases hexit

/-! ## Programs of trees -/

/-- The program of code that shares nothing: unless a limit is reached, it asks
    the host for the same operations in the same order as the tree does, and
    ends with the same fault or the same stack. Code that fits together leaves
    alone what is below its operands. Raw operations in it are closed, so the
    only return is the one behind all code. -/
theorem run_eq_eval {c : Code} (hc : c.Fits [] 0) (host : Host σ) (limits : Limits) (w : σ)
    (hlimit : ∀ fault, ((({} : Draft).finish c).program.run limits host w).1 = .error fault → fault.isLimit = false) :
    (∃ ops r, (({} : Draft).finish c).program.run limits host.recorded (w, []) =
        (((({} : Draft).finish c).program.run limits host w).1, ((({} : Draft).finish c).program.run limits host w).2, ops) ∧
      c.eval host.recorded [] Variables.unset (w, []) =
        some (r, ((({} : Draft).finish c).program.run limits host w).2, ops) ∧
      r.map (fun e => e.1.reverse) = ((({} : Draft).finish c).program.run limits host w).1.map Outcome.stack) ∧
    ∀ before after, c.Depth before after → Act.Framed (c.eval host) before after := by
  obtain ⟨ops, hrecorded⟩ := (({} : Draft).finish c).program.run_recorded limits host w
  obtain ⟨r, heval, hstack⟩ := hc.exists_eval host.recorded limits (w, []) (by rw [hrecorded]; exact hlimit)
  rw [hrecorded] at heval hstack
  exact ⟨⟨ops, r, hrecorded, heval, hstack⟩, fun before after => framed_eval host hc⟩

/-- Keeps a name, waits if the host is ready, and shows the name. -/
def greeting : Code :=
  .block .void [.setVariable "name" (.op (.invoke "name" 0 (.ref .text)) (.ref .text)),
    .branch (.op (.invoke "ready" 0 .boolean) .boolean)
      (.loop (.const (.number .one)) (.op (.invoke "wait" 0 .void) .void)) .empty,
    .getVariable "name", .raw (.ref .text) (Category.text.castOps (.text "")), .op (.invoke "show" 1 .void) .void]

theorem run_eq_eval_greeting : greeting.Fits [] 0 ∧ greeting.Depth 0 0 ∧
    (∃ ops r, (({} : Draft).finish greeting).program.run {} Script.host.recorded (.empty, []) =
        (((({} : Draft).finish greeting).program.run {} Script.host .empty).1,
          ((({} : Draft).finish greeting).program.run {} Script.host .empty).2, ops) ∧
      greeting.eval Script.host.recorded [] Variables.unset (.empty, []) =
        some (r, ((({} : Draft).finish greeting).program.run {} Script.host .empty).2, ops) ∧
      r.map (fun e => e.1.reverse) = ((({} : Draft).finish greeting).program.run {} Script.host .empty).1.map Outcome.stack) ∧
    Act.Framed (greeting.eval Script.host) 0 0 := by
  have hfits : greeting.Fits [] 0 := by
    simp [greeting, block, Fits, Code.const, Code.empty, Op.isPlain, Op.closed_castOps]
  have hdepth : greeting.Depth 0 0 := by
    refine ⟨0, ⟨Nat.le_refl 0, rfl⟩, 0, ?_, 1, rfl, 1, depth_castOps .text _, 0, ⟨Nat.le_refl 1, rfl⟩, rfl⟩
    exact ⟨0, ⟨Nat.le_refl 0, rfl⟩, ⟨⟨Nat.le_refl 0, rfl⟩, ⟨Nat.le_refl 0, rfl⟩⟩, rfl⟩
  have hrun : ((({} : Draft).finish greeting).program.run {} Script.host .empty).1 = .ok ⟨[], 18⟩ := by cbv
  obtain ⟨hend, hframed⟩ := run_eq_eval hfits Script.host {} .empty (by
    intro fault hfault
    rw [hrun] at hfault
    cases hfault)
  exact ⟨hfits, hdepth, hend, hframed 0 0 hdepth⟩

end Code

end FlowGraph
