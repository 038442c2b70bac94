import FlowGraph.Proofs.Flow
import FlowGraph.Proofs.Splicing

/-! # Two machines side by side

    One machine keeps in a slot what it has read from a variable, another one
    reads the variable anew each time. They are run side by side.

    * The slot is out of date (`Program.Stale`) behind a store to the
      variable, until it is stored to again. Whether a run ever loads it then
      can be computed (`Program.keepsUp_iff`).
    * States of the two machines go together (`Rereads.Paired`) if they have
      the same stack, slots that belong together hold the same, and the slot
      holds what the variable holds or is out of date.

    Main statement: from states that go together the first machine reaches a
    limit or both end in the same way, unless what is out of date is loaded
    (`Rereads.goes`). The prologues lead to such states (`Agrees.initials`,
    `Agrees.initials_reader`).
-/

namespace FlowGraph

variable {σ : Type}

/-! ## Operations that touch no slot -/

namespace Op

/-- An operation that touches no slot does the same with other locals. -/
theorem effect_withLocals {o : Op} (h : o.touchesSlot = false) (limit : Nat) (stack : Stack)
    (locals locals' : Array (Option Value)) :
    o.effect limit ⟨stack, locals'⟩ = (o.effect limit ⟨stack, locals⟩).map (Effect.withLocals locals') := by
  have hpush (stack : Stack) (v : Value) : (Effect.next <$> Frame.push limit ⟨stack, locals'⟩ v) =
      (Effect.next <$> Frame.push limit ⟨stack, locals⟩ v).map (Effect.withLocals locals') := by
    unfold Frame.push
    split <;> rfl
  obtain ⟨values, depth, rfl⟩ := stack
  -- locals are passed through, and only a push looks at the frame once more
  cases o with
  | load slot ty => cases h
  | store slot ty => cases h
  | const c => exact hpush _ _
  | pop => cases values <;> rfl
  | dup =>
    cases values with
    | nil => rfl
    | cons v values => exact hpush _ _
  | instanceOf c =>
    rcases values with _ | ⟨_ | _ | _ | _, values⟩ <;> first
      | rfl
      | exact hpush _ _
  | checkCast c =>
    cases values with
    | nil => rfl
    | cons v values =>
      simp only [effect, Frame.top, Bind.bind, Except.bind]
      split <;> rfl
  | box c =>
    rcases values with _ | ⟨v, values⟩
    · cases c <;> rfl
    · cases c <;> cases v <;> first
        | rfl
        | exact hpush _ _
  | unbox c =>
    rcases values with _ | ⟨_ | _ | _ | _ | _ | _, values⟩ <;> cases c <;> first
      | rfl
      | exact hpush _ _
  | arith f =>
    rcases values with _ | ⟨y | _ | _, _ | ⟨x | _ | _, values⟩⟩ <;> first
      | rfl
      | exact hpush _ _
  | compare f =>
    rcases values with _ | ⟨y | _ | _, _ | ⟨x | _ | _, values⟩⟩ <;> first
      | rfl
      | exact hpush _ _
  | not =>
    rcases values with _ | ⟨_ | _ | _, values⟩ <;> first
      | rfl
      | exact hpush _ _
  | jumpIf l => rcases values with _ | ⟨_ | (_ | _) | _, values⟩ <;> rfl
  | jumpUnless l => rcases values with _ | ⟨_ | (_ | _) | _, values⟩ <;> rfl
  | invoke target argc returns =>
    simp only [effect]
    cases Stack.take? ⟨values, values.length, rfl⟩ argc <;> rfl
  | _ => rfl

end Op

theorem Stack.eq_empty_or_push (s : Stack) : s = .empty ∨ ∃ (rest : Stack) (v : Value), s = rest.push v := by
  obtain ⟨_ | ⟨v, rest⟩, depth, rfl⟩ := s
  · exact .inl rfl
  · exact .inr ⟨.ofList rest, v, rfl⟩

namespace Machine

variable {m m' : Machine} {host : Host σ}

/-- The machine runs these operations, and finds every label that they jump
    to. -/
structure Runs (m : Machine) (ops : List Op) : Prop where
  code : ∀ i : Nat, m.code[i]? = ops[i]?
  position : ∀ (i : Nat) (l : Label), ops[i]? = some (.label l) → m.positions[l]? = some i
  defined : ∀ o ∈ ops, ∀ l, o.references? = some l → ∃ i : Nat, ops[i]? = some (.label l)

/-- A loaded program with labels of its own. -/
theorem exists_runs {p : Program} {low high : Nat} (h : Labelled low high p.ops) {limits : Limits}
    (hlocals : p.locals ≤ limits.locals) :
    ∃ m, load limits p = .ok m ∧ m.limits = limits ∧ m.program = p ∧ m.Runs p.ops := by
  obtain ⟨m, hload, hlimits, hprogram, hcode, hposition⟩ := Program.exists_load h hlocals
  refine ⟨m, hload, hlimits, hprogram, fun i => by simp [hcode], hposition, fun o ho l hl => ?_⟩
  obtain ⟨o', ho', hdefines⟩ := List.mem_filterMap.mp (h.defined l (List.mem_filterMap.mpr ⟨o, ho, hl⟩))
  obtain ⟨i, hi⟩ := List.getElem?_of_mem ho'
  cases o' with
  | label l' =>
    cases hdefines
    exact ⟨i, hi⟩
  | _ => cases hdefines

/-- What a step comes to in two machines with locals of their own: the same
    fault, the same end, or the same stack at positions that go together. -/
def SameStep (locals locals' : Array (Option Value)) (next : Nat → Nat → Prop) :
    Except Fault Progress × σ → Except Fault Progress × σ → Prop
  | (.error fault, w), r' => r' = (.error fault, w)
  | (.ok (.halted s), w), r' => ∃ s', s'.frame.stack = s.frame.stack ∧ r' = (.ok (.halted s'), w)
  | (.ok (.running s), w), r' => s.frame.locals = locals ∧
    ∃ s', next s.pc s'.pc ∧ s'.frame = ⟨s.frame.stack, locals'⟩ ∧ r' = (.ok (.running s'), w)

theorem sameStep_push {limit pc pc' steps steps' : Nat} {next : Nat → Nat → Prop} (hnext : next pc pc') (stack : Stack)
    (locals locals' : Array (Option Value)) (v : Value) (w : σ) :
    SameStep locals locals' next
      ((fun f => Progress.running ⟨pc, steps, f⟩) <$> Frame.push limit ⟨stack, locals⟩ v, w)
      ((fun f => Progress.running ⟨pc', steps', f⟩) <$> Frame.push limit ⟨stack, locals'⟩ v, w) := by
  unfold Frame.push
  split
  · exact ⟨rfl, _, hnext, rfl, rfl⟩
  · rfl

/-- An operation that touches no slot does the same in two machines. They go
    on behind it, or at the same label. -/
theorem step_alike (hlimit : m'.limits.stack = m.limits.stack) {o : Op} (ho : o.touchesSlot = false) {s s' : State}
    (hstack : s'.frame.stack = s.frame.stack) {next : Nat → Nat → Prop} (hnext : next (s.pc + 1) (s'.pc + 1))
    (hgoto : ∀ l, o.references? = some l → ∃ i i', m.positions[l]? = some i ∧ m'.positions[l]? = some i' ∧ next i i')
    (w : σ) : SameStep s.frame.locals s'.frame.locals next (m.step host o s w) (m'.step host o s' w) := by
  obtain ⟨pc, steps, stack, locals⟩ := s
  obtain ⟨pc', steps', stack', locals'⟩ := s'
  obtain rfl : stack' = stack := hstack
  -- the operation leaves the locals as they are
  have hsame := Op.effect_withLocals ho m.limits.stack stack' locals locals
  simp only [step, hlimit, Op.effect_withLocals ho m.limits.stack stack' locals locals']
  cases heffect : o.effect m.limits.stack ⟨stack', locals⟩ with
  | error fault => rfl
  | ok effect =>
    rw [heffect] at hsame
    have hkeep : effect = effect.withLocals locals := Except.ok.inj hsame
    cases effect with
    | next f => exact ⟨congrArg Frame.locals (Effect.next.inj hkeep), _, hnext, rfl, rfl⟩
    | goto l f =>
      obtain ⟨i, i', hi, hi', hat⟩ := hgoto l (Op.effect_goto heffect)
      simp only [Except.map, Effect.withLocals, hi, hi']
      exact ⟨congrArg Frame.locals (Effect.goto.inj hkeep).2, _, hat, rfl, rfl⟩
    | halt f => exact ⟨⟨pc', steps' + 1, { f with locals := locals' }⟩, rfl, rfl⟩
    | readStatic owner name ty f =>
      obtain ⟨stack₁, locals₁⟩ := f
      obtain rfl : locals₁ = locals := by simpa [Effect.withLocals] using hkeep
      simp only [Except.map, Effect.withLocals]
      rcases host.readStatic owner name w with ⟨fault | v, w₁⟩
      · rfl
      · dsimp only
        split
        · exact sameStep_push hnext _ _ _ _ _
        · rfl
    | invoke target args returns f =>
      obtain ⟨stack₁, locals₁⟩ := f
      obtain rfl : locals₁ = locals := by simpa [Effect.withLocals] using hkeep
      simp only [Except.map, Effect.withLocals]
      rcases host.invoke target args returns w with ⟨fault | _ | v, w₁⟩
      · rfl
      · dsimp only
        split
        · exact ⟨rfl, _, hnext, rfl, rfl⟩
        · rfl
      · dsimp only
        split
        · exact sameStep_push hnext _ _ _ _ _
        · rfl

/-! ## Operations on slots -/

section

variable {slot pc steps : Nat} {ty : Ty} {v : Value} {stack : Stack} {locals : Array (Option Value)} {w : σ}

theorem step_load (hget : locals[slot]? = some (some v)) (hroom : stack.depth < m.limits.stack) :
    m.step host (.load slot ty) ⟨pc, steps, ⟨stack, locals⟩⟩ w =
      (.ok (.running ⟨pc + 1, steps + 1, ⟨stack.push v, locals⟩⟩), w) := by
  simp [step, Op.effect, Frame.load, hget, Frame.push, hroom, Bind.bind, Except.bind]

theorem step_load_full (hget : locals[slot]? = some (some v)) (hroom : ¬stack.depth < m.limits.stack) :
    m.step host (.load slot ty) ⟨pc, steps, ⟨stack, locals⟩⟩ w = (.error (.stackOverflow m.limits.stack), w) := by
  simp [step, Op.effect, Frame.load, hget, Frame.push, hroom, Bind.bind, Except.bind]

theorem step_const {c : Const} (hroom : stack.depth < m.limits.stack) :
    m.step host (.const c) ⟨pc, steps, ⟨stack, locals⟩⟩ w =
      (.ok (.running ⟨pc + 1, steps + 1, ⟨stack.push (Value.ofConst c), locals⟩⟩), w) := by
  simp [step, Op.effect, Frame.push, hroom]

theorem step_const_full {c : Const} (hroom : ¬stack.depth < m.limits.stack) :
    m.step host (.const c) ⟨pc, steps, ⟨stack, locals⟩⟩ w = (.error (.stackOverflow m.limits.stack), w) := by
  simp [step, Op.effect, Frame.push, hroom]

theorem step_dup (hroom : (stack.push v).depth < m.limits.stack) :
    m.step host .dup ⟨pc, steps, ⟨stack.push v, locals⟩⟩ w =
      (.ok (.running ⟨pc + 1, steps + 1, ⟨(stack.push v).push v, locals⟩⟩), w) := by
  simp [step, Op.effect, Frame.top, Frame.push, hroom, Bind.bind, Except.bind]

theorem step_dup_full (hroom : ¬(stack.push v).depth < m.limits.stack) :
    m.step host .dup ⟨pc, steps, ⟨stack.push v, locals⟩⟩ w = (.error (.stackOverflow m.limits.stack), w) := by
  simp [step, Op.effect, Frame.top, Frame.push, hroom, Bind.bind, Except.bind]

/-- A load that faults, whichever way. -/
theorem step_load_fault {fault : Fault} {f : Frame} (hload : f.load slot = .error fault) :
    m.step host (.load slot ty) ⟨pc, steps, f⟩ w = (.error fault, w) := by
  simp [step, Op.effect, hload, Bind.bind, Except.bind]

theorem pop_push : Frame.pop ⟨stack.push v, locals⟩ = .ok (v, ⟨stack, locals⟩) := rfl

theorem step_store_underflow : m.step host (.store slot ty) ⟨pc, steps, ⟨.empty, locals⟩⟩ w = (.error .stackUnderflow, w) :=
  rfl

theorem step_store_mismatch (hty : v.conforms ty = false) :
    m.step host (.store slot ty) ⟨pc, steps, ⟨stack.push v, locals⟩⟩ w =
      (.error (.typeMismatch "store" ty v.describe), w) := by
  simp [step, Op.effect, pop_push, hty, Bind.bind, Except.bind]

theorem step_store_outside (hty : v.conforms ty = true) (hslot : ¬slot < locals.size) :
    m.step host (.store slot ty) ⟨pc, steps, ⟨stack.push v, locals⟩⟩ w = (.error (.slotOutOfRange slot), w) := by
  simp [step, Op.effect, pop_push, hty, Frame.store, hslot, Bind.bind, Except.bind]

theorem step_store (hty : v.conforms ty = true) (hslot : slot < locals.size) :
    m.step host (.store slot ty) ⟨pc, steps, ⟨stack.push v, locals⟩⟩ w =
      (.ok (.running ⟨pc + 1, steps + 1, ⟨stack, locals.setIfInBounds slot (some v)⟩⟩), w) := by
  simp [step, Op.effect, pop_push, hty, Frame.store, hslot, Bind.bind, Except.bind]

end

/-! ## States of a run -/

/-- The states in which a run executes an operation, in order. -/
def visited (m : Machine) (host : Host σ) : Nat → State → σ → List State
  | 0, _, _ => []
  | left + 1, s, w =>
    match m.code[s.pc]? with
    | none => []
    | some op =>
      s :: match m.step host op s w with
        | (.ok (.running s), w) => m.visited host left s w
        | _ => []

variable {o : Op} {s s₁ : State} {w w₁ : σ}

theorem map_pc_visited (m : Machine) (host : Host σ) (left : Nat) (s : State) (w : σ) :
    (m.visited host left s w).map State.pc = m.executed host left s w := by
  induction left generalizing s w with
  | zero => rfl
  | succ left ih =>
    rw [visited, executed]
    cases m.code[s.pc]? with
    | none => rfl
    | some op =>
      rcases hstep : m.step host op s w with ⟨fault | ⟨s₁⟩ | ⟨s₁⟩, w₁⟩
      · simp [hstep]
      · simp [hstep, ih]
      · simp [hstep]

theorem run_running (hop : m.code[s.pc]? = some o) (hstep : m.step host o s w = (.ok (.running s₁), w₁)) (left : Nat) :
    m.run host (left + 1) s w = m.run host left s₁ w₁ := by
  rw [run]
  simp only [hop, hstep]

theorem visited_running (hop : m.code[s.pc]? = some o) (hstep : m.step host o s w = (.ok (.running s₁), w₁))
    (left : Nat) : m.visited host (left + 1) s w = s :: m.visited host left s₁ w₁ := by
  rw [visited]
  simp only [hop, hstep]

theorem exists_executed_cons (m : Machine) (host : Host σ) (hop : m.code[s.pc]? = some o) (left : Nat) (w : σ) :
    ∃ behind, m.executed host (left + 1) s w = s.pc :: behind := by
  rw [executed]
  simp only [hop]
  exact ⟨_, rfl⟩

theorem run_end (hop : m.code[s.pc]? = none) (left : Nat) : m.run host left s w = (.ok s.outcome, w) := by
  cases left <;> simp only [run, hop]

theorem visited_end (hop : m.code[s.pc]? = none) (left : Nat) : m.visited host left s w = [] := by
  cases left <;> simp only [visited, hop]

theorem visited_last (hop : m.code[s.pc]? = some o) (hstep : ∀ s₁, (m.step host o s w).1 ≠ .ok (.running s₁))
    (left : Nat) : m.visited host (left + 1) s w = [s] := by
  rw [visited]
  simp only [hop]
  rcases h : m.step host o s w with ⟨fault | ⟨s₁⟩ | ⟨s₁⟩, w₁⟩
  · rfl
  · exact absurd (congrArg Prod.fst h) (hstep s₁)
  · rfl

end Machine

/-- The positions that a run of the program goes through, with what the
    machine holds there. -/
def Program.visited (p : Program) (limits : Limits) (host : Host σ) (w : σ) : List Machine.State :=
  match Machine.load limits p with
  | .error _ => []
  | .ok m => m.visited host limits.steps m.start w

/-! ## Ends of runs -/

/-- The fault, whichever slot it is about. -/
def Fault.unslotted : Fault → Fault
  | .slotOutOfRange _ => .slotOutOfRange 0
  | .uninitializedLocal _ => .uninitializedLocal 0
  | fault => fault

/-- Runs that leave the same: the world of the host, and a stack or a fault.
    The number of steps may differ, and the number of a slot. -/
def SameEnd (r r' : Except Fault Outcome × σ) : Prop :=
  r'.2 = r.2 ∧ match r.1, r'.1 with
    | .ok outcome, .ok outcome' => outcome'.stack = outcome.stack
    | .error fault, .error fault' => fault'.unslotted = fault.unslotted
    | _, _ => False

theorem SameEnd.refl (r : Except Fault Outcome × σ) : SameEnd r r := by
  obtain ⟨fault | outcome, w⟩ := r
  · exact ⟨rfl, rfl⟩
  · exact ⟨rfl, rfl⟩

/-! ## What is out of date -/

namespace Program

/-- Behind these positions the slot `kept` may be out of date: the slot `read`
    was stored to, and since then the slot `kept` was not. What is stored
    ahead of `start` does not count. -/
def Stale (p : Program) (start read kept : Nat) (past : List Nat) : Prop :=
  ∃ before write between, past = before ++ write :: between ∧ start ≤ write ∧
    (∃ ty, p.ops[write]? = some (.store read ty)) ∧ ∀ pc ∈ between, ∀ ty, p.ops[pc]? ≠ some (.store kept ty)

/-- The slot `kept` is never loaded while it is out of date. -/
def KeepsUp (p : Program) (start read kept : Nat) (trace : List Nat) : Prop :=
  ∀ past pc rest, trace = past ++ pc :: rest → ∀ ty, p.ops[pc]? = some (.load kept ty) →
    ¬p.Stale start read kept past

variable {p : Program} {start read kept pc : Nat} {past trace : List Nat}

/-- What a position adds to what is out of date. -/
theorem stale_snoc_iff : p.Stale start read kept (past ++ [pc]) ↔
    start ≤ pc ∧ (∃ ty, p.ops[pc]? = some (.store read ty)) ∨
      p.Stale start read kept past ∧ ∀ ty, p.ops[pc]? ≠ some (.store kept ty) := by
  constructor
  · rintro ⟨before, write, between, heq, hstart, hwrite, hbetween⟩
    rcases List.eq_nil_or_concat' between with rfl | ⟨between, last, rfl⟩
    · obtain ⟨-, hlast⟩ := List.append_inj' heq rfl
      cases hlast
      exact .inl ⟨hstart, hwrite⟩
    · rw [← List.cons_append, ← List.append_assoc] at heq
      obtain ⟨rfl, hlast⟩ := List.append_inj' heq rfl
      cases hlast
      rw [List.forall_mem_append] at hbetween
      exact .inr ⟨⟨before, write, between, rfl, hstart, hwrite, hbetween.1⟩, hbetween.2 _ List.mem_cons_self⟩
  · rintro (⟨hstart, hwrite⟩ | ⟨⟨before, write, between, rfl, hstart, hwrite, hbetween⟩, hpc⟩)
    · exact ⟨past, pc, [], rfl, hstart, hwrite, by simp⟩
    · refine ⟨before, write, between ++ [pc], by simp, hstart, hwrite, ?_⟩
      rw [List.forall_mem_append]
      exact ⟨hbetween, by simpa using hpc⟩

theorem not_stale_nil : ¬p.Stale start read kept [] := by
  rintro ⟨before, write, between, heq, -⟩
  simp at heq

/-- The operation at the position stores to the slot. -/
def storesAt (p : Program) (slot pc : Nat) : Bool := p.ops[pc]?.any (Op.stores slot)

/-- The operation at the position loads the slot. -/
def loadsAt (p : Program) (slot pc : Nat) : Bool :=
  match p.ops[pc]? with
  | some (.load s _) => s == slot
  | _ => false

theorem storesAt_iff {slot : Nat} : p.storesAt slot pc = true ↔ ∃ ty, p.ops[pc]? = some (.store slot ty) := by
  unfold storesAt
  rcases p.ops[pc]? with _ | o
  · simp
  · cases o <;> simp [Op.stores]

theorem loadsAt_iff {slot : Nat} : p.loadsAt slot pc = true ↔ ∃ ty, p.ops[pc]? = some (.load slot ty) := by
  unfold loadsAt
  rcases p.ops[pc]? with _ | o
  · simp
  · cases o <;> simp

/-- Goes through the positions and tells whether the slot `kept` is only
    loaded up to date; `stale` says whether it is out of date so far. -/
def keepsUpFrom (p : Program) (start read kept : Nat) (stale : Bool) : List Nat → Bool
  | [] => true
  | pc :: rest => !(stale && p.loadsAt kept pc) &&
      p.keepsUpFrom start read kept (decide (start ≤ pc) && p.storesAt read pc || stale && !p.storesAt kept pc) rest

theorem keepsUpFrom_iff {stale : Bool} (hstale : stale = true ↔ p.Stale start read kept past) :
    p.keepsUpFrom start read kept stale trace = true ↔ ∀ past' pc rest, trace = past' ++ pc :: rest →
      ∀ ty, p.ops[pc]? = some (.load kept ty) → ¬p.Stale start read kept (past ++ past') := by
  induction trace generalizing stale past with
  | nil => simp [keepsUpFrom]
  | cons pc rest ih =>
    -- the flag that is passed on says whether the slot is out of date behind this position
    have hnext : (decide (start ≤ pc) && p.storesAt read pc || stale && !p.storesAt kept pc) = true ↔
        p.Stale start read kept (past ++ [pc]) := by
      rw [stale_snoc_iff, ← hstale, ← storesAt_iff]
      have hkept : (!p.storesAt kept pc) = true ↔ ∀ ty, p.ops[pc]? ≠ some (.store kept ty) := by
        rw [Bool.not_eq_true', ← Bool.not_eq_true, storesAt_iff, not_exists]
      rw [← hkept]
      simp
    have hhere : (!(stale && p.loadsAt kept pc)) = true ↔
        ∀ ty, p.ops[pc]? = some (.load kept ty) → ¬p.Stale start read kept past := by
      rw [Bool.not_eq_true', ← Bool.not_eq_true, Bool.and_eq_true, hstale, loadsAt_iff]
      grind
    -- a load is at this position, or at one of the rest
    rw [keepsUpFrom, Bool.and_eq_true, hhere, ih hnext]
    constructor
    · rintro ⟨hfirst, hrest⟩ past' pc' rest' heq
      rcases List.cons_eq_append_iff.mp heq with ⟨rfl, hcons⟩ | ⟨past', rfl, hcons⟩
      · cases hcons
        rw [List.append_nil]
        exact hfirst
      · simpa using hrest past' pc' rest' hcons
    · intro hall
      constructor
      · simpa using hall [] pc rest rfl
      · intro past' pc' rest' heq
        simpa using hall (pc :: past') pc' rest' (by rw [heq, List.cons_append])

theorem keepsUp_iff : p.KeepsUp start read kept trace ↔ p.keepsUpFrom start read kept false trace = true :=
  (keepsUpFrom_iff (iff_of_false Bool.false_ne_true not_stale_nil)).symm

end Program

/-! ## First values -/

/-- The locals before and after the slots of the list are given their first
    values. -/
structure Initial.Fills (list : List Initial) (locals locals' : Array (Option Value)) : Prop where
  size : locals'.size = locals.size
  values : ∀ i ∈ list, locals'[i.slot]? = some (some (Value.ofConst i.value))
  others : ∀ slot, slot ∉ list.map Initial.slot → locals'[slot]? = locals[slot]?

namespace Initial.Fills

theorem nil (locals : Array (Option Value)) : Fills [] locals locals := ⟨rfl, by simp, by simp⟩

theorem cons {i : Initial} {rest : List Initial} {locals locals' : Array (Option Value)}
    (h : Fills rest (locals.setIfInBounds i.slot (some (Value.ofConst i.value))) locals')
    (hnew : i.slot ∉ rest.map Initial.slot) (hslot : i.slot < locals.size) : Fills (i :: rest) locals locals' where
  size := by rw [h.size, Array.size_setIfInBounds]
  values j hj := by
    rcases List.mem_cons.mp hj with rfl | hj
    · rw [h.others _ hnew, Array.getElem?_setIfInBounds_self_of_lt hslot]
    · exact h.values j hj
  others slot hother := by
    obtain ⟨hne, hother⟩ := not_or.mp (mt List.mem_cons.mpr hother)
    rw [h.others slot hother, Array.getElem?_setIfInBounds_ne (Ne.symm hne)]

end Initial.Fills

/-! ## Runs side by side -/

/-- A program that keeps what it read, loaded in a machine, and one that reads
    anew, loaded in another. -/
structure Rereads where
  twin : Nat → Nat → Prop
  /-- The slot of the variable. -/
  read : Nat
  /-- The slot of what was read. -/
  kept : Nat
  /-- Where the code starts in the first program. -/
  start : Nat
  first : Program
  second : Program
  keeper : Machine
  reader : Machine
  keeper_runs : keeper.Runs first.ops
  reader_runs : reader.Runs second.ops
  limit : reader.limits.stack = keeper.limits.stack
  pairs : ∀ {a b a' b'}, twin a b → twin a' b' → (a = a' ↔ b = b')
  apart : ∀ {a b}, twin a b → a ≠ kept
  differ : read ≠ kept
  code : List Op
  splices : Splices twin read kept (first.ops.drop start) code
  code_suffix : code <:+ second.ops
  labels : ∀ i l, first.ops[i]? = some (.label l) → start ≤ i

namespace Rereads

variable (R : Rereads)

/-- The two machines in the middle of their runs, the first one behind these
    positions. -/
structure Paired (past : List Nat) (s s' : Machine.State) : Prop where
  splices : Splices R.twin R.read R.kept (R.first.ops.drop s.pc) (R.second.ops.drop s'.pc)
  started : R.start ≤ s.pc
  stack : s'.frame.stack = s.frame.stack
  locals : ∀ {a b}, R.twin a b → s'.frame.locals[b]? = s.frame.locals[a]?
  readable : ∃ v, s.frame.locals[R.read]? = some (some v) ∧ v.conforms (.ref .object) = true
  keepable : R.kept < s.frame.locals.size
  current : s.frame.locals[R.kept]? = s.frame.locals[R.read]? ∨ R.first.Stale R.start R.read R.kept past

/-- In this state, what is kept is loaded only if it is up to date. -/
def Fresh (s : Machine.State) : Prop :=
  ∀ ty, R.first.ops[s.pc]? = some (.load R.kept ty) → s.frame.locals[R.kept]? = s.frame.locals[R.read]?

/-- From here on the first machine loads only what is up to date. It reaches a
    limit, or both machines end the same way. -/
structure Agrees (host : Host σ) (left : Nat) (s : Machine.State) (w : σ) (left' : Nat) (s' : Machine.State) (w' : σ) :
    Prop where
  fresh : ∀ t ∈ R.keeper.visited host left s w, R.Fresh t
  ends : Limited (R.keeper.run host left s w) ∨ SameEnd (R.keeper.run host left s w) (R.reader.run host left' s' w')

section

variable {R} {host : Host σ} {left left' : Nat} {s s₁ s' s₁' : Machine.State} {w w₁ w' w₁' : σ} {o o' : Op}

theorem fresh_of_ne (hop : R.first.ops[s.pc]? = some o) (ho : ∀ ty, o ≠ .load R.kept ty) : R.Fresh s := by
  intro ty hload
  rw [hop] at hload
  exact absurd (Option.some.inj hload) (ho ty)

namespace Agrees

/-- A step of the first machine. -/
theorem forward (hfresh : R.Fresh s) (hop : R.first.ops[s.pc]? = some o)
    (hstep : R.keeper.step host o s w = (.ok (.running s₁), w₁)) (h : R.Agrees host left s₁ w₁ left' s' w') :
    R.Agrees host (left + 1) s w left' s' w' := by
  rw [← R.keeper_runs.code] at hop
  constructor
  · rw [Machine.visited_running hop hstep]
    exact List.forall_mem_cons.mpr ⟨hfresh, h.fresh⟩
  · rw [Machine.run_running hop hstep]
    exact h.ends

/-- A step of the second machine. -/
theorem forward_reader (hop : R.second.ops[s'.pc]? = some o)
    (hstep : R.reader.step host o s' w' = (.ok (.running s₁'), w₁')) (h : R.Agrees host left s w left' s₁' w₁') :
    R.Agrees host left s w (left' + 1) s' w' := by
  refine ⟨h.fresh, ?_⟩
  rw [Machine.run_running (R.reader_runs.code _ ▸ hop) hstep]
  exact h.ends

theorem stepLimit (hop : R.first.ops[s.pc]? = some o) : R.Agrees host 0 s w left' s' w' := by
  refine ⟨by simp [Machine.visited], .inl ⟨.stepLimit R.keeper.limits.steps, ?_, rfl⟩⟩
  rw [Machine.run]
  simp only [R.keeper_runs.code, hop]

/-- A fault that ends the run of the first machine. -/
theorem fault {fault : Fault} (hfresh : R.Fresh s) (hop : R.first.ops[s.pc]? = some o)
    (hstep : R.keeper.step host o s w = (.error fault, w₁))
    (h : fault.isLimit = true ∨ SameEnd (.error fault, w₁) (R.reader.run host left' s' w')) :
    R.Agrees host (left + 1) s w left' s' w' := by
  rw [← R.keeper_runs.code] at hop
  have hrun : R.keeper.run host (left + 1) s w = (.error fault, w₁) := by
    rw [Machine.run]
    simp only [hop, hstep]
  constructor
  · rw [Machine.visited_last hop (by simp [hstep])]
    exact List.forall_mem_singleton.mpr hfresh
  · rw [hrun]
    exact h.imp_left fun hlimit => ⟨fault, rfl, hlimit⟩

/-- Faults that are the same but for a slot. -/
theorem fault_both {fault fault' : Fault} (hfresh : R.Fresh s) (hop : R.first.ops[s.pc]? = some o)
    (hstep : R.keeper.step host o s w = (.error fault, w₁)) (hop' : R.second.ops[s'.pc]? = some o')
    (hstep' : R.reader.step host o' s' w' = (.error fault', w₁)) (hfault : fault'.unslotted = fault.unslotted) :
    R.Agrees host (left + 1) s w (left' + 1) s' w' := by
  refine .fault hfresh hop hstep (.inr ?_)
  rw [Machine.run]
  simp only [R.reader_runs.code, hop', hstep']
  exact ⟨rfl, hfault⟩

/-- Both machines return. -/
theorem halted (hfresh : R.Fresh s) (hop : R.first.ops[s.pc]? = some o)
    (hstep : R.keeper.step host o s w = (.ok (.halted s₁), w₁)) (hop' : R.second.ops[s'.pc]? = some o')
    (hstep' : R.reader.step host o' s' w' = (.ok (.halted s₁'), w₁)) (hstack : s₁'.frame.stack = s₁.frame.stack) :
    R.Agrees host (left + 1) s w (left' + 1) s' w' := by
  rw [← R.keeper_runs.code] at hop
  rw [← R.reader_runs.code] at hop'
  constructor
  · rw [Machine.visited_last hop (by simp [hstep])]
    exact List.forall_mem_singleton.mpr hfresh
  · refine .inr ?_
    simp only [Machine.run, hop, hstep, hop', hstep']
    exact ⟨rfl, by simp [Machine.State.outcome, hstack]⟩

/-- Both programs are at their ends. -/
theorem ended (hop : R.first.ops[s.pc]? = none) (hop' : R.second.ops[s'.pc]? = none)
    (hstack : s'.frame.stack = s.frame.stack) : R.Agrees host left s w left' s' w := by
  rw [← R.keeper_runs.code] at hop
  rw [← R.reader_runs.code] at hop'
  constructor
  · rw [Machine.visited_end hop]
    exact List.forall_mem_nil _
  · rw [Machine.run_end hop, Machine.run_end hop']
    exact .inr ⟨rfl, by simp [Machine.State.outcome, hstack]⟩

variable {v : Value}

/-- The first machine loads a value, if it can. -/
theorem load {slot : Nat} {ty : Ty} (hfresh : R.Fresh s) (hop : R.first.ops[s.pc]? = some (.load slot ty))
    (hget : s.frame.locals[slot]? = some (some v))
    (h : ∀ n, left = n + 1 → s.frame.stack.depth < R.keeper.limits.stack →
      R.Agrees host n ⟨s.pc + 1, s.steps + 1, ⟨s.frame.stack.push v, s.frame.locals⟩⟩ w left' s' w') :
    R.Agrees host left s w left' s' w' := by
  rcases left with _ | left
  · exact .stepLimit hop
  · by_cases hroom : s.frame.stack.depth < R.keeper.limits.stack
    · exact .forward hfresh hop (Machine.step_load hget hroom) (h left rfl hroom)
    · exact .fault hfresh hop (Machine.step_load_full hget hroom) (.inl rfl)

theorem const {pc steps : Nat} {stack : Stack} {locals : Array (Option Value)} {c : Const}
    (hop : R.first.ops[pc]? = some (.const c))
    (h : ∀ n, left = n + 1 → stack.depth < R.keeper.limits.stack →
      R.Agrees host n ⟨pc + 1, steps + 1, ⟨stack.push (Value.ofConst c), locals⟩⟩ w left' s' w') :
    R.Agrees host left ⟨pc, steps, ⟨stack, locals⟩⟩ w left' s' w' := by
  have hfresh : R.Fresh ⟨pc, steps, ⟨stack, locals⟩⟩ := fresh_of_ne hop (by simp)
  rcases left with _ | left
  · exact .stepLimit hop
  · by_cases hroom : stack.depth < R.keeper.limits.stack
    · exact .forward hfresh hop (Machine.step_const hroom) (h left rfl hroom)
    · exact .fault hfresh hop (Machine.step_const_full hroom) (.inl rfl)

theorem dup {pc steps : Nat} {stack : Stack} {locals : Array (Option Value)} (hop : R.first.ops[pc]? = some .dup)
    (h : ∀ n, left = n + 1 → (stack.push v).depth < R.keeper.limits.stack →
      R.Agrees host n ⟨pc + 1, steps + 1, ⟨(stack.push v).push v, locals⟩⟩ w left' s' w') :
    R.Agrees host left ⟨pc, steps, ⟨stack.push v, locals⟩⟩ w left' s' w' := by
  have hfresh : R.Fresh ⟨pc, steps, ⟨stack.push v, locals⟩⟩ := fresh_of_ne hop (by simp)
  rcases left with _ | left
  · exact .stepLimit hop
  · by_cases hroom : (stack.push v).depth < R.keeper.limits.stack
    · exact .forward hfresh hop (Machine.step_dup hroom) (h left rfl hroom)
    · exact .fault hfresh hop (Machine.step_dup_full hroom) (.inl rfl)

theorem store {pc steps slot : Nat} {ty : Ty} {stack : Stack} {locals : Array (Option Value)}
    (hop : R.first.ops[pc]? = some (.store slot ty)) (hty : v.conforms ty = true) (hslot : slot < locals.size)
    (h : ∀ n, left = n + 1 →
      R.Agrees host n ⟨pc + 1, steps + 1, ⟨stack, locals.setIfInBounds slot (some v)⟩⟩ w left' s' w') :
    R.Agrees host left ⟨pc, steps, ⟨stack.push v, locals⟩⟩ w left' s' w' := by
  rcases left with _ | left
  · exact .stepLimit hop
  · exact .forward (fresh_of_ne hop (by simp)) hop (Machine.step_store hty hslot) (h left rfl)

end Agrees

/-! ### Pairs of states -/

namespace Paired

variable {past : List Nat} (h : R.Paired past s s')

include h

/-- Steps that leave the locals as they are. -/
theorem move (hsplices : Splices R.twin R.read R.kept (R.first.ops.drop s₁.pc) (R.second.ops.drop s₁'.pc))
    (hstarted : R.start ≤ s₁.pc) (hstack : s₁'.frame.stack = s₁.frame.stack)
    (hlocals : s₁.frame.locals = s.frame.locals) (hlocals' : s₁'.frame.locals = s'.frame.locals)
    (hop : R.first.ops[s.pc]? = some o) (ho : ∀ ty, o ≠ .store R.kept ty) : R.Paired (past ++ [s.pc]) s₁ s₁' where
  splices := hsplices
  started := hstarted
  stack := hstack
  locals htwin := by
    rw [hlocals, hlocals']
    exact h.locals htwin
  readable := hlocals ▸ h.readable
  keepable := hlocals ▸ h.keepable
  current := by
    rw [hlocals]
    refine h.current.imp_right fun hstale => Program.stale_snoc_iff.mpr (.inr ⟨hstale, fun ty hty => ho ty ?_⟩)
    exact Option.some.inj (hop.symm.trans hty)

/-- The variable in the second machine holds the same. -/
theorem reader_read {b : Nat} (htwin : R.twin R.read b) :
    ∃ v, s.frame.locals[R.read]? = some (some v) ∧ s'.frame.locals[b]? = some (some v) ∧
      v.conforms (.ref .object) = true := by
  obtain ⟨v, hread, hty⟩ := h.readable
  exact ⟨v, hread, (h.locals htwin).trans hread, hty⟩

/-- Both machines store to slots that go together. -/
theorem store {a b : Nat} {ty : Ty} {v : Value} (htwin : R.twin a b) (hobject : a = R.read → ty = .ref .object)
    (hop : R.first.ops[s.pc]? = some (.store a ty)) (hty : v.conforms ty = true) (hslot : a < s.frame.locals.size)
    (hslot' : b < s'.frame.locals.size)
    (hsplices : Splices R.twin R.read R.kept (R.first.ops.drop s₁.pc) (R.second.ops.drop s₁'.pc))
    (hpc : s₁.pc = s.pc + 1) (hstack : s₁'.frame.stack = s₁.frame.stack)
    (hlocals : s₁.frame.locals = s.frame.locals.setIfInBounds a (some v))
    (hlocals' : s₁'.frame.locals = s'.frame.locals.setIfInBounds b (some v)) :
    R.Paired (past ++ [s.pc]) s₁ s₁' where
  splices := hsplices
  started := hpc ▸ Nat.le_succ_of_le h.started
  stack := hstack
  locals {a₁ b₁} htwin₁ := by
    rw [hlocals, hlocals']
    by_cases heq : a = a₁
    · obtain rfl := (R.pairs htwin htwin₁).mp heq
      rw [← heq, Array.getElem?_setIfInBounds_self_of_lt hslot, Array.getElem?_setIfInBounds_self_of_lt hslot']
    · rw [Array.getElem?_setIfInBounds_ne heq, Array.getElem?_setIfInBounds_ne (mt (R.pairs htwin htwin₁).mpr heq)]
      exact h.locals htwin₁
  readable := by
    rw [hlocals]
    by_cases heq : a = R.read
    · obtain rfl := hobject heq
      exact ⟨v, by rw [← heq, Array.getElem?_setIfInBounds_self_of_lt hslot], hty⟩
    · rw [Array.getElem?_setIfInBounds_ne heq]
      exact h.readable
  keepable := by
    rw [hlocals, Array.size_setIfInBounds]
    exact h.keepable
  current := by
    by_cases heq : a = R.read
    · -- from here on what is kept is out of date
      exact .inr (Program.stale_snoc_iff.mpr (.inl ⟨h.started, ty, heq ▸ hop⟩))
    · rw [hlocals, Array.getElem?_setIfInBounds_ne heq, Array.getElem?_setIfInBounds_ne (R.apart htwin)]
      refine h.current.imp_right fun hstale => Program.stale_snoc_iff.mpr (.inr ⟨hstale, fun ty' hstore => ?_⟩)
      refine R.apart htwin ?_
      exact (Op.store.inj (Option.some.inj (hop.symm.trans hstore))).1

/-- The first machine stores what the variable holds. -/
theorem keep {v : Value} (hread : s.frame.locals[R.read]? = some (some v))
    (hsplices : Splices R.twin R.read R.kept (R.first.ops.drop s₁.pc) (R.second.ops.drop s₁'.pc))
    (hpc : s.pc ≤ s₁.pc) (hstack : s₁'.frame.stack = s₁.frame.stack)
    (hlocals : s₁.frame.locals = s.frame.locals.setIfInBounds R.kept (some v))
    (hlocals' : s₁'.frame.locals = s'.frame.locals) (past₁ : List Nat) : R.Paired past₁ s₁ s₁' where
  splices := hsplices
  started := Nat.le_trans h.started hpc
  stack := hstack
  locals htwin := by
    rw [hlocals, hlocals', Array.getElem?_setIfInBounds_ne (R.apart htwin).symm]
    exact h.locals htwin
  readable := by
    rw [hlocals, Array.getElem?_setIfInBounds_ne R.differ.symm]
    exact h.readable
  keepable := by
    rw [hlocals, Array.size_setIfInBounds]
    exact h.keepable
  current := by
    rw [hlocals, Array.getElem?_setIfInBounds_ne R.differ.symm, Array.getElem?_setIfInBounds_self_of_lt h.keepable]
    exact .inl hread.symm

end Paired

/-! ### Whole runs -/

/-- A label that the first program jumps to is followed by the same code in
    the second one. -/
theorem exists_targets (ho : o ∈ R.first.ops) {l : Label} (hl : o.references? = some l) :
    ∃ i i', R.keeper.positions[l]? = some i ∧ R.reader.positions[l]? = some i' ∧ R.start ≤ i ∧
      Splices R.twin R.read R.kept (R.first.ops.drop i) (R.second.ops.drop i') := by
  obtain ⟨i, hi⟩ := R.keeper_runs.defined o ho l hl
  have hstart := R.labels i l hi
  obtain ⟨hlt, hget⟩ := List.getElem?_eq_some_iff.mp hi
  have hdrop : R.first.ops.drop i = .label l :: R.first.ops.drop (i + 1) := by
    rw [List.drop_eq_getElem_cons hlt, hget]
  -- no label stands in the prologue, so the target is in the code that is spliced
  have hsuffix : R.first.ops.drop i <:+ R.first.ops.drop R.start := by
    rw [← Nat.add_sub_cancel' hstart, ← List.drop_drop]
    exact List.drop_suffix _ _
  rw [hdrop] at hsuffix
  obtain ⟨target', hsuffix', hsplices⟩ := R.splices.exists_of_label hsuffix
  obtain ⟨before, hbefore⟩ := hsuffix'.trans R.code_suffix
  have hi' : R.second.ops[before.length]? = some (.label l) := by simp [← hbefore]
  have hdrop' : R.second.ops.drop before.length = .label l :: target' := by simp [← hbefore]
  refine ⟨i, before.length, R.keeper_runs.position i l hi, R.reader_runs.position _ l hi', hstart, ?_⟩
  rw [hdrop, hdrop']
  exact .same rfl hsplices

theorem at_of_drop {ops rest : List Op} {pc : Nat} (h : ops.drop pc = o :: rest) :
    ops[pc]? = some o ∧ ops.drop (pc + 1) = rest := by
  constructor
  · rw [← List.head?_drop, h, List.head?_cons]
  · rw [← List.tail_drop, h, List.tail_cons]

/-- What is to come of a trace, one step on. -/
theorem keepsUp_forward {past : List Nat} (hop : R.first.ops[s.pc]? = some o)
    (hstep : R.keeper.step host o s w = (.ok (.running s₁), w₁))
    (h : R.first.KeepsUp R.start R.read R.kept (past ++ R.keeper.executed host (left + 1) s w)) :
    R.first.KeepsUp R.start R.read R.kept (past ++ [s.pc] ++ R.keeper.executed host left s₁ w₁) := by
  rw [← Machine.map_pc_visited, Machine.visited_running (R.keeper_runs.code _ ▸ hop) hstep, List.map_cons,
    Machine.map_pc_visited] at h
  simpa using h

variable (R host left) in
/-- From states that go together the two machines agree, if the first one has
    so many steps left. -/
def Goes : Prop :=
  ∀ {left' : Nat} {past : List Nat} {s s' : Machine.State} {w : σ}, R.Paired past s s' → left ≤ left' →
    R.first.KeepsUp R.start R.read R.kept (past ++ R.keeper.executed host left s w) →
    R.Agrees host left s w left' s' w

namespace Paired

variable {past : List Nat} {rest rest' : List Op} (h : R.Paired past s s') (hle : left ≤ left')
  (hkeeps : R.first.KeepsUp R.start R.read R.kept (past ++ R.keeper.executed host left s w))
  (hgoes : ∀ n < left, R.Goes host n) (hrest : Splices R.twin R.read R.kept rest rest')

include h hle hkeeps hgoes hrest

/-- An operation that touches no slot. -/
theorem goes_same (ho : o.touchesSlot = false) (hops : R.first.ops.drop s.pc = o :: rest)
    (hops' : R.second.ops.drop s'.pc = o :: rest') : R.Agrees host left s w left' s' w := by
  obtain ⟨hop, rfl⟩ := at_of_drop hops
  obtain ⟨hop', rfl⟩ := at_of_drop hops'
  have hfresh : R.Fresh s := fresh_of_ne hop (by rintro ty rfl; cases ho)
  -- the step is the same on both sides, and goes to places where the rests are spliced
  have hsame : Machine.SameStep s.frame.locals s'.frame.locals
      (fun i i' => R.start ≤ i ∧ Splices R.twin R.read R.kept (R.first.ops.drop i) (R.second.ops.drop i'))
      (R.keeper.step host o s w) (R.reader.step host o s' w) :=
    Machine.step_alike R.limit ho h.stack ⟨Nat.le_succ_of_le h.started, hrest⟩
      (fun l hl => exists_targets (List.mem_of_getElem? hop) hl) w
  rcases left with _ | left
  · exact .stepLimit hop
  · obtain ⟨left', rfl⟩ := Nat.exists_eq_add_one_of_ne_zero (by omega : left' ≠ 0)
    rcases hstep : R.keeper.step host o s w with ⟨fault | ⟨s₁⟩ | ⟨s₁⟩, w₁⟩
    · rw [hstep] at hsame
      exact .fault_both hfresh hop hstep hop' hsame rfl
    · rw [hstep] at hsame
      obtain ⟨hlocals, s₁', ⟨hstarted, hsplices⟩, hframe, hstep'⟩ := hsame
      refine .forward hfresh hop hstep (.forward_reader hop' hstep' ?_)
      refine hgoes left left.lt_succ_self ?_ (Nat.le_of_succ_le_succ hle) (keepsUp_forward hop hstep hkeeps)
      refine h.move hsplices hstarted ?_ hlocals ?_ hop ?_
      · rw [hframe]
      · rw [hframe]
      · rintro ty rfl
        cases ho
    · rw [hstep] at hsame
      obtain ⟨s₁', hstack, hstep'⟩ := hsame
      exact .halted hfresh hop hstep hop' hstep' hstack

/-- Both machines load the same value. -/
theorem goes_load {a b : Nat} {ty : Ty} (hfresh : R.Fresh s) (hget : s'.frame.locals[b]? = s.frame.locals[a]?)
    (hops : R.first.ops.drop s.pc = .load a ty :: rest) (hops' : R.second.ops.drop s'.pc = .load b ty :: rest') :
    R.Agrees host left s w left' s' w := by
  obtain ⟨hop, rfl⟩ := at_of_drop hops
  obtain ⟨hop', rfl⟩ := at_of_drop hops'
  rcases left with _ | left
  · exact .stepLimit hop
  · obtain ⟨left', rfl⟩ := Nat.exists_eq_add_one_of_ne_zero (by omega : left' ≠ 0)
    -- a slot that cannot be read is as bad in the other machine, under its own number
    rcases hload : s.frame.locals[a]? with _ | _ | v
    · have hfault : s.frame.load a = .error (.slotOutOfRange a) := by rw [Frame.load, hload]
      have hfault' : s'.frame.load b = .error (.slotOutOfRange b) := by rw [Frame.load, hget, hload]
      exact .fault_both hfresh hop (Machine.step_load_fault hfault) hop' (Machine.step_load_fault hfault') rfl
    · have hfault : s.frame.load a = .error (.uninitializedLocal a) := by rw [Frame.load, hload]
      have hfault' : s'.frame.load b = .error (.uninitializedLocal b) := by rw [Frame.load, hget, hload]
      exact .fault_both hfresh hop (Machine.step_load_fault hfault) hop' (Machine.step_load_fault hfault') rfl
    · by_cases hroom : s.frame.stack.depth < R.keeper.limits.stack
      · have hstep : R.keeper.step host (.load a ty) s w = _ := Machine.step_load hload hroom
        have hstep' : R.reader.step host (.load b ty) s' w = _ :=
          Machine.step_load (hget.trans hload) (by rw [h.stack, R.limit]; exact hroom)
        refine .forward hfresh hop hstep (.forward_reader hop' hstep' ?_)
        refine hgoes left left.lt_succ_self ?_ (Nat.le_of_succ_le_succ hle) (keepsUp_forward hop hstep hkeeps)
        exact h.move hrest (Nat.le_succ_of_le h.started) (congrArg (·.push v) h.stack) rfl rfl hop (by simp)
      · exact .fault hfresh hop (Machine.step_load_full hload hroom) (.inl rfl)

/-- Both machines store to slots that go together. -/
theorem goes_store {a b : Nat} {ty : Ty} (htwin : R.twin a b) (hobject : a = R.read → ty = .ref .object)
    (hops : R.first.ops.drop s.pc = .store a ty :: rest) (hops' : R.second.ops.drop s'.pc = .store b ty :: rest') :
    R.Agrees host left s w left' s' w := by
  obtain ⟨hop, rfl⟩ := at_of_drop hops
  obtain ⟨hop', rfl⟩ := at_of_drop hops'
  have hfresh : R.Fresh s := fresh_of_ne hop (by simp)
  -- slots that go together are both in range or both not
  have hsize : b < s'.frame.locals.size ↔ a < s.frame.locals.size := by
    have hnone : s'.frame.locals[b]? = none ↔ s.frame.locals[a]? = none := by rw [h.locals htwin]
    simpa only [Array.getElem?_eq_none_iff, not_le] using not_congr hnone
  obtain ⟨pc, steps, stack, locals⟩ := s
  obtain ⟨pc', steps', stack', locals'⟩ := s'
  obtain rfl : stack' = stack := h.stack
  rcases left with _ | left
  · exact .stepLimit hop
  · obtain ⟨left', rfl⟩ := Nat.exists_eq_add_one_of_ne_zero (by omega : left' ≠ 0)
    rcases stack'.eq_empty_or_push with rfl | ⟨stack, v, rfl⟩
    · exact .fault_both hfresh hop Machine.step_store_underflow hop' Machine.step_store_underflow rfl
    · cases hty : v.conforms ty with
      | false =>
        exact .fault_both hfresh hop (Machine.step_store_mismatch hty) hop' (Machine.step_store_mismatch hty) rfl
      | true =>
        by_cases hslot : a < locals.size
        · have hstep : R.keeper.step host (.store a ty) ⟨pc, steps, ⟨stack.push v, locals⟩⟩ w = _ :=
            Machine.step_store hty hslot
          have hstep' : R.reader.step host (.store b ty) ⟨pc', steps', ⟨stack.push v, locals'⟩⟩ w = _ :=
            Machine.step_store hty (hsize.mpr hslot)
          refine .forward hfresh hop hstep (.forward_reader hop' hstep' ?_)
          refine hgoes left left.lt_succ_self ?_ (Nat.le_of_succ_le_succ hle) (keepsUp_forward hop hstep hkeeps)
          exact h.store htwin hobject hop hty hslot (hsize.mpr hslot) hrest rfl rfl rfl rfl
        · exact .fault_both hfresh hop (Machine.step_store_outside hty hslot) hop'
            (Machine.step_store_outside hty (mt hsize.mp hslot)) rfl

/-- The first machine reads and keeps what the second one reads. -/
theorem goes_first {b : Nat} (htwin : R.twin R.read b)
    (hops : R.first.ops.drop s.pc =
      .load R.read (.ref .object) :: .dup :: .store R.kept (.ref .object) :: rest)
    (hops' : R.second.ops.drop s'.pc = .load b (.ref .object) :: rest') : R.Agrees host left s w left' s' w := by
  obtain ⟨hop, hops₁⟩ := at_of_drop hops
  obtain ⟨hop₁, hops₂⟩ := at_of_drop hops₁
  obtain ⟨hop₂, rfl⟩ := at_of_drop hops₂
  obtain ⟨hop', rfl⟩ := at_of_drop hops'
  obtain ⟨v, hread, hread', hty⟩ := h.reader_read htwin
  have hfresh : R.Fresh s := fresh_of_ne hop (by simp [R.differ])
  refine .load hfresh hop hread fun n₁ hn₁ hroom => .dup hop₁ fun n₂ hn₂ hroom₁ => .store hop₂ hty h.keepable fun n hn => ?_
  obtain ⟨left', rfl⟩ := Nat.exists_eq_add_one_of_ne_zero (by omega : left' ≠ 0)
  have hstep' : R.reader.step host (.load b (.ref .object)) s' w = _ :=
    Machine.step_load hread' (by rw [h.stack, R.limit]; exact hroom)
  refine .forward_reader hop' hstep' ?_
  subst hn₁ hn₂ hn
  -- three steps of the first machine go with one of the second
  have hkeeps₁ := keepsUp_forward hop (Machine.step_load hread hroom) hkeeps
  have hkeeps₂ := keepsUp_forward hop₁ (Machine.step_dup hroom₁) hkeeps₁
  have hkeeps₃ := keepsUp_forward hop₂ (Machine.step_store hty h.keepable) hkeeps₂
  refine hgoes n (by omega) ?_ (by omega) hkeeps₃
  apply h.keep hread hrest
  · show s.pc ≤ s.pc + 1 + 1 + 1
    omega
  · exact congrArg (·.push v) h.stack
  · rfl
  · rfl

/-- The first machine reads ahead. -/
theorem goes_ahead
    (hops : R.first.ops.drop s.pc = .load R.read (.ref .object) :: .store R.kept (.ref .object) :: rest)
    (hops' : R.second.ops.drop s'.pc = rest') : R.Agrees host left s w left' s' w := by
  obtain ⟨hop, hops₁⟩ := at_of_drop hops
  obtain ⟨hop₁, rfl⟩ := at_of_drop hops₁
  obtain ⟨v, hread, hty⟩ := h.readable
  have hfresh : R.Fresh s := fresh_of_ne hop (by simp [R.differ])
  refine .load hfresh hop hread fun n₁ hn₁ hroom => .store hop₁ hty h.keepable fun n hn => ?_
  subst hn₁ hn hops'
  have hkeeps₁ := keepsUp_forward hop (Machine.step_load hread hroom) hkeeps
  have hkeeps₂ := keepsUp_forward hop₁ (Machine.step_store hty h.keepable) hkeeps₁
  refine hgoes n (by omega) ?_ (by omega) hkeeps₂
  apply h.keep hread hrest
  · show s.pc ≤ s.pc + 1 + 1
    omega
  · exact h.stack
  · rfl
  · rfl

end Paired

/-- From states that go together the two machines agree. -/
theorem goes (left : Nat) : R.Goes host left := by
  -- the induction is on the steps that the first machine has left; the second needs no more of them
  induction left using Nat.strong_induction_on with
  | _ left ih =>
  intro left' past s s' w h hle hkeeps
  have hsplices := h.splices
  generalize hops : R.first.ops.drop s.pc = ops at hsplices
  generalize hops' : R.second.ops.drop s'.pc = ops' at hsplices
  cases hsplices with
  | nil => exact .ended (by simpa using hops) (by simpa using hops') h.stack
  | same ho hrest => exact h.goes_same hle hkeeps ih hrest ho hops hops'
  | load htwin hrest =>
    have hfresh : R.Fresh s := fresh_of_ne (at_of_drop hops).1 (by simp [R.apart htwin])
    exact h.goes_load hle hkeeps ih hrest hfresh (h.locals htwin) hops hops'
  | store htwin hobject hrest => exact h.goes_store hle hkeeps ih hrest htwin hobject hops hops'
  | @again b ty rest rest' htwin hrest =>
    rcases left with _ | left
    · exact .stepLimit (at_of_drop hops).1
    · -- what is loaded is not out of date
      have hcurrent : s.frame.locals[R.kept]? = s.frame.locals[R.read]? := by
        obtain ⟨behind, hbehind⟩ :=
          R.keeper.exists_executed_cons host (R.keeper_runs.code _ ▸ (at_of_drop hops).1) left w
        exact h.current.resolve_right (hkeeps past s.pc behind (by rw [hbehind]) ty (at_of_drop hops).1)
      exact h.goes_load hle hkeeps ih hrest (fun _ _ => hcurrent) ((h.locals htwin).trans hcurrent.symm) hops hops'
  | first htwin hrest => exact h.goes_first hle hkeeps ih hrest htwin hops hops'
  | ahead hrest => exact h.goes_ahead hle hkeeps ih hrest hops hops'

/-! ### The prologues -/

/-- The first machine gives slots their first values. -/
theorem Agrees.initials (past : List Nat) {list : List Initial} {pc steps : Nat} {locals : Array (Option Value)}
    (hlist : ∀ i ∈ list, (Value.ofConst i.value).conforms i.ty = true ∧ i.slot < locals.size)
    (honce : (list.map Initial.slot).Nodup) (hplaced : R.keeper.Placed pc (list.flatMap Initial.ops))
    (hkeeps : R.first.KeepsUp R.start R.read R.kept
      (past ++ R.keeper.executed host left ⟨pc, steps, ⟨.empty, locals⟩⟩ w))
    (h : ∀ n steps₁ past₁ locals₁, left = n + 2 * list.length → (list ≠ [] → 0 < R.keeper.limits.stack) →
      Initial.Fills list locals locals₁ →
      R.first.KeepsUp R.start R.read R.kept
        (past₁ ++ R.keeper.executed host n ⟨pc + 2 * list.length, steps₁, ⟨.empty, locals₁⟩⟩ w) →
      R.Agrees host n ⟨pc + 2 * list.length, steps₁, ⟨.empty, locals₁⟩⟩ w left' s' w') :
    R.Agrees host left ⟨pc, steps, ⟨.empty, locals⟩⟩ w left' s' w' := by
  induction list generalizing left pc steps locals past with
  | nil => exact h left steps past locals rfl (by simp) (.nil locals) hkeeps
  | cons i rest ih =>
    obtain ⟨hty, hslot⟩ := hlist i List.mem_cons_self
    obtain ⟨hnew, honce⟩ := List.nodup_cons.mp honce
    have hcode := hplaced.first
    have hop : R.first.ops[pc]? = some (.const i.value) := R.keeper_runs.code _ ▸ hcode.head
    have hop₁ : R.first.ops[pc + 1]? = some (.store i.slot i.ty) := R.keeper_runs.code _ ▸ hcode.tail.head
    -- each slot takes two steps, and needs room for one value
    refine .const hop fun n₁ hn₁ hroom => .store hop₁ hty hslot fun n hn => ?_
    subst hn₁ hn
    have hkeeps₁ := keepsUp_forward hop (Machine.step_const hroom) hkeeps
    have hkeeps₂ := keepsUp_forward hop₁ (Machine.step_store hty hslot) hkeeps₁
    refine ih _ (fun j hj => ?_) honce hplaced.rest hkeeps₂ fun n' steps₁ past₁ locals₁ hn' _ hfills hkeeps₃ => ?_
    · rw [Array.size_setIfInBounds]
      exact hlist j (List.mem_cons_of_mem _ hj)
    · have hpc : pc + 1 + 1 + 2 * rest.length = pc + 2 * (i :: rest).length := by
        rw [List.length_cons]
        omega
      have hleft : n + 1 + 1 = n' + 2 * (i :: rest).length := by
        rw [hn', List.length_cons]
        omega
      rw [hpc] at hkeeps₃ ⊢
      exact h n' steps₁ past₁ locals₁ hleft (fun _ => Nat.zero_lt_of_lt hroom) (hfills.cons hnew hslot) hkeeps₃

/-- So does the second one, which has the steps for it. -/
theorem Agrees.initials_reader {list : List Initial} {pc steps : Nat} {locals : Array (Option Value)}
    (hlist : ∀ i ∈ list, (Value.ofConst i.value).conforms i.ty = true ∧ i.slot < locals.size)
    (honce : (list.map Initial.slot).Nodup) (hplaced : R.reader.Placed pc (list.flatMap Initial.ops))
    (hroom : list ≠ [] → 0 < R.reader.limits.stack)
    (h : ∀ steps₁ locals₁, Initial.Fills list locals locals₁ →
      R.Agrees host left s w left' ⟨pc + 2 * list.length, steps₁, ⟨.empty, locals₁⟩⟩ w') :
    R.Agrees host left s w (left' + 2 * list.length) ⟨pc, steps, ⟨.empty, locals⟩⟩ w' := by
  induction list generalizing pc steps locals with
  | nil => exact h steps locals (.nil locals)
  | cons i rest ih =>
    obtain ⟨hty, hslot⟩ := hlist i List.mem_cons_self
    obtain ⟨hnew, honce⟩ := List.nodup_cons.mp honce
    have hcode := hplaced.first
    have hop : R.second.ops[pc]? = some (.const i.value) := R.reader_runs.code _ ▸ hcode.head
    have hop₁ : R.second.ops[pc + 1]? = some (.store i.slot i.ty) := R.reader_runs.code _ ▸ hcode.tail.head
    have hleft : left' + 2 * (i :: rest).length = left' + 2 * rest.length + 1 + 1 := by
      rw [List.length_cons]
      omega
    rw [hleft]
    refine .forward_reader hop (Machine.step_const (hroom (by simp))) ?_
    refine .forward_reader hop₁ (Machine.step_store hty hslot) ?_
    refine ih (fun j hj => ?_) honce hplaced.rest (fun _ => hroom (by simp)) fun steps₁ locals₁ hfills => ?_
    · rw [Array.size_setIfInBounds]
      exact hlist j (List.mem_cons_of_mem _ hj)
    · have hpc : pc + 1 + 1 + 2 * rest.length = pc + 2 * (i :: rest).length := by
        rw [List.length_cons]
        omega
      rw [hpc]
      exact h steps₁ locals₁ (hfills.cons hnew hslot)

end

end Rereads

end FlowGraph
