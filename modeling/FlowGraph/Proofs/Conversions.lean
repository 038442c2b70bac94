import FlowGraph.Graph.Compile
import FlowGraph.Proofs.Evaluation
import FlowGraph.Proofs.Interpretation

/-! # Conversions in code

    The code that takes a value from one form or category to another does
    what the conversion of values says, whatever is on the stack below.

    `Computes c x` says that the code leaves a result of `x` on the stack,
    `Performs c x` that it does what `x` does and leaves nothing there.
-/

namespace FlowGraph

variable {σ : Type}

/-- The type of the values of a port. A boxed value may be of any class. -/
def PortDecl.ty (decl : PortDecl) : Ty :=
  match decl.form with
  | .native => decl.category.native
  | .boxed => .ref .object

namespace Value

/-! ## Values by their type -/

theorem conforms_double {v : Value} : v.conforms .double = true ↔ ∃ x, v = .double x := by
  rcases v with _ | _ | _ | _ <;> simp [conforms]

theorem conforms_boolean {v : Value} : v.conforms .boolean = true ↔ ∃ b, v = .boolean b := by
  rcases v with _ | _ | _ | _ <;> simp [conforms]

theorem conforms_object {v : Value} : v.conforms (.ref .object) = true ↔ ∃ object, v = .ref object := by
  rcases v with _ | _ | _ | _ <;> simp [conforms, HeapClass.isSubclass]

theorem conforms_object_of_ref {v : Value} {c : HeapClass} (h : v.conforms (.ref c) = true) :
    v.conforms (.ref .object) = true := by
  rcases v with _ | _ | _ | _ <;> simp_all [conforms, HeapClass.isSubclass]

theorem conforms_void (v : Value) : v.conforms .void = false := by
  rcases v with _ | _ | _ | _ <;> rfl

theorem ne_void_of_conforms {v : Value} {ty : Ty} (h : v.conforms ty = true) : ty ≠ .void := by
  rintro rfl
  simp [conforms_void] at h

/-- A native value is a reference when it is boxed. -/
theorem boxed_conforms (v : Value) : v.boxed.conforms (.ref .object) = true := by
  rcases v with _ | _ | _ | _ <;> simp [boxed, conforms, HeapClass.isSubclass]

end Value

namespace Category

/-- The value in a reference is of the native type. -/
theorem unboxed_conforms {c : Category} (hc : c.isSignal = false) (v : Value) :
    (c.unboxed v).conforms c.native = true := by
  cases c with
  | signal => cases hc
  | number => rcases v with _ | _ | _ | _ | _ | _ <;> rfl
  | condition => rcases v with _ | _ | _ | _ | _ | _ <;> rfl
  | text => rcases v with _ | _ | _ | _ | _ | _ <;> rfl

theorem unboxed_of_ne {c : Category} {object : Option Object}
    (hclass : (Value.ref object).heapClass? ≠ some c.heapClass) : c.unboxed (.ref object) = c.blank := by
  rcases object with _ | _ | _ | _ <;> cases c <;> first | exact absurd rfl hclass | rfl

/-- What a literal stands for is of the native type. -/
theorem literalValue_conforms {c : Category} (hc : c.isSignal = false) (literal : Literal) :
    (c.literalValue literal).conforms c.native = true := by
  cases c with
  | signal => cases hc
  | number => cases literal <;> rfl
  | condition => cases literal <;> rfl
  | text => cases literal <;> rfl

/-- A literal is loaded as the one constant of the value that it stands for. -/
theorem load_eq_const {c : Category} (hc : c.isSignal = false) (literal : Literal) :
    ∃ constant, c.load literal = .const constant ∧ Value.ofConst constant = c.literalValue literal := by
  cases c with
  | signal => cases hc
  | number => cases literal <;> exact ⟨_, rfl, rfl⟩
  | condition => cases literal <;> exact ⟨_, rfl, rfl⟩
  | text => cases literal <;> exact ⟨_, rfl, rfl⟩

/-- The constant that a cast falls back on. -/
theorem exists_default {c : Category} (hc : c.isSignal = false) :
    ∃ default, c.default? = some default ∧ Value.ofConst default = c.blank := by
  cases c with
  | signal => cases hc
  | number | condition | text => exact ⟨_, rfl, rfl⟩

end Category

/-- A value is of the type of the input that it arrives at. -/
theorem PortDecl.adapt_conforms {produced consumed : PortDecl} {v : Value}
    (hc : consumed.isSignal = false) (h : v.conforms produced.ty = true) :
    (produced.adapt consumed v).conforms consumed.ty = true := by
  unfold adapt ty
  unfold ty at h
  cases hp : produced.form <;> cases hf : consumed.form <;> simp only [hp] at h ⊢
  · split
    · next heq => rwa [← heq]
    · exact Category.unboxed_conforms hc _
  · exact Value.boxed_conforms v
  · exact Category.unboxed_conforms hc v
  · exact h

/-! ## Code that leaves a result -/

namespace Code

section

variable (host : Host σ) (s : Sharing σ)

/-- The code leaves a result of `x` on the stack. -/
def Computes (c : Code) (x : Ends σ Value) : Prop :=
  ∀ stack, (c.ends host s stack).Within (do let v ← x; return v :: stack)

/-- The code does what `x` does and leaves nothing on the stack. -/
def Performs (c : Code) (x : Ends σ Unit) : Prop :=
  ∀ stack, (c.ends host s stack).Within (do x; return stack)

end

variable {host : Host σ} {s : Sharing σ}

theorem Computes.within {c : Code} {x y : Ends σ Value} (hc : Computes host s c x)
    (h : x.Within y) : Computes host s c y := fun stack =>
  (hc stack).trans (h.bind_right _)

theorem Performs.within {c : Code} {x y : Ends σ Unit} (hc : Performs host s c x)
    (h : x.Within y) : Performs host s c y := fun stack =>
  (hc stack).trans (h.bind_right _)

/-- Code that goes on with a value on the stack. -/
theorem Computes.bind {c : Code} {x : Ends σ Value} {α : Type} {next : List Value → Ends σ α}
    {f : Value → Ends σ α} {property : Value → Prop} (hc : Computes host s c x)
    (hx : x.Yields property) (stack : List Value)
    (hnext : ∀ v, property v → (next (v :: stack)).Within (f v)) :
    (c.ends host s stack >>= next).Within (x >>= f) := by
  have hfirst := (hc stack).bind_right next
  simp only [bind_assoc, pure_bind] at hfirst
  exact hfirst.trans ((Ends.Within.refl x).bind hx hnext)

/-- Code that goes on with the stack as it was. -/
theorem Performs.bind {c : Code} {x : Ends σ Unit} {α : Type} {next : List Value → Ends σ α}
    {y : Ends σ α} (hc : Performs host s c x) (stack : List Value)
    (hnext : (next stack).Within y) :
    (c.ends host s stack >>= next).Within (do x; y) :=
  (hc stack).bind_return hnext

theorem performs_done (ty : Ty) : Performs host s (.done ty) (pure ()) := by
  intro stack
  rw [pure_bind]
  exact Ends.Within.refl _

theorem Performs.andThen {first rest : Code} {x y : Ends σ Unit} (hfirst : Performs host s first x)
    (hrest : Performs host s rest y) : Performs host s (.andThen first rest) (do x; y) := by
  intro stack
  rw [bind_assoc]
  exact hfirst.bind stack (hrest stack)

/-- One piece of code and what comes next. -/
theorem Performs.block {first next : Code} {x y : Ends σ Unit} {ty : Ty}
    (hfirst : Performs host s first x) (hnext : Performs host s next y) :
    Performs host s (.block ty [first, next]) (do x; y) := by
  have h := hfirst.andThen (hnext.andThen (performs_done ty))
  rwa [bind_pure_unit] at h

/-- A value is converted by the code behind it. -/
theorem Computes.map {value rest : Code} {x : Ends σ Value} {f : Value → Value}
    {property : Value → Prop} (hvalue : Computes host s value x) (hx : x.Yields property)
    (hrest : ∀ v, property v → ∀ stack,
      (rest.ends host s (v :: stack)).Within (pure (f v :: stack))) :
    Computes host s (.andThen value rest) (do let v ← x; return f v) := by
  intro stack
  simp only [ends, bind_assoc, pure_bind]
  exact hvalue.bind hx stack fun v hv => hrest v hv stack

/-- An operation that replaces the value on top of the stack. -/
theorem Computes.op {value : Code} {x : Ends σ Value} {o : Op} {ty ty' : Ty} {f : Value → Value}
    {property : Value → Prop} (hvalue : Computes host s value x) (hx : x.Yields property)
    (ho : ∀ v, property v → ∀ stack, o.act host (v :: stack) = pure (none, f v :: stack)) :
    Computes host s (.block ty [value, .op o ty']) (do let v ← x; return f v) := by
  refine hvalue.map hx fun v hv stack => Ends.Within.of_eq ?_
  simp [ends, ho v hv stack]

/-! ## Constants -/

theorem computes_const (c : Const) : Computes host s (.const c) (pure (.ofConst c)) := by
  intro stack
  simp only [Code.const, ends, Op.act_const, Act.ends_pure, pure_bind]
  exact Ends.Within.refl _

theorem computes_load {c : Category} (hc : c.isSignal = false) (literal : Literal) :
    Computes host s (c.load literal) (pure (c.literalValue literal)) := by
  obtain ⟨constant, hload, hvalue⟩ := Category.load_eq_const hc literal
  rw [hload, ← hvalue]
  exact computes_const constant

/-! ## Boxing -/

theorem computes_wrap {c : Category} {value : Code} {x : Ends σ Value} (hc : c.isSignal = false)
    (hvalue : Computes host s value x)
    (hx : x.Yields fun v => v.conforms c.native = true) :
    Computes host s (c.wrap value) (do let v ← x; return v.boxed) := by
  cases c with
  | signal => cases hc
  | number =>
    refine hvalue.op hx fun v hv stack => ?_
    obtain ⟨number, rfl⟩ := Value.conforms_double.mp hv
    exact Op.act_box_double host stack number
  | condition =>
    refine hvalue.op hx fun v hv stack => ?_
    obtain ⟨b, rfl⟩ := Value.conforms_boolean.mp hv
    exact Op.act_box_boolean host stack b
  | text =>
    intro stack
    rw [bind_assoc]
    refine (hvalue stack).trans (Ends.Within.bind (Ends.Within.refl x) hx fun v hv => ?_)
    obtain ⟨object, rfl⟩ := Value.conforms_object.mp (Value.conforms_object_of_ref hv)
    simp only [Value.boxed, pure_bind]
    exact Ends.Within.refl _

/-! ## Casts -/

open Op in
/-- A reference of another class is replaced by the default. -/
theorem actFrom_castOps_other {c : Category} {object : Option Object} (default : Const)
    (stack : List Value) (turns : Nat)
    (hother : (object.any fun o => o.heapClass.isSubclass c.heapClass) = false) :
    actFrom host (c.castOps default) (turns + 8) 0 (.ref object :: stack) =
      pure (Value.ofConst default :: stack) := by
  have hlast : ∃ target, labelAt? (c.castOps default) 0 = some target ∧
      (c.castOps default)[target]? = some (.label 0) ∧ (c.castOps default)[target + 1]? = none := by
    cases c
    case text => exact ⟨8, rfl, rfl, rfl⟩
    all_goals exact ⟨9, rfl, rfl, rfl⟩
  obtain ⟨target, hlabel, hop, hend⟩ := hlast
  rw [actFrom_next rfl (act_dup ..), actFrom_next rfl (act_instanceOf ..), hother,
    actFrom_next rfl (act_jumpIf ..), actFrom_next rfl (act_pop ..), actFrom_next rfl (act_const ..),
    actFrom_jump rfl (act_jump ..) hlabel, actFrom_next hop (act_label ..), actFrom_end hend]

open Op in
/-- A reference of the class is checked, and opened unless it is a text. -/
theorem actFrom_castOps_same {c : Category} {object : Object} (default : Const)
    (stack : List Value) (turns : Nat) (hc : c.isSignal = false)
    (hsame : object.heapClass = c.heapClass) :
    actFrom host (c.castOps default) (turns + 8) 0 (.ref (some object) :: stack) =
      pure (c.unboxed (.ref (some object)) :: stack) := by
  have hany : ((some object).any fun o => o.heapClass.isSubclass c.heapClass) = true := by
    simp [hsame, HeapClass.isSubclass]
  have hconforms : (Value.ref (some object)).conforms (.ref c.heapClass) = true := by
    simp [Value.conforms, hsame, HeapClass.isSubclass]
  have hlabel : labelAt? (c.castOps default) 1 = some 6 := by cases c <;> rfl
  rw [actFrom_next rfl (act_dup ..), actFrom_next rfl (act_instanceOf ..), hany,
    actFrom_jump rfl (act_jumpIf ..) hlabel, actFrom_next rfl (act_label ..),
    actFrom_next rfl (act_checkCast host _ hconforms)]
  -- up to here all categories go the same way; a text stays the reference that it is
  cases c with
  | signal => cases hc
  | number =>
    cases object with
    | double x =>
      rw [actFrom_next rfl (act_unbox_double ..), actFrom_next rfl (act_label ..), actFrom_end rfl]
      rfl
    | boolean b => cases hsame
    | text s => cases hsame
  | condition =>
    cases object with
    | double x => cases hsame
    | boolean b =>
      rw [actFrom_next rfl (act_unbox_boolean ..), actFrom_next rfl (act_label ..), actFrom_end rfl]
      rfl
    | text s => cases hsame
  | text =>
    cases object with
    | double x => cases hsame
    | boolean b => cases hsame
    | text s =>
      rw [actFrom_next rfl (act_label ..), actFrom_end rfl]
      rfl

/-- Whatever the reference, a cast leaves the native value in it or the
    default. -/
theorem actFrom_castOps {c : Category} {default : Const} (hc : c.isSignal = false)
    (hdefault : Value.ofConst default = c.blank) (object : Option Object) (stack : List Value) :
    (Ends.anyOf fun turns =>
        (actFrom host (c.castOps default) turns 0 (.ref object :: stack)).ends).Within
      (pure (c.unboxed (.ref object) :: stack)) := by
  refine Ends.Within.anyOf fun turns => (actFrom_within host _ turns 8 0 _).trans ?_
  rw [← Act.ends_pure]
  refine Ends.Within.of_eq (congrArg Act.ends ?_)
  by_cases hclass : (Value.ref object).heapClass? = some c.heapClass
  · obtain ⟨o, rfl, hsame⟩ : ∃ o, object = some o ∧ o.heapClass = c.heapClass := by
      rcases object with _ | o
      · cases hclass
      · exact ⟨o, rfl, Option.some.inj hclass⟩
    exact actFrom_castOps_same default stack turns hc hsame
  · rw [actFrom_castOps_other, hdefault, Category.unboxed_of_ne hclass]
    rcases object with _ | o
    · rfl
    · have hne : o.heapClass ≠ c.heapClass := fun h => hclass (congrArg some h)
      cases c <;> simp_all [HeapClass.isSubclass, Category.heapClass, Category.isSignal]

theorem computes_cast {c : Category} {value : Code} {x : Ends σ Value} (hc : c.isSignal = false)
    (hvalue : Computes host s value x)
    (hx : x.Yields fun v => v.conforms (.ref .object) = true) :
    Computes host s (c.cast value) (do let v ← x; return c.unboxed v) := by
  obtain ⟨default, hdefault, hblank⟩ := Category.exists_default hc
  simp only [Category.cast, hdefault]
  refine hvalue.map hx fun v hv stack => ?_
  obtain ⟨object, rfl⟩ := Value.conforms_object.mp hv
  simp only [List.foldr_cons, List.foldr_nil, ends, bind_pure]
  exact actFrom_castOps hc hblank object stack

/-! ## From an output to an input -/

theorem computes_adapt {produced consumed : PortDecl} {value : Code} {x : Ends σ Value}
    (hp : produced.isSignal = false) (hc : consumed.isSignal = false)
    (hvalue : Computes host s value x)
    (hx : x.Yields fun v => v.conforms produced.ty = true) :
    Computes host s (Graph.adapt produced consumed value)
      (do let v ← x; return produced.adapt consumed v) := by
  unfold Graph.adapt PortDecl.adapt
  unfold PortDecl.ty at hx
  cases hpf : produced.form <;> cases hcf : consumed.form <;> simp only [hpf] at hx ⊢
  · split
    · simpa only [bind_pure] using hvalue
    · have hwrap := computes_wrap hp hvalue hx
      have hboxed : Ends.Yields (do let v ← x; return v.boxed) fun v => v.conforms (.ref .object) = true :=
        hx.bind fun v _ => Ends.Yields.pure v.boxed_conforms
      simpa only [bind_assoc, pure_bind] using computes_cast hc hwrap hboxed
  · exact computes_wrap hp hvalue hx
  · exact computes_cast hc hvalue hx
  · simpa only [bind_pure] using hvalue

theorem computes_unconnected {r : Graph.Resolved} {index : Nat} {decl : PortDecl}
    (hdecl : decl.isSignal = false) :
    Computes host s (Graph.unconnected r index decl)
      (pure (Graph.ownValue r.node index decl)) := by
  unfold Graph.unconnected Graph.ownValue
  have hload : Computes host s (decl.category.load ((r.node.inset? index).getD .null)) _ :=
    computes_load hdecl ((r.node.inset? index).getD .null)
  cases decl.form with
  | native => exact hload
  | boxed =>
    have hwrap := computes_wrap hdecl hload
      (Ends.Yields.pure (Category.literalValue_conforms hdecl _))
    simpa only [pure_bind] using hwrap

theorem ownValue_conforms (node : Node) (index : Nat) {decl : PortDecl}
    (hdecl : decl.isSignal = false) : (Graph.ownValue node index decl).conforms decl.ty = true := by
  unfold Graph.ownValue PortDecl.ty
  cases decl.form with
  | native => exact Category.literalValue_conforms hdecl _
  | boxed => exact Value.boxed_conforms _

end Code

end FlowGraph
