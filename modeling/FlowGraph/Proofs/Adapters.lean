import Mathlib
import FlowGraph.Proofs.Conversions
import FlowGraph.Proofs.Segments
import FlowGraph.Proofs.SideBySide
import FlowGraph.Proofs.Steps

/-! # Conversions on the machine

    The code that takes a value from an output to an input, in any program
    that is loaded and wherever it stands there.

    * It is the code of the value, with operations behind it. How code is laid
      out depends on what runs afterwards only by the shared values that are
      used there (`Draft.SameUses`), and a conversion uses none.
    * `Machine.Takes` counts the steps from one state to another. The
      operations behind the value lead from the value on top of the stack to
      what it is converted to (`Machine.Replaces`).

    Main statement: `Graph.converts_adapt`.
-/

namespace FlowGraph

variable {σ : Type}

/-! ## Code that runs afterwards -/

/-- Code that names no shared value adds none. -/
theorem Code.usesWith_of_mentions {c : Code} (hc : c.mentions = [])
    (enter : SharedId → List SharedId → List SharedId) (found : List SharedId) : c.usesWith enter found = found := by
  induction c generalizing found with
  | op | done | raw | getVariable => rfl
  | shared id ty => cases hc
  | andThen first rest ihf ihr =>
    obtain ⟨hf, hr⟩ := List.append_eq_nil_iff.mp hc
    rw [usesWith, ihf hf, ihr hr]
  | setVariable name value ih => exact ih hc found
  | loop times body iht ihb =>
    obtain ⟨ht, hb⟩ := List.append_eq_nil_iff.mp hc
    rw [usesWith, iht ht, ihb hb]
  | branch condition yes no ihc ihy ihn =>
    obtain ⟨hcy, hn⟩ := List.append_eq_nil_iff.mp hc
    obtain ⟨hc, hy⟩ := List.append_eq_nil_iff.mp hcy
    rw [usesWith, ihc hc, ihy hy, ihn hn]

namespace Draft

variable {after after' : List Code}

/-- The two lists of code use the same shared values, from any draft and
    whatever was found before. -/
def SameUses (after after' : List Code) : Prop :=
  ∀ (d : Draft) (found : List SharedId),
    after.foldl (fun found c => d.usesNested d.shared.length c found) found =
      after'.foldl (fun found c => d.usesNested d.shared.length c found) found

namespace SameUses

theorem cons (h : SameUses after after') (c : Code) : SameUses (c :: after) (c :: after') := by
  intro d found
  exact h d _

/-- Code that names no shared value may be left out. -/
theorem skip {c : Code} (hc : c.mentions = []) (after : List Code) : SameUses (c :: after) after := by
  intro d found
  have hskip : d.usesNested d.shared.length c found = found := by
    cases d.shared.length <;> exact Code.usesWith_of_mentions hc _ found
  rw [List.foldl_cons, hskip]

theorem toHoist (h : SameUses after after') (d : Draft) (regions : List Code) :
    d.toHoist regions after = d.toHoist regions after' := by
  have huses : d.uses after = d.uses after' := h d []
  rw [Draft.toHoist, Draft.toHoist, huses]

end SameUses

/-- Of the code that runs afterwards only the shared values matter that it uses. -/
def MindsUses (enter : Enter) : Prop :=
  ∀ (c : Code) (used : Nat) (after after' : List Code) (d : Draft), SameUses after after' →
    enter c used after d = enter c used after' d

namespace MindsUses

variable {enter : Enter}

theorem emitShared (henter : MindsUses enter) (h : SameUses after after') (id : SharedId) (ty : Ty) (used : Nat)
    (d : Draft) : d.emitShared enter id ty used after = d.emitShared enter id ty used after' := by
  unfold Draft.emitShared
  cases d.shared[id]? with
  | none => rfl
  | some entry => simp only [henter entry.value used after after' _ h]

theorem storeAll (henter : MindsUses enter) (h : SameUses after after') (used : Nat) (ids : List SharedId)
    (d : Draft) : d.storeAll enter used after ids = d.storeAll enter used after' ids := by
  induction ids generalizing d with
  | nil => rfl
  | cons id rest ih =>
    have hfirst : d.storeShared enter id used after = d.storeShared enter id used after' := by
      unfold storeShared
      cases d.shared[id]? with
      | none => rfl
      | some entry => simp only [henter entry.value used after after' _ h]
    simp only [Draft.storeAll, hfirst, ih]

theorem hoist (henter : MindsUses enter) (h : SameUses after after') {following following' : List Code}
    (hfollowing : SameUses following following') (used : Nat) (regions : List Code) (d : Draft) :
    d.hoist enter used regions after following = d.hoist enter used regions after' following' := by
  rw [Draft.hoist, Draft.hoist, h.toHoist, henter.storeAll hfollowing]

theorem emitWith (henter : MindsUses enter) : MindsUses (Code.emitWith enter) := by
  -- each piece passes on what runs after it, with other pieces in front of it
  intro c
  induction c with
  | op | done | raw | getVariable => exact fun _ _ _ _ _ => rfl
  | shared id ty => exact fun used after after' d h => henter.emitShared h id ty used d
  | andThen first rest ihf ihr =>
    intro used after after' d h
    simp only [Code.emitWith, ihf used _ _ d (h.cons rest), ihr used _ _ _ h]
  | setVariable name value ih =>
    intro used after after' d h
    simp only [Code.emitWith, ih used _ _ d h]
  | loop times body iht ihb =>
    intro used after after' d h
    simp only [Code.emitWith, iht used _ _ d (h.cons body), henter.hoist h (h.cons body), ihb _ _ _ _ h]
  | branch condition yes no ihc ihy ihn =>
    intro used after after' d h
    have hboth := (h.cons no).cons yes
    simp only [Code.emitWith, ihc used _ _ d hboth, henter.hoist h hboth, ihy used _ _ _ h, ihn used _ _ _ h]

end MindsUses

/-- At each depth code is laid out in one way, and computations are entered in
    another one; both mind only what is used afterwards. -/
theorem exists_emitNested (n : Nat) : ∃ enter, MindsUses enter ∧ emitNested n = Code.emitWith enter := by
  induction n with
  | zero => exact ⟨_, fun _ _ _ _ _ _ => rfl, rfl⟩
  | succ n ih =>
    obtain ⟨enter, henter, heq⟩ := ih
    refine ⟨emitNested n, ?_, rfl⟩
    rw [heq]
    exact henter.emitWith

/-- Code that names no shared value changes nothing in the code ahead of it. -/
theorem emitNested_block (n : Nat) (ty : Ty) (value : Code) {rest : Code} (hrest : rest.mentions = []) (used : Nat)
    (after : List Code) (d : Draft) :
    (emitNested n (.block ty [value, rest]) used after d).ops =
      (emitNested n value used after d).ops ++
        (emitNested n rest used after (emitNested n value used after d).draft).ops := by
  obtain ⟨enter, henter, heq⟩ := exists_emitNested n
  have hbehind : (rest.andThen (.done ty)).mentions = [] := by
    rw [Code.mentions, hrest]
    rfl
  -- nothing behind the value uses a shared one, nor does what closes the block
  have hvalue := henter.emitWith value used _ _ d (.skip hbehind after)
  have hdone := henter.emitWith rest used _ _ (Code.emitWith enter value used after d).draft
    (.skip (rfl : (Code.done ty).mentions = []) after)
  simp only [heq, Code.block, List.foldr_cons, List.foldr_nil, Code.emitWith, hvalue, hdone, Emission.ops,
    Block.toList_append, Block.toList_ops, List.append_nil]

theorem emitNested_op (n : Nat) (o : Op) (ty : Ty) (used : Nat) (after : List Code) (d : Draft) :
    (emitNested n (.op o ty) used after d).ops = [o] := by
  cases n <;> simp [emitNested, Code.emitWith, Emission.ops]

theorem emitNested_raw (n : Nat) (ty : Ty) (ops : List Op) (used : Nat) (after : List Code) (d : Draft) :
    ∃ f, (emitNested n (.raw ty ops) used after d).ops = ops.map (Op.relabel f) := by
  refine ⟨fun l => d.nextLabel + (localLabels ops).idxOf l, ?_⟩
  cases n <;> simp [emitNested, Code.emitWith, emitRaw, Emission.ops]

end Draft

/-! ## Counted steps -/

namespace Machine

variable {m : Machine} {host : Host σ}

theorem placed_of_load {limits : Limits} {p : Program} (h : load limits p = .ok m) {before ops behind : List Op}
    (hops : p.ops = before ++ ops ++ behind) : m.Placed before.length ops := by
  obtain ⟨-, -, hcode, -⟩ := of_load h
  have hall : m.Placed 0 (before ++ ops ++ behind) := by
    intro i o ho
    rw [hcode, hops, List.getElem?_toArray, Nat.zero_add, ho]
  simpa using hall.first.rest

/-- The machine comes from one state to another in so many steps, with what
    they do to the host. -/
inductive Takes (m : Machine) (host : Host σ) : Nat → State × σ → State × σ → Prop
  | refl (x : State × σ) : Takes m host 0 x x
  | step {n : Nat} {o : Op} {s : State} {w : σ} {x y : State × σ} (hop : m.code[s.pc]? = some o)
      (hstep : m.step host o s w = (.ok (.running x.1), x.2)) (rest : Takes m host n x y) :
      Takes m host (n + 1) (s, w) y

namespace Takes

variable {n k pc steps : Nat} {o : Op} {f f' : Frame} {w : σ} {x y z : State × σ}

theorem trans (h : m.Takes host n x y) (h' : m.Takes host k y z) : m.Takes host (n + k) x z := by
  induction h with
  | refl => rwa [Nat.zero_add]
  | step hop hstep _ ih =>
    rw [Nat.add_right_comm]
    exact .step hop hstep (ih h')

/-- A run passes through the state. -/
theorem run_eq (h : m.Takes host n x y) (left : Nat) : m.run host (n + left) x.1 x.2 = m.run host left y.1 y.2 := by
  induction h with
  | refl => rw [Nat.zero_add]
  | step hop hstep _ ih => rw [Nat.add_right_comm, run_running hop hstep, ih]

/-- A step to the next operation. -/
theorem next (hop : m.code[pc]? = some o) (heffect : o.effect m.limits.stack f = .ok (.next f'))
    (rest : m.Takes host n (⟨pc + 1, steps + 1, f'⟩, w) y) : m.Takes host (n + 1) (⟨pc, steps, f⟩, w) y := by
  refine .step hop ?_ rest
  simp only [Machine.step, heffect]

/-- A step to a label. -/
theorem goto {l : Label} {target : Nat} (hop : m.code[pc]? = some o)
    (heffect : o.effect m.limits.stack f = .ok (.goto l f')) (htarget : m.positions[l]? = some target)
    (rest : m.Takes host n (⟨target, steps + 1, f'⟩, w) y) : m.Takes host (n + 1) (⟨pc, steps, f⟩, w) y := by
  refine .step hop ?_ rest
  simp only [Machine.step, heffect, htarget]

end Takes

/-- Wherever a machine comes from: once it stands at the first position with a
    value of the type on top of the stack and room for one more, it goes on to
    the second position. There what `f` gives stands in place of the value, and
    nothing else has changed. -/
def Replaces (m : Machine) (ty : Ty) (f : Value → Value) (here there : Nat) : Prop :=
  ∀ (σ : Type) (host : Host σ) (x : State × σ) (k steps : Nat) (v : Value) (below : List Value)
    (locals : Array (Option Value)) (w : σ),
    v.conforms ty = true → below.length + 1 < m.limits.stack →
    m.Takes host k x (⟨here, steps, ⟨.ofList (v :: below), locals⟩⟩, w) →
    ∃ j, m.Takes host (k + j) x (⟨there, steps + j, ⟨.ofList (f v :: below), locals⟩⟩, w) ∧
      ∀ left, m.run host (k + j + left) x.1 x.2 =
        m.run host left ⟨there, steps + j, ⟨.ofList (f v :: below), locals⟩⟩ w

namespace Replaces

variable {ty ty' : Ty} {f g : Value → Value} {here there beyond : Nat}

/-- It is enough to look at the steps between the two positions. -/
theorem of_takes (h : ∀ (σ : Type) (host : Host σ) (steps : Nat) (v : Value) (below : List Value)
      (locals : Array (Option Value)) (w : σ), v.conforms ty = true → below.length + 1 < m.limits.stack →
      ∃ j, m.Takes host j (⟨here, steps, ⟨.ofList (v :: below), locals⟩⟩, w)
        (⟨there, steps + j, ⟨.ofList (f v :: below), locals⟩⟩, w)) :
    m.Replaces ty f here there := by
  intro σ host x k steps v below locals w hv hroom htakes
  obtain ⟨j, hj⟩ := h σ host steps v below locals w hv hroom
  have hall := htakes.trans hj
  exact ⟨j, hall, hall.run_eq⟩

theorem trans (h : m.Replaces ty f here there) (hty : ∀ v, v.conforms ty = true → (f v).conforms ty' = true)
    (h' : m.Replaces ty' g there beyond) : m.Replaces ty (fun v => g (f v)) here beyond := by
  intro σ host x k steps v below locals w hv hroom htakes
  obtain ⟨i, hi, -⟩ := h σ host x k steps v below locals w hv hroom htakes
  obtain ⟨j, hj, hrun⟩ := h' σ host x (k + i) (steps + i) (f v) below locals w (hty v hv) hroom hi
  exact ⟨i + j, by simpa only [Nat.add_assoc] using hj, by simpa only [Nat.add_assoc] using hrun⟩

theorem congr (h : m.Replaces ty f here there) (hfg : ∀ v, v.conforms ty = true → f v = g v) :
    m.Replaces ty g here there := by
  intro σ host x k steps v below locals w hv hroom htakes
  rw [← hfg v hv]
  exact h σ host x k steps v below locals w hv hroom htakes

end Replaces

end Machine

/-! ## Boxing and unboxing -/

namespace Category

variable {c : Category}

/-- The native value that a category reads from a reference: the value in an
    object of its class, and zero, false or the empty text for null or another
    class. -/
inductive Reads : Category → Value → Value → Prop
  | payload {c : Category} {v result : Value} (hclass : v.heapClass? = some c.heapClass)
      (hresult : result.conforms c.native = true) (hboxed : result.boxed = v) : Reads c v result
  | zero {v : Value} (hclass : v.heapClass? ≠ some .double) : Reads .number v (.double .zero)
  | false {v : Value} (hclass : v.heapClass? ≠ some .boolean) : Reads .condition v (.boolean .false)
  | empty {v : Value} (hclass : v.heapClass? ≠ some .text) : Reads .text v (.text "")

theorem boxed_unboxed {object : Option Object} (hclass : (Value.ref object).heapClass? = some c.heapClass) :
    (c.unboxed (.ref object)).boxed = .ref object := by
  rcases object with _ | _ | _ | _ <;> cases c <;> first | rfl | cases hclass

theorem reads_unboxed (hc : c.isSignal = false) {v : Value} (hv : v.conforms (.ref .object) = true) :
    c.Reads v (c.unboxed v) := by
  obtain ⟨object, rfl⟩ := Value.conforms_object.mp hv
  by_cases hclass : (Value.ref object).heapClass? = some c.heapClass
  · exact .payload hclass (unboxed_conforms hc _) (boxed_unboxed hclass)
  · rw [unboxed_of_ne hclass]
    cases c with
    | signal => cases hc
    | number => exact .zero hclass
    | condition => exact .false hclass
    | text => exact .empty hclass

/-- A native value is in its box, but null in place of a text is not. -/
theorem unboxed_boxed (hc : c.isSignal = false) {v : Value} (hv : v.conforms c.native = true) :
    c.unboxed v.boxed = if v = .null then .text "" else v := by
  cases c with
  | signal => cases hc
  | number =>
    obtain ⟨x, rfl⟩ := Value.conforms_double.mp hv
    rfl
  | condition =>
    obtain ⟨b, rfl⟩ := Value.conforms_boolean.mp hv
    rfl
  | text => rcases v with _ | _ | _ | _ | _ | _ <;> first | rfl | cases hv

end Category

namespace PortDecl

variable {produced consumed : PortDecl}

/-- What arrives at an input of the value that an output gives. -/
inductive Conveys (produced consumed : PortDecl) (v : Value) : Value → Prop
  /-- A value that is native on both sides, of one category, stays. -/
  | native (hproduced : produced.form = .native) (hconsumed : consumed.form = .native)
      (hcategory : produced.category = consumed.category) : Conveys produced consumed v v
  /-- A value that is boxed on both sides stays, whatever its class. -/
  | boxed (hproduced : produced.form = .boxed) (hconsumed : consumed.form = .boxed) : Conveys produced consumed v v
  | wrapped (hproduced : produced.form = .native) (hconsumed : consumed.form = .boxed) :
      Conveys produced consumed v v.boxed
  | cast {result : Value} (hproduced : produced.form = .boxed ∨ produced.category ≠ consumed.category)
      (hconsumed : consumed.form = .native) (hreads : consumed.category.Reads v.boxed result) :
      Conveys produced consumed v result

theorem conveys_adapt (hconsumed : consumed.isSignal = false) {v : Value} (hv : v.conforms produced.ty = true) :
    produced.Conveys consumed v (produced.adapt consumed v) := by
  unfold adapt
  unfold ty at hv
  -- a reference is its own box, so both casts read from a box
  have hread : consumed.category.Reads v.boxed (consumed.category.unboxed v.boxed) :=
    Category.reads_unboxed hconsumed v.boxed_conforms
  cases hp : produced.form <;> cases hf : consumed.form <;> simp only [hp] at hv ⊢
  · split
    · next hcategory => exact .native hp hf hcategory
    · next hcategory => exact .cast (.inr hcategory) hf hread
  · exact .wrapped hp hf
  · obtain ⟨object, rfl⟩ := Value.conforms_object.mp hv
    exact .cast (.inl hp) hf hread
  · exact .boxed hp hf

end PortDecl

namespace Op

variable {limit : Nat} {c : Category} {below : List Value} {locals : Array (Option Value)}

theorem effect_pop (v : Value) :
    effect limit .pop ⟨.ofList (v :: below), locals⟩ = .ok (.next ⟨.ofList below, locals⟩) := rfl

theorem effect_const (k : Const) (hroom : below.length < limit) :
    effect limit (.const k) ⟨.ofList below, locals⟩ = .ok (.next ⟨.ofList (Value.ofConst k :: below), locals⟩) := by
  simp [effect, Frame.push_ofList, hroom, Functor.map, Except.map]

theorem effect_dup (v : Value) (hroom : below.length + 1 < limit) :
    effect limit .dup ⟨.ofList (v :: below), locals⟩ = .ok (.next ⟨.ofList (v :: v :: below), locals⟩) := by
  simp [effect, Frame.push_ofList, hroom, Bind.bind, Except.bind, Functor.map, Except.map]

theorem effect_jumpIf (b : Bool) (l : Label) :
    effect limit (.jumpIf l) ⟨.ofList (.boolean b :: below), locals⟩ =
      .ok (if b then .goto l ⟨.ofList below, locals⟩ else .next ⟨.ofList below, locals⟩) := rfl

theorem effect_checkCast {d : HeapClass} {v : Value} (hv : v.conforms (.ref d) = true) :
    effect limit (.checkCast d) ⟨.ofList (v :: below), locals⟩ = .ok (.next ⟨.ofList (v :: below), locals⟩) := by
  simp [effect, hv, Bind.bind, Except.bind]

/-- The class of a category has no class below it, so the test is for the
    class itself. -/
theorem effect_instanceOf (hc : c.isSignal = false) (object : Option Object) (hroom : below.length < limit) :
    effect limit (.instanceOf c.heapClass) ⟨.ofList (.ref object :: below), locals⟩ =
      .ok (.next ⟨.ofList (.boolean (decide ((Value.ref object).heapClass? = some c.heapClass)) :: below), locals⟩) := by
  rcases object with _ | object
  · simp [effect, Frame.push_ofList, hroom, Bind.bind, Except.bind, Functor.map, Except.map, Value.heapClass?]
  · have hclass : object.heapClass.isSubclass c.heapClass = decide (some object.heapClass = some c.heapClass) := by
      cases c <;> cases object <;> first | rfl | cases hc
    simp [effect, Frame.push_ofList, hroom, Bind.bind, Except.bind, Functor.map, Except.map, Value.heapClass?, hclass]

theorem effect_unbox (hc : c.isSignal = false) (htext : c ≠ .text) {object : Option Object}
    (hclass : (Value.ref object).heapClass? = some c.heapClass) (hroom : below.length < limit) :
    effect limit (.unbox c.heapClass) ⟨.ofList (.ref object :: below), locals⟩ =
      .ok (.next ⟨.ofList (c.unboxed (.ref object) :: below), locals⟩) := by
  rcases object with _ | object
  · cases hclass
  cases c with
  | signal => cases hc
  | text => exact absurd rfl htext
  | number | condition =>
    cases object <;> cases hclass
    simp [effect, Category.heapClass, Category.unboxed, Frame.push_ofList, hroom, Bind.bind, Except.bind, Functor.map,
      Except.map]

theorem effect_box (hc : c.isSignal = false) (htext : c ≠ .text) {v : Value}
    (hv : v.conforms c.native = true) (hroom : below.length < limit) :
    effect limit (.box c.heapClass) ⟨.ofList (v :: below), locals⟩ =
      .ok (.next ⟨.ofList (v.boxed :: below), locals⟩) := by
  cases c with
  | signal => cases hc
  | text => exact absurd rfl htext
  | number =>
    obtain ⟨x, rfl⟩ := Value.conforms_double.mp hv
    simp [effect, Category.heapClass, Value.boxed, Frame.push_ofList, hroom, Bind.bind, Except.bind, Functor.map,
      Except.map]
  | condition =>
    obtain ⟨b, rfl⟩ := Value.conforms_boolean.mp hv
    simp [effect, Category.heapClass, Value.boxed, Frame.push_ofList, hroom, Bind.bind, Except.bind, Functor.map,
      Except.map]

end Op

namespace Machine

variable {m : Machine} {host : Host σ} {c : Category} {default : Const} {pc steps : Nat} {below : List Value}
  {locals : Array (Option Value)} {w : σ} {f : Label → Label}

/-- The test at the start of a cast. -/
theorem takes_test (host : Host σ) (hc : c.isSignal = false)
    (hplaced : m.Placed pc ((c.castOps default).map (Op.relabel f))) (object : Option Object)
    (hroom : below.length + 1 < m.limits.stack) (steps : Nat) (locals : Array (Option Value)) (w : σ) :
    m.Takes host 2 (⟨pc, steps, ⟨.ofList (.ref object :: below), locals⟩⟩, w)
      (⟨pc + 2, steps + 2, ⟨.ofList (.boolean (decide ((Value.ref object).heapClass? = some c.heapClass)) ::
        .ref object :: below), locals⟩⟩, w) := by
  refine .next (hplaced 0 .dup rfl) (Op.effect_dup _ hroom) ?_
  exact .next (hplaced 1 _ rfl) (Op.effect_instanceOf hc object (by simpa using hroom)) (.refl _)

/-- An object of the category's class is replaced by the value in it. -/
theorem takes_castOps_same (hsound : m.Sound) (hc : c.isSignal = false)
    (hplaced : m.Placed pc ((c.castOps default).map (Op.relabel f))) {object : Option Object}
    (hclass : (Value.ref object).heapClass? = some c.heapClass) (hroom : below.length + 1 < m.limits.stack) :
    ∃ j, m.Takes host j (⟨pc, steps, ⟨.ofList (.ref object :: below), locals⟩⟩, w)
      (⟨pc + (c.castOps default).length, steps + j, ⟨.ofList (c.unboxed (.ref object) :: below), locals⟩⟩, w) := by
  have htest := takes_test host hc hplaced object hroom steps locals w
  rw [hclass, decide_eq_true rfl] at htest
  have hconforms : (Value.ref object).conforms (.ref c.heapClass) = true := by
    rcases object with _ | object
    · rfl
    · simp_all [Value.heapClass?, Value.conforms, HeapClass.isSubclass]
  -- the jump is taken, over the default, and the class is the one that is checked
  have hcast : m.Takes host 3 (⟨pc + 2, steps + 2, ⟨.ofList (.boolean true :: .ref object :: below), locals⟩⟩, w)
      (⟨pc + 8, steps + 5, ⟨.ofList (.ref object :: below), locals⟩⟩, w) := by
    refine .goto (hplaced 2 (.jumpIf (f 1)) rfl) (Op.effect_jumpIf true _) (hsound _ _ (hplaced 6 _ rfl)) ?_
    refine .next (hplaced 6 (.label (f 1)) rfl) rfl ?_
    exact .next (hplaced 7 (.checkCast c.heapClass) rfl) (Op.effect_checkCast hconforms) (.refl _)
  cases c with
  | signal => cases hc
  | text =>
    -- a text is its own box, so the reference stays
    have hsame : Category.text.unboxed (.ref object) = .ref object := by
      rcases object with _ | _ | _ | _ <;> first | rfl | cases hclass
    rw [hsame]
    exact ⟨2 + 3 + 1, (htest.trans hcast).trans (.next (hplaced 8 (.label (f 0)) rfl) rfl (.refl _))⟩
  | number | condition =>
    refine ⟨2 + 3 + 2, (htest.trans hcast).trans ?_⟩
    refine .next (hplaced 8 _ rfl) (Op.effect_unbox hc (by decide) hclass (by omega)) ?_
    exact .next (hplaced 9 (.label (f 0)) rfl) rfl (.refl _)

/-- Null and an object of another class are replaced by the default. -/
theorem takes_castOps_other (hsound : m.Sound) (hc : c.isSignal = false)
    (hplaced : m.Placed pc ((c.castOps default).map (Op.relabel f))) {object : Option Object}
    (hclass : (Value.ref object).heapClass? ≠ some c.heapClass) (hroom : below.length + 1 < m.limits.stack) :
    ∃ j, m.Takes host j (⟨pc, steps, ⟨.ofList (.ref object :: below), locals⟩⟩, w)
      (⟨pc + (c.castOps default).length, steps + j, ⟨.ofList (Value.ofConst default :: below), locals⟩⟩, w) := by
  have htest := takes_test host hc hplaced object hroom steps locals w
  rw [decide_eq_false hclass] at htest
  obtain ⟨last, hlength⟩ : ∃ last, (c.castOps default).length = last + 1 := ⟨_, rfl⟩
  have hlast : m.code[pc + last]? = some (.label (f 0)) := by
    refine hplaced last _ ?_
    rw [Nat.eq_sub_of_add_eq hlength.symm]
    cases c <;> rfl
  -- the reference is dropped for the default, and the jump leads over the unboxing
  refine ⟨2 + 5, htest.trans ?_⟩
  refine .next (hplaced 2 (.jumpIf (f 1)) rfl) (Op.effect_jumpIf false _) ?_
  refine .next (hplaced 3 .pop rfl) (Op.effect_pop _) ?_
  refine .next (hplaced 4 (.const default) rfl) (Op.effect_const default (by omega)) ?_
  refine .goto (hplaced 5 (.jump (f 0)) rfl) rfl (hsound _ _ hlast) ?_
  rw [hlength]
  exact .next hlast rfl (.refl _)

/-- A cast replaces any reference by the native value that it stands for. -/
theorem replaces_castOps (hsound : m.Sound) (hc : c.isSignal = false) (hdefault : Value.ofConst default = c.blank)
    (hplaced : m.Placed pc ((c.castOps default).map (Op.relabel f))) :
    m.Replaces (.ref .object) c.unboxed pc (pc + (c.castOps default).length) := by
  refine .of_takes fun σ host steps v below locals w hv hroom => ?_
  obtain ⟨object, rfl⟩ := Value.conforms_object.mp hv
  by_cases hclass : (Value.ref object).heapClass? = some c.heapClass
  · exact takes_castOps_same hsound hc hplaced hclass hroom
  · rw [Category.unboxed_of_ne hclass, ← hdefault]
    exact takes_castOps_other hsound hc hplaced hclass hroom

/-- The operation that boxes a number or a condition. -/
theorem replaces_box (hc : c.isSignal = false) (htext : c ≠ .text) (hplaced : m.Placed pc [.box c.heapClass]) :
    m.Replaces c.native Value.boxed pc (pc + 1) := by
  refine .of_takes fun σ host steps v below locals w hv hroom => ⟨1, ?_⟩
  exact .next hplaced.head (Op.effect_box hc htext hv (by omega)) (.refl _)

end Machine

/-! ## Conversions -/

namespace Code

variable {value code whole : Code} {ty ty' : Ty} {f g : Value → Value} {c : Category}

/-- Wherever the code is laid out, it is the first code with operations behind
    it, and in a loaded program these replace the value that the first code
    leaves. -/
def Converts (value code : Code) (ty : Ty) (f : Value → Value) : Prop :=
  ∀ (n used : Nat) (after : List Code) (d : Draft), ∃ rest,
    (Draft.emitNested n code used after d).ops = (Draft.emitNested n value used after d).ops ++ rest ∧
    ∀ (limits : Limits) (p : Program) (m : Machine) (before behind : List Op), Machine.load limits p = .ok m →
      p.ops = before ++ (Draft.emitNested n code used after d).ops ++ behind →
      m.Replaces ty f (before.length + (Draft.emitNested n value used after d).ops.length)
        (before.length + (Draft.emitNested n code used after d).ops.length)

namespace Converts

/-- What is behind the value, and what it does where it is placed. -/
theorem of_placed (h : ∀ (n used : Nat) (after : List Code) (d : Draft), ∃ rest,
      (Draft.emitNested n code used after d).ops = (Draft.emitNested n value used after d).ops ++ rest ∧
      ∀ (m : Machine) (pc : Nat), m.Sound → m.Placed pc rest → m.Replaces ty f pc (pc + rest.length)) :
    value.Converts code ty f := by
  intro n used after d
  obtain ⟨rest, hops, hreplaces⟩ := h n used after d
  refine ⟨rest, hops, fun limits p m before behind hload hp => ?_⟩
  have hplaced := Machine.placed_of_load hload hp
  rw [hops] at hplaced ⊢
  rw [List.length_append, ← Nat.add_assoc]
  exact hreplaces m _ (Machine.sound_of_load hload) hplaced.rest

theorem refl (value : Code) (ty : Ty) : value.Converts value ty fun v => v := by
  refine of_placed fun n used after d => ⟨[], by simp, fun m pc _ _ => ?_⟩
  exact .of_takes fun σ host steps v below locals w _ _ => ⟨0, .refl _⟩

theorem trans (h : value.Converts code ty f) (hty : ∀ v, v.conforms ty = true → (f v).conforms ty' = true)
    (h' : code.Converts whole ty' g) : value.Converts whole ty fun v => g (f v) := by
  intro n used after d
  obtain ⟨rest, hops, hreplaces⟩ := h n used after d
  obtain ⟨rest', hops', hreplaces'⟩ := h' n used after d
  refine ⟨rest ++ rest', by rw [hops', hops, List.append_assoc], ?_⟩
  intro limits p m before behind hload hp
  -- the operations of the second conversion are behind the first one
  have hfirst : p.ops = before ++ (Draft.emitNested n code used after d).ops ++ (rest' ++ behind) := by
    rw [hp, hops']
    simp
  exact (hreplaces limits p m before _ hload hfirst).trans hty (hreplaces' limits p m before behind hload hp)

theorem congr (h : value.Converts code ty f) (hfg : ∀ v, v.conforms ty = true → f v = g v) :
    value.Converts code ty g := by
  intro n used after d
  obtain ⟨rest, hops, hreplaces⟩ := h n used after d
  exact ⟨rest, hops, fun limits p m before behind hload hp =>
    (hreplaces limits p m before behind hload hp).congr hfg⟩

/-- A text needs no box; the others get one by an operation behind them. -/
theorem wrap (hc : c.isSignal = false) (value : Code) : value.Converts (c.wrap value) c.native Value.boxed := by
  cases c with
  | signal => cases hc
  | text =>
    refine (refl value _).congr fun v hv => ?_
    obtain ⟨object, rfl⟩ := Value.conforms_object.mp (Value.conforms_object_of_ref hv)
    rfl
  | number | condition =>
    refine of_placed fun n used after d => ⟨_, Draft.emitNested_block n _ value rfl used after d, ?_⟩
    intro m pc _ hplaced
    rw [Draft.emitNested_op] at hplaced ⊢
    exact Machine.replaces_box hc (by decide) hplaced

theorem cast (hc : c.isSignal = false) (value : Code) : value.Converts (c.cast value) (.ref .object) c.unboxed := by
  obtain ⟨default, hdefault, hblank⟩ := Category.exists_default hc
  simp only [Category.cast, hdefault]
  refine of_placed fun n used after d => ⟨_, Draft.emitNested_block n c.native value rfl used after d, ?_⟩
  intro m pc hsound hplaced
  obtain ⟨f, hraw⟩ := Draft.emitNested_raw n c.native (c.castOps default) used after
    (Draft.emitNested n value used after d).draft
  rw [hraw] at hplaced ⊢
  rw [List.length_map]
  exact Machine.replaces_castOps hsound hc hblank hplaced

end Converts

end Code

namespace Graph

variable {produced consumed : PortDecl}

theorem converts_adapt_value (hproduced : produced.isSignal = false) (hconsumed : consumed.isSignal = false)
    (value : Code) : value.Converts (adapt produced consumed value) produced.ty (produced.adapt consumed) := by
  unfold adapt PortDecl.adapt PortDecl.ty
  cases produced.form <;> cases consumed.form <;> simp only
  · split
    · exact .refl value _
    · exact (Code.Converts.wrap hproduced value).trans (fun v _ => v.boxed_conforms) (.cast hconsumed _)
  · exact .wrap hproduced value
  · exact .cast hconsumed value
  · exact .refl value _

/-- The code from an output to an input is the code of the value with
    operations behind it. In any program that is loaded, with one entry of the
    stack free, these run without a fault and leave in place of the value what
    arrives at the input. A native value comes back from its box bit for bit;
    only null in place of a text becomes the empty text. -/
theorem converts_adapt (produced consumed : PortDecl) (hproduced : produced.isSignal = false)
    (hconsumed : consumed.isSignal = false) (value : Code) :
    value.Converts (adapt produced consumed value) produced.ty (produced.adapt consumed) ∧
      (∀ v, v.conforms produced.ty = true → produced.Conveys consumed v (produced.adapt consumed v)) ∧
      ∀ c : Category, c.isSignal = false →
        value.Converts (c.cast (c.wrap value)) c.native fun v => if v = .null then .text "" else v := by
  refine ⟨converts_adapt_value hproduced hconsumed value, fun v hv => PortDecl.conveys_adapt hconsumed hv, ?_⟩
  intro c hc
  have hround := (Code.Converts.wrap hc value).trans (fun v _ => v.boxed_conforms) (.cast hc (c.wrap value))
  exact hround.congr fun v hv => Category.unboxed_boxed hc hv

/-- A boxed text on its way to an input for native numbers. -/
def foreign : Program where
  ops := [.const (.text "one"), .dup, .instanceOf .double, .jumpIf 0, .pop, .const (.number .zero), .jump 1,
    .label 0, .checkCast .double, .unbox .double, .label 1]
  locals := 0

theorem load_foreign : ∃ m, Machine.load {} foreign = .ok m := by
  have hok : (Machine.load {} foreign).isOk = true := by cbv
  cases hload : Machine.load {} foreign with
  | ok m => exact ⟨m, rfl⟩
  | error fault =>
    rw [hload] at hok
    cases hok

theorem converts_adapt_foreign :
    (⟨"shown", .text, .boxed⟩ : PortDecl).isSignal = false ∧ (⟨"times", .number, .native⟩ : PortDecl).isSignal = false ∧
      PortDecl.Conveys ⟨"shown", .text, .boxed⟩ ⟨"times", .number, .native⟩ (.text "one") (.double .zero) ∧
      ∃ m j, Machine.load {} foreign = .ok m ∧
        m.Takes Script.host j (m.start, .empty) (⟨11, j, ⟨.ofList [.double .zero], #[]⟩⟩, .empty) := by
  obtain ⟨hconverts, hconveys, -⟩ := converts_adapt ⟨"shown", .text, .boxed⟩ ⟨"times", .number, .native⟩ rfl rfl
    (.const (.text "one"))
  obtain ⟨m, hload⟩ := load_foreign
  obtain ⟨rest, -, hreplaces⟩ := hconverts 0 0 [] {}
  obtain ⟨hlimits, hprogram, hcode, -⟩ := Machine.of_load hload
  have hvalue : m.Takes Script.host 1 (m.start, Script.empty) (⟨1, 1, ⟨.ofList [.text "one"], #[]⟩⟩, .empty) := by
    have hop : m.code[0]? = some (.const (.text "one")) := by
      rw [hcode]
      rfl
    refine .next hop ?_ (.refl _)
    rw [hlimits, hprogram]
    rfl
  obtain ⟨j, hj, -⟩ := hreplaces {} foreign m [] [] hload rfl _ Script.host _ 1 1 (.text "one") [] #[] .empty rfl
    (by rw [hlimits]; decide) hvalue
  exact ⟨rfl, rfl, hconveys (.text "one") rfl, m, 1 + j, hload, hj⟩

end Graph

end FlowGraph
