import Mathlib.Logic.Equiv.Defs
import FlowGraph.Proofs.Wires

/-! # Other numbers

    A `Renaming` gives other numbers to the nodes and to the wires of a
    graph, and so to everything that names them: ports, problems, errors,
    drafts, and what the walk visits.

    A standard kind knows the number of its node only to name it in errors,
    so a renamed visit has the same recipe (`recipe_visit`), and the ends of a
    wire are found in the same way (`sourceAt_renamed`, `targetAt_renamed`).
-/

namespace FlowGraph

/-- Other numbers for nodes and for wires. -/
structure Renaming where
  node : Equiv.Perm NodeId
  wire : Equiv.Perm WireId

namespace Renaming

/-- Every number is kept. -/
def same : Renaming := ⟨.refl _, .refl _⟩

variable (ρ : Renaming)

/-! ## What names nodes and wires -/

def port (p : Port) : Port := ⟨ρ.node p.node, p.index⟩

def ends (w : Wire) : Wire := ⟨ρ.port w.source, ρ.port w.target⟩

def numbered (x : WireId × Wire) : WireId × Wire := (ρ.wire x.1, ρ.ends x.2)

def problem : LooseWire → LooseWire
  | .missingSource wire node => .missingSource (ρ.wire wire) (ρ.node node)
  | .missingTarget wire node => .missingTarget (ρ.wire wire) (ρ.node node)
  | .missingOutput wire port => .missingOutput (ρ.wire wire) (ρ.port port)
  | .missingInput wire port => .missingInput (ρ.wire wire) (ρ.port port)
  | .signalIntoValue wire input => .signalIntoValue (ρ.wire wire) (ρ.port input)

def error : GraphError → GraphError
  | .noEntry => .noEntry
  | .missingEntry node => .missingEntry (ρ.node node)
  | .unknownKind node kind => .unknownKind (ρ.node node) kind
  | .inputOutOfRange node kind index declared => .inputOutOfRange (ρ.node node) kind index declared
  | .outputOutOfRange node kind index declared => .outputOutOfRange (ρ.node node) kind index declared
  | .valueFanIn port count => .valueFanIn (ρ.port port) count
  | .signalCycle node => .signalCycle (ρ.node node)
  | .valueCycle port => .valueCycle (ρ.port port)
  | .notAValue port => .notAValue (ρ.port port)
  | .notASignal port => .notASignal (ρ.port port)
  | .notActivatable node kind => .notActivatable (ρ.node node) kind
  | .noValueOutput node kind index => .noValueOutput (ρ.node node) kind index
  | .missingTag node kind => .missingTag (ρ.node node) kind
  | .tooManyArguments target count => .tooManyArguments target count

/-- A result that is carried over by `f`, or an error. -/
def result {α β : Type} (f : α → β) : Except GraphError α → Except GraphError β
  | .ok a => .ok (f a)
  | .error e => .error (ρ.error e)

/-- The same program; its problems name other wires. -/
def compilation (c : Compilation) : Compilation := ⟨c.program, c.problems.map ρ.problem⟩

def draft (d : Draft) : Draft :=
  { d with memo := d.memo.map (Prod.map ρ.port id), problems := d.problems.map ρ.problem }

theorem port_injective : Function.Injective ρ.port := by
  intro p q h
  obtain ⟨hnode, hindex⟩ := Port.mk.inj h
  cases p
  cases q
  simp_all

theorem port_beq (p q : Port) : (ρ.port p == ρ.port q) = (p == q) := by
  rw [Bool.eq_iff_iff, beq_iff_eq, beq_iff_eq, ρ.port_injective.eq_iff]

theorem numbered_injective : Function.Injective ρ.numbered := by
  intro x y h
  obtain ⟨hid, hwire⟩ := Prod.mk.inj h
  obtain ⟨hsource, htarget⟩ := Wire.mk.inj hwire
  obtain ⟨id, ⟨source, target⟩⟩ := x
  obtain rfl := ρ.wire.injective hid
  obtain rfl : source = _ := ρ.port_injective hsource
  obtain rfl : target = _ := ρ.port_injective htarget
  rfl

theorem problem_injective : Function.Injective ρ.problem := by
  intro a b h
  cases a <;> cases b <;> simp_all [problem, ρ.port_injective.eq_iff]

theorem draft_empty : ρ.draft {} = {} := rfl

theorem draft_record (d : Draft) (problem : LooseWire) :
    ρ.draft (d.record problem) = (ρ.draft d).record (ρ.problem problem) := by
  have hmem : ρ.problem problem ∈ (ρ.draft d).problems ↔ problem ∈ d.problems :=
    List.mem_map_of_injective ρ.problem_injective
  -- a problem is on record if and only if it is so under its other name
  unfold Draft.record
  by_cases h : problem ∈ d.problems
  · rw [if_pos h, if_pos (hmem.mpr h)]
  · rw [if_neg h, if_neg (mt hmem.mp h)]
    simp [draft]

theorem draft_shared? (d : Draft) (p : Port) : (ρ.draft d).shared? (ρ.port p) = d.shared? p := by
  have hlookup : ∀ memo : List (Port × SharedId),
      (memo.map (Prod.map ρ.port id)).lookup (ρ.port p) = memo.lookup p := by
    intro memo
    induction memo with
    | nil => rfl
    | cons head rest ih =>
      obtain ⟨q, id⟩ := head
      simp only [List.map_cons, Prod.map, List.lookup_cons, ρ.port_beq, ih, id_eq]
  simp only [Draft.shared?, draft, hlookup]

end Renaming

/-! ## Recipes -/

/-- The recipe fails with another error. -/
def Renaming.recipe (ρ : Renaming) {α : Type} : Recipe α → Recipe α
  | .done a => .done a
  | .fail e => .fail (ρ.error e)
  | .input index next => .input index fun c => ρ.recipe (next c)
  | .follow index next => .follow index fun c => ρ.recipe (next c)

def Renaming.site (ρ : Renaming) (s : Site) : Site := ⟨ρ.node s.node, s.kind, s.tag⟩

namespace Role

variable (ρ : Renaming)

theorem single_renamed (s : Site) (index : Nat) {body : Site → Recipe Code}
    (h : body (ρ.site s) = ρ.recipe (body s)) :
    (Behaviour.single body).compute (ρ.site s) index = ρ.recipe ((Behaviour.single body).compute s index) := by
  show (if index = 0 then _ else _) = ρ.recipe (if index = 0 then _ else _)
  by_cases hindex : index = 0
  · rw [if_pos hindex, if_pos hindex, h]
  · rw [if_neg hindex, if_neg hindex]
    rfl

/-- A standard kind sees the number of its node only to name it in errors. -/
theorem activate_renamed (role : Role) (s : Site) (input : Nat) :
    role.kind.behaviour.activate (ρ.site s) input = ρ.recipe (role.kind.behaviour.activate s input) := by
  obtain ⟨node, kind, tag⟩ := s
  cases role with
  | setVariable c => cases tag <;> rfl
  | _ => rfl

theorem compute_renamed (role : Role) (s : Site) (index : Nat) :
    role.kind.behaviour.compute (ρ.site s) index = ρ.recipe (role.kind.behaviour.compute s index) := by
  cases role with
  | getVariable c =>
    obtain ⟨node, kind, tag⟩ := s
    apply single_renamed
    cases tag <;> rfl
  | constant | query | arith | compare | not | mathConstant => exact single_renamed ρ s index rfl
  | start | setVariable | emit | branch | loop => rfl

end Role

/-! ## What the walk comes to -/

namespace Renaming

open FlowGraph.Graph

variable (ρ : Renaming)

def resolved (r : Resolved) : Resolved := { r with id := ρ.node r.id }

/-- A node at a signal input. -/
def target (target : Resolved × Nat) : Resolved × Nat := (ρ.resolved target.1, target.2)

def producer (p : Producer) : Producer := ⟨ρ.port p.port, p.decl, ρ.resolved p.source⟩

def visit : Visit → Visit
  | .activate r input => .activate (ρ.resolved r) input
  | .compute p => .compute (ρ.producer p)

def event : Event → Event
  | .activate id => .activate (ρ.node id)
  | .compute p => .compute (ρ.port p)

/-- What a wire leads to, or why it leads nowhere. -/
def found {α β : Type} (f : α → β) : Except LooseWire α → Except LooseWire β
  | .ok a => .ok (f a)
  | .error problem => .error (ρ.problem problem)

theorem event_injective : Function.Injective ρ.event := by
  intro a b h
  cases a <;> cases b <;> simp_all [event, ρ.port_injective.eq_iff]

theorem frame_visit (v : Visit) : (ρ.visit v).frame = ρ.event v.frame := by cases v <;> rfl

theorem cycle_visit (v : Visit) : (ρ.visit v).cycle = ρ.error v.cycle := by cases v <;> rfl

theorem known?_visit (v : Visit) (d : Draft) : (ρ.visit v).known? (ρ.draft d) = v.known? d := by
  cases v with
  | activate r input => rfl
  | compute p => exact ρ.draft_shared? d p.port

theorem recipe_visit {g : Graph} {v : Visit} (h : v.Meant g) : (ρ.visit v).recipe = ρ.recipe v.recipe := by
  obtain ⟨role, -, -, hkind, -⟩ := role?_of_resolve h.resolve
  cases v with
  | activate r input =>
    show r.kind.behaviour.activate (ρ.site r.site) input = _
    rw [show r.kind = role.kind from hkind, role.activate_renamed ρ]
    rw [← show r.kind = role.kind from hkind]
    rfl
  | compute p =>
    show p.source.kind.behaviour.compute (ρ.site p.source.site) p.port.index = _
    rw [show p.source.kind = role.kind from hkind, role.compute_renamed ρ]
    rw [← show p.source.kind = role.kind from hkind]
    rfl

theorem reported_found {α β : Type} (f : α → β) (d : Draft) (x : Except LooseWire α) :
    reported (ρ.draft d) (ρ.found f x) = Prod.map (Option.map f) ρ.draft (reported d x) := by
  cases x with
  | ok a => rfl
  | error problem => simp [reported, found, ρ.draft_record]

theorem sourceAt_renamed (id : WireId) (w : Wire) (node : Option Resolved) :
    sourceAt (ρ.wire id) (ρ.ends w) (node.map ρ.resolved) = ρ.found ρ.producer (sourceAt id w node) := by
  cases node with
  | none => rfl
  | some source =>
    have houtputs : (ρ.resolved source).kind.outputs[(ρ.ends w).source.index]? =
        source.kind.outputs[w.source.index]? := rfl
    simp only [sourceAt, Option.map_some, houtputs]
    cases source.kind.outputs[w.source.index]? with
    | none => rfl
    | some decl => by_cases hsignal : decl.isSignal = true <;> simp only [hsignal] <;> rfl

theorem targetAt_renamed (id : WireId) (w : Wire) (node : Option Resolved) :
    targetAt (ρ.wire id) (ρ.ends w) (node.map ρ.resolved) =
      ρ.found ρ.target (targetAt id w node) := by
  cases node with
  | none => rfl
  | some r =>
    have hinputs : (ρ.resolved r).kind.inputs[(ρ.ends w).target.index]? = r.kind.inputs[w.target.index]? := rfl
    simp only [targetAt, Option.map_some, hinputs]
    cases r.kind.inputs[w.target.index]? with
    | none => rfl
    | some decl => by_cases hsignal : decl.isSignal = true <;> simp only [hsignal] <;> rfl

/-! ## Numbers that are kept -/

theorem same_error (e : GraphError) : same.error e = e := by cases e <;> rfl

theorem same_event (e : Event) : same.event e = e := by cases e <;> rfl

theorem same_events (opened : List Event) : opened.map same.event = opened := List.map_id'' same_event opened

theorem same_visit (v : Visit) : same.visit v = v := by cases v <;> rfl

theorem same_result {α : Type} (x : Except GraphError α) : same.result id x = x := by
  cases x with
  | ok a => rfl
  | error e => exact congrArg Except.error (same_error e)

end Renaming

end FlowGraph
