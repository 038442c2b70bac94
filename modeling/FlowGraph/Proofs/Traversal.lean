import Mathlib.Data.List.Nodup
import FlowGraph.Graph.Compile
import FlowGraph.Proofs.Interpretation

/-! # What the walk builds

    The walk of a graph of standard nodes, as two relations that say which
    code is built for what, and how the draft grows on the way.

    * `Pulls`: code for a value, built by going back along the wires.
    * `Pushes`: code behind a signal.

    Both also keep a log of the nodes that a signal reached and of the
    outputs that were computed. Main statement: a graph that compiles was
    walked in this way (`exists_walk_of_compile`).
-/

namespace FlowGraph

/-! ## The standard catalog by roles -/

namespace Role

theorem standard_kinds : Catalog.standard.kinds = (all.map kind).reverse := rfl

theorem names_nodup : (all.map fun role => role.kind.name).Nodup := by decide

/-- Two roles of one name are the same. -/
theorem eq_of_name_eq {a b : Role} (ha : a ∈ all) (hb : b ∈ all)
    (h : a.kind.name = b.kind.name) : a = b :=
  List.inj_on_of_nodup_map names_nodup ha hb h

/-- A kind of the standard catalog is the kind of the role of that name. -/
theorem of_standard_get? {name : String} {k : Kind} (h : Catalog.standard.get? name = some k) :
    ∃ role ∈ all, ofName? name = some role ∧ k = role.kind := by
  unfold Catalog.get? at h
  rw [standard_kinds] at h
  have hname : k.name = name := by simpa using List.find?_some h
  have hmem : k ∈ all.map kind := List.mem_reverse.mp (List.mem_of_find?_eq_some h)
  obtain ⟨role, hrole, rfl⟩ := List.mem_map.mp hmem
  refine ⟨role, hrole, ?_, rfl⟩
  cases hfound : ofName? name with
  | none =>
    have := List.find?_eq_none.mp hfound role hrole
    simp [hname] at this
  | some other =>
    have hother : other.kind.name = name := by simpa using List.find?_some hfound
    rw [eq_of_name_eq (List.mem_of_find?_eq_some hfound) hrole (hother.trans hname.symm)]

theorem mem_all_of_ofName? {name : String} {role : Role} (h : ofName? name = some role) :
    role ∈ all :=
  List.mem_of_find?_eq_some h

end Role

namespace Graph

/-- A step of the walk that succeeds is one step after the other. -/
theorem Walk.bind_eq_ok {α β : Type} {x : Walk α} {f : α → Walk β} {d : Draft} {r : β × Draft}
    (h : (x >>= f) d = .ok r) : ∃ a d', x d = .ok (a, d') ∧ f a d' = .ok r := by
  change (x d >>= fun s => f s.1 s.2) = .ok r at h
  cases hx : x d with
  | error e => rw [hx] at h; cases h
  | ok s => rw [hx] at h; exact ⟨s.1, s.2, rfl, h⟩

/-- A step of the walk that fails does so first or last. -/
theorem Walk.bind_eq_error {α β : Type} {x : Walk α} {f : α → Walk β} {d : Draft} {e : GraphError}
    (h : (x >>= f) d = .error e) : x d = .error e ∨ ∃ a d', x d = .ok (a, d') ∧ f a d' = .error e := by
  have hbind : (x >>= f) d = (x d >>= fun s => f s.1 s.2) := rfl
  rw [hbind] at h
  cases hx : x d with
  | error e' => rw [hx] at h; cases h; exact .inl rfl
  | ok s => rw [hx] at h; exact .inr ⟨s.1, s.2, rfl, h⟩

theorem Walk.bind_of_ok {α β : Type} {x : Walk α} {f : α → Walk β} {d d' : Draft} {a : α}
    (h : x d = .ok (a, d')) : (x >>= f) d = f a d' := by
  show (x d >>= fun s => f s.1 s.2) = _
  rw [h]
  rfl

theorem Walk.bind_of_error {α β : Type} {x : Walk α} {f : α → Walk β} {d : Draft} {e : GraphError}
    (h : x d = .error e) : (x >>= f) d = .error e := by
  show (x d >>= fun s => f s.1 s.2) = _
  rw [h]
  rfl

/-! ## The relations -/

/-- What the walk came to. -/
inductive Event where
  /-- A signal reached a node. -/
  | activate (id : NodeId)
  /-- The kind of a node was asked for the code of an output. -/
  | compute (p : Port)
  deriving DecidableEq, Repr

/-- What code for a value is needed for. -/
inductive Need where
  /-- An input, in the form that it declares. -/
  | input (p : Port)
  /-- An output, which may have been computed already. -/
  | output (p : Port)
  /-- An output, computed by the kind of its node. -/
  | result (p : Port)

/-- Code for a value. `opened` are the outputs that are being computed. -/
inductive Pulls (g : Graph) : List Port → Need → Draft → Code → Draft → List Event → Prop
  | own {opened p node role decl d} (problems : List LooseWire) :
    g.role? p.node = some (node, role) → role.kind.inputs[p.index]? = some decl →
    decl.isSignal = false → g.driver? p = none →
    Pulls g opened (.input p) d (unconnected ⟨p.node, node, role.kind⟩ p.index decl)
      { d with problems := problems } []
  | driven {opened p node role decl source produced d c d' log} :
    g.role? p.node = some (node, role) → role.kind.inputs[p.index]? = some decl →
    decl.isSignal = false → g.driver? p = some (source, produced) →
    Pulls g opened (.output source) d c d' log →
    Pulls g opened (.input p) d (adapt produced decl c) d' log
  | recalled {opened p d c} :
    d.shared? p = some c → Pulls g opened (.output p) d c d []
  | single {opened p d c d' log} :
    d.shared? p = none → p ∉ opened → (g.leaving p).length ≤ 1 →
    Pulls g (p :: opened) (.result p) d c d' log →
    Pulls g opened (.output p) d c d' (log ++ [.compute p])
  | shared {opened p decl d c d' log} :
    d.shared? p = none → p ∉ opened → 1 < (g.leaving p).length → g.output? p = some decl →
    Pulls g (p :: opened) (.result p) d c d' log →
    Pulls g opened (.output p) d (d'.share p c decl.default).1 (d'.share p c decl.default).2
      (log ++ [.compute p])
  | constant {opened id node c d code d' log} :
    g.role? id = some (node, .constant c) →
    Pulls g opened (.input ⟨id, 0⟩) d code d' log →
    Pulls g opened (.result ⟨id, 0⟩) d code d' log
  | getVariable {opened id node c name d} :
    g.role? id = some (node, .getVariable c) → node.tag = some name →
    Pulls g opened (.result ⟨id, 0⟩) d (.getVariable name) d []
  | query {opened id node c d} :
    g.role? id = some (node, .query c) →
    Pulls g opened (.result ⟨id, 0⟩) d
      (.block c.native [.op (.invoke (node.tag.getD ("query_" ++ c.name)) 0 c.native) c.native]) d []
  | arith {opened id node f d x d₁ log₁ y d₂ log₂} :
    g.role? id = some (node, .arith f) →
    Pulls g opened (.input ⟨id, 0⟩) d x d₁ log₁ →
    Pulls g opened (.input ⟨id, 1⟩) d₁ y d₂ log₂ →
    Pulls g opened (.result ⟨id, 0⟩) d (.arith f x y) d₂ (log₁ ++ log₂)
  | compare {opened id node f d x d₁ log₁ y d₂ log₂} :
    g.role? id = some (node, .compare f) →
    Pulls g opened (.input ⟨id, 0⟩) d x d₁ log₁ →
    Pulls g opened (.input ⟨id, 1⟩) d₁ y d₂ log₂ →
    Pulls g opened (.result ⟨id, 0⟩) d (.compare f x y) d₂ (log₁ ++ log₂)
  | not {opened id node d x d' log} :
    g.role? id = some (node, .not) →
    Pulls g opened (.input ⟨id, 0⟩) d x d' log →
    Pulls g opened (.result ⟨id, 0⟩) d (.block .boolean [x, .op .not .boolean]) d' log
  | mathConstant {opened id node d} :
    g.role? id = some (node, .mathConstant) →
    Pulls g opened (.result ⟨id, 0⟩) d
      (.op (.getStatic "Math" (node.tag.getD "PI") .double) .double) d []

/-- What a signal does next. -/
inductive Signal where
  /-- It runs a node. -/
  | node (id : NodeId)
  /-- It takes wires, one after the other. -/
  | wires (list : List (WireId × Wire))

/-- Code behind a signal. -/
inductive Pushes (g : Graph) : Signal → Draft → Code → Draft → List Event → Prop
  | branch {id node d c d₁ log₁ yes d₂ log₂ no d₃ log₃} :
    g.role? id = some (node, .branch) →
    Pulls g [] (.input ⟨id, 1⟩) d c d₁ log₁ →
    Pushes g (.wires (g.leaving ⟨id, 0⟩)) d₁ yes d₂ log₂ →
    Pushes g (.wires (g.leaving ⟨id, 1⟩)) d₂ no d₃ log₃ →
    Pushes g (.node id) d (.branch c yes no) d₃ (.activate id :: (log₁ ++ log₂ ++ log₃))
  | loop {id node d times d₁ log₁ body d₂ log₂ next d₃ log₃} :
    g.role? id = some (node, .loop) →
    Pulls g [] (.input ⟨id, 1⟩) d times d₁ log₁ →
    Pushes g (.wires (g.leaving ⟨id, 0⟩)) d₁ body d₂ log₂ →
    Pushes g (.wires (g.leaving ⟨id, 1⟩)) d₂ next d₃ log₃ →
    Pushes g (.node id) d (.block .void [.loop times body, next]) d₃
      (.activate id :: (log₁ ++ log₂ ++ log₃))
  | setVariable {id node c name d value d₁ log₁ next d₂ log₂} :
    g.role? id = some (node, .setVariable c) → node.tag = some name →
    Pulls g [] (.input ⟨id, 1⟩) d value d₁ log₁ →
    Pushes g (.wires (g.leaving ⟨id, 0⟩)) d₁ next d₂ log₂ →
    Pushes g (.node id) d (.block .void [.setVariable name value, next]) d₂
      (.activate id :: (log₁ ++ log₂))
  | emit {id node c d value d₁ log₁ next d₂ log₂} :
    g.role? id = some (node, .emit c) →
    Pulls g [] (.input ⟨id, 1⟩) d value d₁ log₁ →
    Pushes g (.wires (g.leaving ⟨id, 0⟩)) d₁ next d₂ log₂ →
    Pushes g (.node id) d
      (.block .void
        [.block .void [value, .op (.invoke (node.tag.getD ("emit_" ++ c.name)) 1 .void) .void], next])
      d₂ (.activate id :: (log₁ ++ log₂))
  | nil {d} : Pushes g (.wires []) d (.done .void) d []
  | skip {w rest d code d' log} (problems : List LooseWire) :
    g.isSignalInput w.2.target = false →
    Pushes g (.wires rest) { d with problems := problems } code d' log →
    Pushes g (.wires (w :: rest)) d code d' log
  | cons {w rest d first d₁ log₁ others d₂ log₂} :
    g.isSignalInput w.2.target = true →
    Pushes g (.node w.2.target.node) d first d₁ log₁ →
    Pushes g (.wires rest) d₁ others d₂ log₂ →
    Pushes g (.wires (w :: rest)) d (.andThen first others) d₂ (log₁ ++ log₂)

/-- Code behind outputs, one after the other. -/
inductive Starts (g : Graph) : List Port → Draft → Code → Draft → List Event → Prop
  | nil {d} : Starts g [] d (.done .void) d []
  | cons {p rest d first d₁ log₁ others d₂ log₂} :
    Pushes g (.wires (g.leaving p)) d first d₁ log₁ →
    Starts g rest d₁ others d₂ log₂ →
    Starts g (p :: rest) d (.andThen first others) d₂ (log₁ ++ log₂)

/-! ## From the walk to the relations -/

/-- A resolved node is there, and of a kind that the catalog has. -/
theorem node?_of_resolve {g : Graph} {catalog : Catalog} {id : NodeId} {r : Resolved}
    (h : g.resolve catalog id = .ok (some r)) :
    r.id = id ∧ g.node? id = some r.node ∧ catalog.get? r.node.kind = some r.kind := by
  unfold resolve at h
  cases hnode : g.node? id with
  | none => simp [hnode] at h
  | some node =>
    simp only [hnode] at h
    split at h
    · cases h
    · next hkind =>
      split at h
      · cases h
      · cases h
        exact ⟨rfl, rfl, hkind⟩

theorem node?_of_resolve_none {g : Graph} {catalog : Catalog} {id : NodeId}
    (h : g.resolve catalog id = .ok none) : g.node? id = none := by
  unfold resolve at h
  cases hnode : g.node? id with
  | none => rfl
  | some node =>
    simp only [hnode] at h
    split at h
    · cases h
    · split at h <;> cases h

theorem role?_of_resolve {g : Graph} {id : NodeId} {r : Resolved}
    (h : g.resolve .standard id = .ok (some r)) :
    ∃ role ∈ Role.all, g.role? id = some (r.node, role) ∧ r.kind = role.kind ∧ r.id = id := by
  obtain ⟨hid, hnode, hkind⟩ := node?_of_resolve h
  obtain ⟨role, hmem, hname, hrole⟩ := Role.of_standard_get? hkind
  exact ⟨role, hmem, by simp [role?, hnode, hname], hrole, hid⟩

/-- A node that was removed has no role. -/
theorem role?_of_resolve_none {g : Graph} {id : NodeId}
    (h : g.resolve .standard id = .ok none) : g.role? id = none := by
  simp [role?, node?_of_resolve_none h]

/-- The kinds of resolved ports. -/
theorem output?_of_resolve {g : Graph} {p : Port} {r : Resolved}
    (h : g.resolve .standard p.node = .ok (some r)) : g.output? p = r.kind.outputs[p.index]? := by
  obtain ⟨role, -, hrole, hkind, -⟩ := role?_of_resolve h
  simp [output?, hrole, hkind]

theorem input?_of_resolve {g : Graph} {p : Port} {r : Resolved}
    (h : g.resolve .standard p.node = .ok (some r)) : g.input? p = r.kind.inputs[p.index]? := by
  obtain ⟨role, -, hrole, hkind, -⟩ := role?_of_resolve h
  simp [input?, hrole, hkind]

theorem output?_of_resolve_none {g : Graph} {p : Port}
    (h : g.resolve .standard p.node = .ok none) : g.output? p = none := by
  simp [output?, role?_of_resolve_none h]

theorem input?_of_resolve_none {g : Graph} {p : Port}
    (h : g.resolve .standard p.node = .ok none) : g.input? p = none := by
  simp [input?, role?_of_resolve_none h]

/-- A producer that the walk may compute: a value output of a standard node. -/
structure Producer.Resolves (g : Graph) (producer : Producer) : Prop where
  source : g.resolve .standard producer.port.node = .ok (some producer.source)
  decl : producer.source.kind.outputs[producer.port.index]? = some producer.decl
  value : producer.decl.isSignal = false

/-! ## The ends of a wire

    Both ends of a wire are looked up in the same way: the node is resolved
    and its port examined, and a port that does not fit is reported. -/

/-- What was found, or nothing and a problem on record. -/
def reported {α : Type} (d : Draft) : Except LooseWire α → Option α × Draft
  | .ok a => (some a, d)
  | .error problem => (none, d.record problem)

/-- The output at the start of a wire, if this node is there. -/
def sourceAt (id : WireId) (w : Wire) : Option Resolved → Except LooseWire Producer
  | none => .error (.missingSource id w.source.node)
  | some source =>
    match source.kind.outputs[w.source.index]? with
    | none => .error (.missingOutput id w.source)
    | some decl =>
      if decl.isSignal then .error (.signalIntoValue id w.target) else .ok ⟨w.source, decl, source⟩

/-- The signal input at the end of a wire, if this node is there. -/
def targetAt (id : WireId) (w : Wire) : Option Resolved → Except LooseWire (Resolved × Nat)
  | none => .error (.missingTarget id w.target.node)
  | some r =>
    match r.kind.inputs[w.target.index]? with
    | none => .error (.missingInput id w.target)
    | some decl =>
      if decl.isSignal then .ok (r, w.target.index) else .error (.signalIntoValue id w.target)

theorem producer?_apply (g : Graph) (catalog : Catalog) (id : WireId) (w : Wire) (d : Draft) :
    g.producer? catalog id w d =
      (g.resolve catalog w.source.node).map fun found => reported d (sourceAt id w found) := by
  unfold producer?
  cases g.resolve catalog w.source.node with
  | error e => rfl
  | ok found =>
    cases found with
    | none => rfl
    | some source =>
      show (match source.kind.outputs[w.source.index]? with | none => _ | some decl => _ : Walk _) d = _
      simp only [sourceAt, Except.map]
      cases source.kind.outputs[w.source.index]? with
      | none => rfl
      | some decl => cases hsignal : decl.isSignal <;> simp only [hsignal] <;> rfl

theorem target?_apply (g : Graph) (catalog : Catalog) (id : WireId) (w : Wire) (d : Draft) :
    g.target? catalog id w d =
      (g.resolve catalog w.target.node).map fun found => reported d (targetAt id w found) := by
  unfold target?
  cases g.resolve catalog w.target.node with
  | error e => rfl
  | ok found =>
    cases found with
    | none => rfl
    | some r =>
      show (match r.kind.inputs[w.target.index]? with | none => _ | some decl => _ : Walk _) d = _
      simp only [targetAt, Except.map]
      cases r.kind.inputs[w.target.index]? with
      | none => rfl
      | some decl => cases hsignal : decl.isSignal <;> simp only [hsignal] <;> rfl

theorem exists_of_producer? {g : Graph} {catalog : Catalog} {id : WireId} {w : Wire} {d : Draft}
    {r : Option Producer × Draft} (h : g.producer? catalog id w d = .ok r) :
    ∃ found, g.resolve catalog w.source.node = .ok found ∧ r = reported d (sourceAt id w found) := by
  rw [producer?_apply] at h
  cases hresolve : g.resolve catalog w.source.node with
  | error e => simp [hresolve, Except.map] at h
  | ok found => exact ⟨found, rfl, by simpa [hresolve, Except.map] using h.symm⟩

theorem exists_of_target? {g : Graph} {catalog : Catalog} {id : WireId} {w : Wire} {d : Draft}
    {r : Option (Resolved × Nat) × Draft} (h : g.target? catalog id w d = .ok r) :
    ∃ found, g.resolve catalog w.target.node = .ok found ∧ r = reported d (targetAt id w found) := by
  rw [target?_apply] at h
  cases hresolve : g.resolve catalog w.target.node with
  | error e => simp [hresolve, Except.map] at h
  | ok found => exact ⟨found, rfl, by simpa [hresolve, Except.map] using h.symm⟩

/-- Reporting a problem changes nothing else. -/
theorem exists_reported_eq {α : Type} (d : Draft) (result : Except LooseWire α) :
    ∃ problems, (reported d result).2 = { d with problems := problems } := by
  cases result with
  | ok a => exact ⟨d.problems, rfl⟩
  | error problem =>
    show ∃ problems, d.record problem = { d with problems := problems }
    unfold Draft.record
    split
    · exact ⟨d.problems, rfl⟩
    · exact ⟨_, rfl⟩

theorem of_sourceAt_eq_ok {id : WireId} {w : Wire} {found : Option Resolved} {producer : Producer}
    (h : sourceAt id w found = .ok producer) : found = some producer.source ∧ producer.port = w.source ∧
      producer.source.kind.outputs[w.source.index]? = some producer.decl ∧ producer.decl.isSignal = false := by
  unfold sourceAt at h
  split at h
  · cases h
  · split at h
    · cases h
    · next hdecl =>
      split at h
      · cases h
      · next hsignal =>
        cases h
        exact ⟨rfl, rfl, hdecl, by simpa using hsignal⟩

theorem of_targetAt_eq_ok {id : WireId} {w : Wire} {found : Option Resolved} {target : Resolved × Nat}
    (h : targetAt id w found = .ok target) : found = some target.1 ∧ target.2 = w.target.index ∧
      ∃ decl, target.1.kind.inputs[w.target.index]? = some decl ∧ decl.isSignal = true := by
  unfold targetAt at h
  split at h
  · cases h
  · split at h
    · cases h
    · next decl hdecl =>
      split at h
      · next hsignal =>
        cases h
        exact ⟨rfl, rfl, decl, hdecl, hsignal⟩
      · cases h

/-- The output that is found at the start of a wire to a value input. -/
theorem resolves_of_producer? {g : Graph} {id : WireId} {w : Wire} {d d' : Draft} {producer : Producer}
    (h : g.producer? .standard id w d = .ok (some producer, d')) :
    d' = d ∧ producer.port = w.source ∧ producer.Resolves g := by
  obtain ⟨found, hresolve, heq⟩ := exists_of_producer? h
  cases hsource : sourceAt id w found with
  | ok producer' =>
    rw [hsource] at heq
    cases heq
    obtain ⟨rfl, hport, hdecl, hvalue⟩ := of_sourceAt_eq_ok hsource
    exact ⟨rfl, hport, hport ▸ hresolve, hport ▸ hdecl, hvalue⟩
  | error problem =>
    rw [hsource] at heq
    cases heq

/-- If none is found there, then only because no value leaves that port. -/
theorem loose_of_producer? {g : Graph} {id : WireId} {w : Wire} {d d' : Draft}
    (h : g.producer? .standard id w d = .ok (none, d')) :
    (∃ problems, d' = { d with problems := problems }) ∧
      ∀ decl, g.output? w.source = some decl → decl.isSignal = true := by
  obtain ⟨found, hresolve, heq⟩ := exists_of_producer? h
  obtain ⟨problems, hreported⟩ := exists_reported_eq d (sourceAt id w found)
  refine ⟨⟨problems, hreported ▸ congrArg Prod.snd heq⟩, fun decl hdecl => ?_⟩
  cases found with
  | none => simp [output?_of_resolve_none hresolve] at hdecl
  | some source =>
    rw [output?_of_resolve hresolve] at hdecl
    by_contra hvalue
    simp [sourceAt, reported, hdecl, hvalue] at heq

/-- The output at the start of the only wire drives the input. -/
theorem driver?_of_arriving {g : Graph} {p : Port} {id : WireId} {w : Wire} {producer : Producer}
    (hwires : g.arriving p = [(id, w)]) (hport : producer.port = w.source) (hres : producer.Resolves g) :
    g.driver? p = some (producer.port, producer.decl) := by
  have houtput : g.output? w.source = some producer.decl := by
    rw [← hport, output?_of_resolve hres.source, hres.decl]
  simp [driver?, hwires, houtput, hres.value, hport]

/-- An input takes its own value if nothing arrives or if the only wire brings
    none, and else the value that the wire brings. -/
theorem arriving_of_inputWith {g : Graph} {catalog : Catalog} {compute : Producer → Walk Code} {r : Resolved}
    {index : Nat} {d d' : Draft} {c : Code} (h : g.inputWith catalog compute r index d = .ok (c, d')) :
    ∃ decl, r.kind.inputs[index]? = some decl ∧ decl.isSignal = false ∧
      ((g.arriving ⟨r.id, index⟩ = [] ∧ c = unconnected r index decl ∧ d' = d) ∨
        ∃ id w, g.arriving ⟨r.id, index⟩ = [(id, w)] ∧
          ((g.producer? catalog id w d = .ok (none, d') ∧ c = unconnected r index decl) ∨
            ∃ producer d₁ value, g.producer? catalog id w d = .ok (some producer, d₁) ∧
              compute producer d₁ = .ok (value, d') ∧ c = adapt producer.decl decl value)) := by
  unfold inputWith at h
  cases hdecl : r.kind.inputs[index]? with
  | none => simp only [hdecl] at h; cases h
  | some decl =>
    simp only [hdecl] at h
    by_cases hsignal : decl.isSignal = true
    · simp only [hsignal, if_true] at h
      cases h
    simp only [hsignal] at h
    refine ⟨decl, rfl, by simpa using hsignal, ?_⟩
    rcases hwires : g.arriving ⟨r.id, index⟩ with _ | ⟨⟨id, w⟩, _ | ⟨_, _⟩⟩
    · -- nothing arrives
      simp only [hwires] at h
      cases h
      exact .inl ⟨rfl, rfl, rfl⟩
    · -- one wire arrives, with a value or with none
      simp only [hwires] at h
      obtain ⟨found, d₁, hproducer, hrest⟩ := Walk.bind_eq_ok h
      refine .inr ⟨id, w, rfl, ?_⟩
      cases found with
      | none =>
        cases hrest
        exact .inl ⟨hproducer, rfl⟩
      | some producer =>
        obtain ⟨value, d₂, hcompute, hdone⟩ := Walk.bind_eq_ok hrest
        cases hdone
        exact .inr ⟨producer, d₁, value, hproducer, hcompute, rfl⟩
    · -- several wires are an error
      simp only [hwires] at h
      cases h

/-- The value of an input is its own, or comes from the output that drives it. -/
theorem inputWith_eq_ok {g : Graph} {compute : Producer → Walk Code} {r : Resolved} {role : Role}
    {index : Nat} {d d' : Draft} {c : Code} (hkind : r.kind = role.kind)
    (h : g.inputWith .standard compute r index d = .ok (c, d')) :
    ∃ decl, role.kind.inputs[index]? = some decl ∧ decl.isSignal = false ∧
      ((g.driver? ⟨r.id, index⟩ = none ∧ c = unconnected ⟨r.id, r.node, role.kind⟩ index decl ∧
          ∃ problems, d' = { d with problems := problems }) ∨
        ∃ producer value, producer.Resolves g ∧
          g.driver? ⟨r.id, index⟩ = some (producer.port, producer.decl) ∧
          compute producer d = .ok (value, d') ∧ c = adapt producer.decl decl value) := by
  obtain ⟨decl, hdecl, hvalue, hcases⟩ := arriving_of_inputWith h
  rw [← hkind]
  refine ⟨decl, hdecl, hvalue, ?_⟩
  rcases hcases with ⟨hwires, rfl, rfl⟩ | ⟨id, w, hwires, hfound⟩
  · exact .inl ⟨by simp [driver?, hwires], rfl, d'.problems, rfl⟩
  · rcases hfound with ⟨hproducer, rfl⟩ | ⟨producer, d₁, value, hproducer, hcompute, rfl⟩
    · -- a wire that brings no value drives nothing
      obtain ⟨hproblems, hloose⟩ := loose_of_producer? hproducer
      refine .inl ⟨?_, rfl, hproblems⟩
      cases houtput : g.output? w.source with
      | none => simp [driver?, hwires, houtput]
      | some produced => simp [driver?, hwires, houtput, hloose produced houtput]
    · obtain ⟨rfl, hport, hres⟩ := resolves_of_producer? hproducer
      exact .inr ⟨producer, value, hres, driver?_of_arriving hwires hport hres, hcompute, rfl⟩

/-- What is at the end of a wire that a signal takes. -/
theorem target?_eq_ok {g : Graph} {id : WireId} {w : Wire} {d : Draft}
    {r : Option (Resolved × Nat) × Draft} (h : g.target? .standard id w d = .ok r) :
    (r.1 = none ∧ (∃ problems, r.2 = { d with problems := problems }) ∧
      g.isSignalInput w.target = false) ∨
    (∃ node, r = (some (node, w.target.index), d) ∧ g.isSignalInput w.target = true ∧
      g.resolve .standard w.target.node = .ok (some node)) := by
  obtain ⟨found, hresolve, rfl⟩ := exists_of_target? h
  have hreported := exists_reported_eq d (targetAt id w found)
  cases htarget : targetAt id w found with
  | ok target =>
    obtain ⟨node, index⟩ := target
    obtain ⟨rfl, rfl, decl, hdecl, hsignal⟩ := of_targetAt_eq_ok htarget
    exact .inr ⟨node, rfl, by simp [isSignalInput, input?_of_resolve hresolve, hdecl, hsignal], hresolve⟩
  | error problem =>
    refine .inl ⟨rfl, htarget ▸ hreported, ?_⟩
    cases found with
    | none => simp [isSignalInput, input?_of_resolve_none hresolve]
    | some node =>
      rw [isSignalInput, input?_of_resolve hresolve]
      cases hdecl : node.kind.inputs[w.target.index]? with
      | none => rfl
      | some decl =>
        by_contra hsignal
        simp [targetAt, hdecl, by simpa using hsignal] at htarget

/-- A wire runs no node, or the node at its end before what the other wires run. -/
theorem followWires_eq_ok {g : Graph} {activate : Resolved → Nat → Walk Code} {id : WireId} {w : Wire}
    {rest : List (WireId × Wire)} {d d' : Draft} {c : Code}
    (h : g.followWires .standard activate ((id, w) :: rest) d = .ok (c, d')) :
    (∃ d₁, g.target? .standard id w d = .ok (none, d₁) ∧ g.isSignalInput w.target = false ∧
      (∃ problems, d₁ = { d with problems := problems }) ∧
      g.followWires .standard activate rest d₁ = .ok (c, d')) ∨
    ∃ r first d₁ others, g.isSignalInput w.target = true ∧
      g.resolve .standard w.target.node = .ok (some r) ∧
      activate r w.target.index d = .ok (first, d₁) ∧
      g.followWires .standard activate rest d₁ = .ok (others, d') ∧ c = .andThen first others := by
  obtain ⟨found, d₁, htarget, hothers⟩ := Walk.bind_eq_ok h
  rcases target?_eq_ok htarget with ⟨hnone, hproblems, hsignal⟩ | ⟨r, heq, hsignal, hresolve⟩
  · obtain rfl : found = none := hnone
    exact .inl ⟨d₁, htarget, hsignal, hproblems, hothers⟩
  · obtain ⟨rfl, rfl⟩ := Prod.mk.inj heq
    obtain ⟨first, d₂, hfirst, hlast⟩ := Walk.bind_eq_ok hothers
    obtain ⟨others, d₃, hlast, hdone⟩ := Walk.bind_eq_ok hlast
    cases hdone
    exact .inr ⟨r, first, d₂, others, hsignal, hresolve, hfirst, hlast, rfl⟩

/-- Code for an input is pulled if code for the output behind it is. -/
theorem exists_pulls_of_inputWith {g : Graph} {opened : List Port} {compute : Producer → Walk Code}
    {r : Resolved} {role : Role} (hkind : r.kind = role.kind)
    (hrole : g.role? r.id = some (r.node, role))
    (hcompute : ∀ producer d c d', producer.Resolves g → compute producer d = .ok (c, d') →
      ∃ log, Pulls g opened (.output producer.port) d c d' log)
    {index : Nat} {d d' : Draft} {c : Code}
    (h : g.inputWith .standard compute r index d = .ok (c, d')) :
    ∃ log, Pulls g opened (.input ⟨r.id, index⟩) d c d' log := by
  obtain ⟨decl, hdecl, hvalue, hcases⟩ := inputWith_eq_ok hkind h
  rcases hcases with ⟨hnone, rfl, problems, rfl⟩ | ⟨producer, value, hres, hdriver, hcomputed, rfl⟩
  · exact ⟨[], .own problems hrole hdecl hvalue hnone⟩
  · obtain ⟨log, hpulls⟩ := hcompute producer d value d' hres hcomputed
    exact ⟨log, .driven hrole hdecl hvalue hdriver hpulls⟩

/-- Computing an output follows the recipe of the role of its node. -/
theorem exists_pulls_of_perform {g : Graph} {opened : List Port} {r : Resolved} {role : Role}
    {input follow : Nat → Walk Code} {index : Nat} {d d' : Draft} {c : Code}
    (hkind : r.kind = role.kind) (hrole : g.role? r.id = some (r.node, role))
    (hinput : ∀ index d c d', input index d = .ok (c, d') →
      ∃ log, Pulls g opened (.input ⟨r.id, index⟩) d c d' log)
    (h : perform input follow (r.kind.behaviour.compute r.site index) d = .ok (c, d')) :
    ∃ log, Pulls g opened (.result ⟨r.id, index⟩) d c d' log := by
  rw [hkind] at h
  -- Only outputs with index zero are computed; the recipes of all others fail.
  have hzero : index = 0 := by
    by_contra hne
    cases role <;> simp [Role.kind, Kind.constant, Kind.getVariable, Kind.query, Kind.arith,
      Kind.compare, Kind.not, Kind.mathConstant, Behaviour.constant, Behaviour.getVariable,
      Behaviour.query, Behaviour.arith, Behaviour.compare, Behaviour.not, Behaviour.mathConstant,
      Behaviour.single, hne] at h <;> cases h
  subst hzero
  cases role with
  | start => cases h
  | setVariable c => cases h
  | emit c => cases h
  | branch => cases h
  | loop => cases h
  | constant category =>
    obtain ⟨x, d₁, hx, hdone⟩ := Walk.bind_eq_ok h
    obtain ⟨log, hpulls⟩ := hinput 0 _ _ _ hx
    cases hdone
    exact ⟨log, .constant hrole hpulls⟩
  | getVariable category =>
    cases htag : r.node.tag with
    | none =>
      simp [Role.kind, Kind.getVariable, Behaviour.getVariable, Behaviour.single, Site.requireTag,
        Resolved.site, htag, Bind.bind, Recipe.bind, perform] at h
      cases h
    | some name =>
      simp [Role.kind, Kind.getVariable, Behaviour.getVariable, Behaviour.single, Site.requireTag,
        Resolved.site, htag, Bind.bind, Recipe.bind] at h
      cases h
      exact ⟨[], .getVariable hrole htag⟩
  | query category =>
    cases h
    exact ⟨[], .query hrole⟩
  | arith f =>
    obtain ⟨x, d₁, hx, hrest⟩ := Walk.bind_eq_ok h
    obtain ⟨y, d₂, hy, hdone⟩ := Walk.bind_eq_ok hrest
    obtain ⟨log₁, hpulls₁⟩ := hinput 0 _ _ _ hx
    obtain ⟨log₂, hpulls₂⟩ := hinput 1 _ _ _ hy
    cases hdone
    exact ⟨log₁ ++ log₂, .arith hrole hpulls₁ hpulls₂⟩
  | compare f =>
    obtain ⟨x, d₁, hx, hrest⟩ := Walk.bind_eq_ok h
    obtain ⟨y, d₂, hy, hdone⟩ := Walk.bind_eq_ok hrest
    obtain ⟨log₁, hpulls₁⟩ := hinput 0 _ _ _ hx
    obtain ⟨log₂, hpulls₂⟩ := hinput 1 _ _ _ hy
    cases hdone
    exact ⟨log₁ ++ log₂, .compare hrole hpulls₁ hpulls₂⟩
  | not =>
    obtain ⟨x, d₁, hx, hdone⟩ := Walk.bind_eq_ok h
    obtain ⟨log, hpulls⟩ := hinput 0 _ _ _ hx
    cases hdone
    exact ⟨log, .not hrole hpulls⟩
  | mathConstant =>
    cases h
    exact ⟨[], .mathConstant hrole⟩

/-- The walk backwards along the wires. The induction is on the depth that is
    left to the walk. -/
theorem exists_pulls_of_visit {g : Graph} {depth : Nat} {active : List NodeId} {opened : List Port}
    {producer : Producer} {d d' : Draft} {c : Code} (hres : producer.Resolves g)
    (h : visit g .standard depth active opened (.compute producer) d = .ok (c, d')) :
    ∃ log, Pulls g opened (.output producer.port) d c d' log := by
  induction depth generalizing opened producer d d' c with
  | zero => cases h
  | succ depth ih =>
    obtain ⟨d₀, d₁, hget, hrest⟩ := Walk.bind_eq_ok h
    cases hget
    -- what is known comes first, before the outputs that are open are looked at
    cases hshared : d.shared? producer.port with
    | some code =>
      simp only [hshared] at hrest
      cases hrest
      exact ⟨[], .recalled hshared⟩
    | none =>
      simp only [hshared] at hrest
      by_cases hopen : producer.port ∈ opened
      · simp only [hopen, if_true] at hrest
        cases hrest
      · simp only [hopen, if_false] at hrest
        obtain ⟨value, d₂, hperform, hshare⟩ := Walk.bind_eq_ok hrest
        obtain ⟨role, -, hrole, hkind, hid⟩ := role?_of_resolve hres.source
        rw [← hid] at hrole
        have hport : (⟨producer.source.id, producer.port.index⟩ : Port) = producer.port := by
          rw [hid]
        obtain ⟨log, hpulls⟩ := exists_pulls_of_perform hkind hrole
          (fun _ _ _ _ => exists_pulls_of_inputWith hkind hrole fun _ _ _ _ hres h => ih hres h)
          hperform
        rw [hport] at hpulls
        -- one wire, and the code is used where it leads to; several, and it is shared
        unfold shareIfNeeded at hshare
        split at hshare
        · next hle =>
          cases hshare
          exact ⟨_, .single hshared hopen hle hpulls⟩
        · next hle =>
          cases hshare
          have houtput : g.output? producer.port = some producer.decl := by
            rw [output?_of_resolve hres.source, hres.decl]
          exact ⟨_, .shared hshared hopen (by omega) houtput hpulls⟩

/-- Following wires is pushing through them if activating nodes is. -/
theorem exists_pushes_of_followWires {g : Graph} {activate : Resolved → Nat → Walk Code}
    (hactivate : ∀ r index d c d', g.resolve .standard r.id = .ok (some r) →
      activate r index d = .ok (c, d') → ∃ log, Pushes g (.node r.id) d c d' log)
    {wires : List (WireId × Wire)} {d d' : Draft} {c : Code}
    (h : g.followWires .standard activate wires d = .ok (c, d')) :
    ∃ log, Pushes g (.wires wires) d c d' log := by
  induction wires generalizing d d' c with
  | nil =>
    cases h
    exact ⟨[], .nil⟩
  | cons head rest ih =>
    obtain ⟨id, w⟩ := head
    rcases followWires_eq_ok h with ⟨d₁, -, hsignal, ⟨problems, rfl⟩, hothers⟩ |
      ⟨r, first, d₁, others, hsignal, hresolve, hfirst, hothers, rfl⟩
    · obtain ⟨log, hpushes⟩ := ih hothers
      exact ⟨log, .skip problems hsignal hpushes⟩
    · obtain ⟨role, -, -, -, hid⟩ := role?_of_resolve hresolve
      rw [← hid] at hresolve
      obtain ⟨log₁, hpushes₁⟩ := hactivate r _ _ _ _ hresolve hfirst
      rw [hid] at hpushes₁
      obtain ⟨log₂, hpushes₂⟩ := ih hothers
      exact ⟨log₁ ++ log₂, .cons hsignal hpushes₁ hpushes₂⟩

theorem exists_pushes_of_followWith {g : Graph} {activate : Resolved → Nat → Walk Code}
    (hactivate : ∀ r index d c d', g.resolve .standard r.id = .ok (some r) →
      activate r index d = .ok (c, d') → ∃ log, Pushes g (.node r.id) d c d' log)
    {r : Resolved} {index : Nat} {d d' : Draft} {c : Code}
    (h : g.followWith .standard activate r index d = .ok (c, d')) :
    ∃ log, Pushes g (.wires (g.leaving ⟨r.id, index⟩)) d c d' log := by
  unfold followWith at h
  cases hdecl : r.kind.outputs[index]? with
  | none => simp only [hdecl] at h; cases h
  | some decl =>
    simp only [hdecl] at h
    split at h
    · exact exists_pushes_of_followWires hactivate h
    · cases h

/-- Running a node follows the recipe of its role. -/
theorem exists_pushes_of_perform {g : Graph} {r : Resolved} {role : Role}
    {input follow : Nat → Walk Code} {index : Nat} {d d' : Draft} {c : Code}
    (hkind : r.kind = role.kind) (hrole : g.role? r.id = some (r.node, role))
    (hinput : ∀ index d c d', input index d = .ok (c, d') →
      ∃ log, Pulls g [] (.input ⟨r.id, index⟩) d c d' log)
    (hfollow : ∀ index d c d', follow index d = .ok (c, d') →
      ∃ log, Pushes g (.wires (g.leaving ⟨r.id, index⟩)) d c d' log)
    (h : perform input follow (r.kind.behaviour.activate r.site index) d = .ok (c, d')) :
    ∃ log, Pushes g (.node r.id) d c d' log := by
  rw [hkind] at h
  -- only the last four roles can be activated, the recipes of the others fail at once
  cases role with
  | start => cases h
  | constant category => cases h
  | getVariable category => cases h
  | query category => cases h
  | arith f => cases h
  | compare f => cases h
  | not => cases h
  | mathConstant => cases h
  | branch =>
    obtain ⟨condition, d₁, hcondition, hrest⟩ := Walk.bind_eq_ok h
    obtain ⟨yes, d₂, hyes, hrest⟩ := Walk.bind_eq_ok hrest
    obtain ⟨no, d₃, hno, hdone⟩ := Walk.bind_eq_ok hrest
    obtain ⟨log₁, hpulls⟩ := hinput 1 _ _ _ hcondition
    obtain ⟨log₂, hpushes₁⟩ := hfollow 0 _ _ _ hyes
    obtain ⟨log₃, hpushes₂⟩ := hfollow 1 _ _ _ hno
    cases hdone
    exact ⟨_, .branch hrole hpulls hpushes₁ hpushes₂⟩
  | loop =>
    obtain ⟨times, d₁, htimes, hrest⟩ := Walk.bind_eq_ok h
    obtain ⟨body, d₂, hbody, hrest⟩ := Walk.bind_eq_ok hrest
    obtain ⟨next, d₃, hnext, hdone⟩ := Walk.bind_eq_ok hrest
    obtain ⟨log₁, hpulls⟩ := hinput 1 _ _ _ htimes
    obtain ⟨log₂, hpushes₁⟩ := hfollow 0 _ _ _ hbody
    obtain ⟨log₃, hpushes₂⟩ := hfollow 1 _ _ _ hnext
    cases hdone
    exact ⟨_, .loop hrole hpulls hpushes₁ hpushes₂⟩
  | setVariable category =>
    cases htag : r.node.tag with
    | none =>
      simp [Role.kind, Kind.setVariable, Behaviour.setVariable, Site.requireTag, Resolved.site, htag,
        Bind.bind, Recipe.bind, perform] at h
      cases h
    | some name =>
      simp only [Role.kind, Kind.setVariable, Behaviour.setVariable, Site.requireTag, Resolved.site,
        htag] at h
      obtain ⟨value, d₁, hvalue, hrest⟩ := Walk.bind_eq_ok h
      obtain ⟨next, d₂, hnext, hdone⟩ := Walk.bind_eq_ok hrest
      obtain ⟨log₁, hpulls⟩ := hinput 1 _ _ _ hvalue
      obtain ⟨log₂, hpushes⟩ := hfollow 0 _ _ _ hnext
      cases hdone
      exact ⟨_, .setVariable hrole htag hpulls hpushes⟩
  | emit category =>
    obtain ⟨value, d₁, hvalue, hrest⟩ := Walk.bind_eq_ok h
    obtain ⟨next, d₂, hnext, hdone⟩ := Walk.bind_eq_ok hrest
    obtain ⟨log₁, hpulls⟩ := hinput 1 _ _ _ hvalue
    obtain ⟨log₂, hpushes⟩ := hfollow 0 _ _ _ hnext
    cases hdone
    exact ⟨_, .emit hrole hpulls hpushes⟩

/-- The walk along the signals. -/
theorem exists_pushes_of_visit {g : Graph} {depth : Nat} {active : List NodeId} {r : Resolved}
    {index : Nat} {d d' : Draft} {c : Code} (hresolve : g.resolve .standard r.id = .ok (some r))
    (h : visit g .standard depth active [] (.activate r index) d = .ok (c, d')) :
    ∃ log, Pushes g (.node r.id) d c d' log := by
  induction depth generalizing active r index d d' c with
  | zero => cases h
  | succ depth ih =>
    unfold visit at h
    split at h
    · cases h
    · obtain ⟨role, -, hrole, hkind, -⟩ := role?_of_resolve hresolve
      refine exists_pushes_of_perform hkind hrole ?_ ?_ h
      · intro _ _ _ _ hinput
        exact exists_pulls_of_inputWith hkind hrole
          (fun _ _ _ _ hres hcompute => exists_pulls_of_visit hres hcompute) hinput
      · intro _ _ _ _ hfollow
        exact exists_pushes_of_followWith (fun _ _ _ _ _ hresolve hvisit => ih hresolve hvisit) hfollow

theorem exists_starts_of_followAll {g : Graph} {activate : Resolved → Nat → Walk Code}
    (hactivate : ∀ r index d c d', g.resolve .standard r.id = .ok (some r) →
      activate r index d = .ok (c, d') → ∃ log, Pushes g (.node r.id) d c d' log)
    {id : NodeId} {decls : List (PortDecl × Nat)} {d d' : Draft} {c : Code}
    (h : g.followAll .standard activate id decls d = .ok (c, d')) :
    ∃ log, Starts g ((decls.filter fun (decl, _) => decl.isSignal).map fun (_, index) => ⟨id, index⟩)
      d c d' log := by
  induction decls generalizing d d' c with
  | nil =>
    cases h
    exact ⟨[], .nil⟩
  | cons head rest ih =>
    obtain ⟨decl, index⟩ := head
    unfold followAll at h
    split at h
    · next hsignal =>
      obtain ⟨first, d₁, hfirst, hrest⟩ := Walk.bind_eq_ok h
      obtain ⟨others, d₂, hothers, hdone⟩ := Walk.bind_eq_ok hrest
      obtain ⟨log₁, hpushes⟩ := exists_pushes_of_followWires hactivate hfirst
      obtain ⟨log₂, hstarts⟩ := ih hothers
      cases hdone
      refine ⟨log₁ ++ log₂, ?_⟩
      simp only [List.filter_cons, hsignal, if_true, List.map_cons]
      exact .cons hpushes hstarts
    · next hsignal =>
      obtain ⟨log, hstarts⟩ := ih h
      refine ⟨log, ?_⟩
      simpa only [List.filter_cons, hsignal, Bool.false_eq_true, if_false] using hstarts

/-- The entry of a graph is there and resolved. -/
theorem start_eq_ok {g : Graph} {catalog : Catalog} {entry : Resolved} (h : g.start catalog = .ok entry) :
    ∃ id, g.entry = some id ∧ g.resolve catalog id = .ok (some entry) := by
  unfold start at h
  cases hentry : g.entry with
  | none => simp only [hentry] at h; cases h
  | some id =>
    simp only [hentry] at h
    cases hresolve : g.resolve catalog id with
    | error e => rw [hresolve] at h; cases h
    | ok found =>
      rw [hresolve] at h
      cases found with
      | none => cases h
      | some r => cases h; exact ⟨id, rfl, hresolve⟩

/-- The walk of a graph follows the signals of its entry. -/
theorem walk_of_start {g : Graph} {catalog : Catalog} {entry : Resolved} (h : g.start catalog = .ok entry) :
    g.walk catalog = g.followAll catalog
      (fun r input => visit g catalog g.depthBound [entry.id] [] (.activate r input)) entry.id
      entry.kind.outputs.zipIdx {} := by
  unfold walk
  rw [h]
  rfl

theorem walk_of_start_error {g : Graph} {catalog : Catalog} {e : GraphError} (h : g.start catalog = .error e) :
    g.walk catalog = .error e := by
  unfold walk
  rw [h]
  rfl

theorem start_of_walk {g : Graph} {catalog : Catalog} {body : Code} {draft : Draft}
    (h : g.walk catalog = .ok (body, draft)) :
    ∃ entry, g.start catalog = .ok entry ∧ g.followAll catalog
      (fun r input => visit g catalog g.depthBound [entry.id] [] (.activate r input)) entry.id
      entry.kind.outputs.zipIdx {} = .ok (body, draft) := by
  cases hstart : g.start catalog with
  | error e =>
    rw [walk_of_start_error hstart] at h
    cases h
  | ok entry => exact ⟨entry, rfl, walk_of_start hstart ▸ h⟩

/-- A graph that compiles was walked from its entry. -/
theorem compile_eq_ok {g : Graph} {catalog : Catalog} {c : Compilation} (h : g.compile catalog = .ok c) :
    ∃ body draft, g.walk catalog = .ok (body, draft) ∧ c = draft.finish body := by
  unfold compile at h
  cases hwalk : g.walk catalog with
  | error e => rw [hwalk] at h; cases h
  | ok result =>
    rw [hwalk] at h
    cases h
    exact ⟨result.1, result.2, rfl, rfl⟩

/-- The walk of a whole graph: from its entry, with an empty draft. -/
def Walked (g : Graph) (body : Code) (draft : Draft) (log : List Event) : Prop :=
  ∃ id node role, g.entry = some id ∧ g.role? id = some (node, role) ∧
    Starts g (g.signalOutputs id) {} body draft log

theorem exists_walk_of_walk {g : Graph} {body : Code} {draft : Draft}
    (h : g.walk .standard = .ok (body, draft)) : ∃ log, g.Walked body draft log := by
  obtain ⟨entry, hstart, hfollow⟩ := start_of_walk h
  obtain ⟨id, hentry, hresolve⟩ := start_eq_ok hstart
  obtain ⟨role, -, hrole, hkind, hid⟩ := role?_of_resolve hresolve
  obtain ⟨log, hstarts⟩ := exists_starts_of_followAll
    (fun _ _ _ _ _ hresolve hvisit => exists_pushes_of_visit hresolve hvisit) hfollow
  refine ⟨log, id, entry.node, role, hentry, hrole, ?_⟩
  simpa only [signalOutputs, hrole, hkind, hid] using hstarts

/-- A graph that compiles was walked, and its program is the finished draft. -/
theorem exists_walk_of_compile {g : Graph} {c : Compilation} (h : g.compile .standard = .ok c) :
    ∃ body draft log, g.Walked body draft log ∧ c = draft.finish body := by
  obtain ⟨body, draft, hwalk, rfl⟩ := compile_eq_ok h
  obtain ⟨log, hwalked⟩ := exists_walk_of_walk hwalk
  exact ⟨body, draft, log, hwalked, rfl⟩

end Graph

/-! ## How the draft grows -/

namespace Draft

/-- The walk records problems and shares computations, and changes nothing
    else. -/
inductive Grows (d : Draft) : Draft → Prop
  | refl : Grows d d
  | problems {d'} (problems : List LooseWire) : Grows d d' → Grows d { d' with problems := problems }
  | share {d'} (p : Port) (c : Code) (default : Const) :
    Grows d d' → Grows d (d'.share p c default).2

theorem Grows.trans {d d' d'' : Draft} (h : Grows d d') (h' : Grows d' d'') : Grows d d'' := by
  induction h' with
  | refl => exact h
  | problems problems _ ih => exact ih.problems problems
  | share p c default _ ih => exact ih.share p c default

/-- What is shared stays at its number. -/
theorem Grows.shared {d d' : Draft} (h : Grows d d') : d.shared <+: d'.shared := by
  induction h with
  | refl => exact List.prefix_refl _
  | problems _ _ ih => exact ih
  | share p c default _ ih => exact ih.trans (List.prefix_append _ _)

theorem Grows.memo {d d' : Draft} (h : Grows d d') : d.memo <:+ d'.memo := by
  induction h with
  | refl => exact List.suffix_refl _
  | problems _ _ ih => exact ih
  | share p c default _ ih => exact ih.trans (List.suffix_cons _ _)

theorem shared?_eq_some {d : Draft} {p : Port} {c : Code}
    (h : d.shared? p = some c) :
    ∃ id entry, (p, id) ∈ d.memo ∧ d.shared[id]? = some entry ∧ c = .shared id entry.ty := by
  simp only [Draft.shared?, Option.bind_eq_bind, Option.bind_eq_some_iff, Option.pure_def,
    Option.some.injEq] at h
  obtain ⟨id, hlookup, entry, hentry, rfl⟩ := h
  obtain ⟨before, after, hmemo, -⟩ := List.lookup_eq_some_iff.mp hlookup
  exact ⟨id, entry, by simp [hmemo], hentry, rfl⟩

/-- What is shared once one more computation is. -/
theorem share_getElem? {d : Draft} {p : Port} {c : Code} {default : Const} {id : SharedId}
    {entry : Shared} (h : (d.share p c default).2.shared[id]? = some entry) :
    d.shared[id]? = some entry ∨ (id = d.shared.length ∧ entry = ⟨c, c.ty, default, none⟩) := by
  simp only [share, List.getElem?_append] at h
  split at h
  · exact .inl h
  · obtain ⟨hlt, heq⟩ := List.getElem?_eq_some_iff.mp h
    have hid : id - d.shared.length = 0 := by simpa using hlt
    refine .inr ⟨Nat.le_antisymm (Nat.sub_eq_zero_iff_le.mp hid) (by omega), ?_⟩
    simpa [hid] using heq.symm

/-- A draft that nothing has been laid out in yet. Every shared computation
    is that of an output, and none has a slot. -/
structure Fresh (d : Draft) : Prop where
  nextSlot : d.nextSlot = 0
  nextLabel : d.nextLabel = 0
  variableSlots : d.variableSlots = []
  stored : d.stored = []
  memo : d.memo.map Prod.snd = (List.range d.shared.length).reverse
  entries : ∀ entry ∈ d.shared, entry.slot = none ∧ entry.ty = entry.value.ty

theorem fresh_empty : Fresh {} := ⟨rfl, rfl, rfl, rfl, rfl, by simp⟩

theorem Grows.fresh {d d' : Draft} (h : Grows d d') (hd : d.Fresh) : d'.Fresh := by
  induction h with
  | refl => exact hd
  | problems _ _ ih => exact ⟨ih.nextSlot, ih.nextLabel, ih.variableSlots, ih.stored, ih.memo, ih.entries⟩
  | share p c default _ ih =>
    refine ⟨ih.nextSlot, ih.nextLabel, ih.variableSlots, ih.stored, ?_, ?_⟩
    · simp [Draft.share, ih.memo, List.range_succ]
    · intro entry hmem
      rcases List.mem_append.mp hmem with hold | hnew
      · exact ih.entries entry hold
      · obtain rfl := List.mem_singleton.mp hnew
        exact ⟨rfl, rfl⟩

theorem Fresh.lt_of_mem {d : Draft} (hd : d.Fresh) {p : Port} {id : SharedId}
    (h : (p, id) ∈ d.memo) : id < d.shared.length := by
  have hmem : id ∈ d.memo.map Prod.snd := List.mem_map.mpr ⟨(p, id), h, rfl⟩
  rw [hd.memo] at hmem
  simpa using hmem

/-- No two outputs have the same shared computation. -/
theorem Fresh.port_unique {d : Draft} (hd : d.Fresh) {p q : Port} {id : SharedId}
    (hp : (p, id) ∈ d.memo) (hq : (q, id) ∈ d.memo) : p = q := by
  have hnodup : (d.memo.map Prod.snd).Nodup := by
    rw [hd.memo]
    exact List.nodup_reverse.mpr List.nodup_range
  exact congrArg Prod.fst (List.inj_on_of_nodup_map hnodup hp hq rfl)

/-- Every shared computation is that of an output. -/
theorem Fresh.exists_port {d : Draft} (hd : d.Fresh) {id : SharedId} (h : id < d.shared.length) :
    ∃ p, (p, id) ∈ d.memo := by
  have hmem : id ∈ d.memo.map Prod.snd := by
    rw [hd.memo]
    simpa using h
  obtain ⟨⟨p, _⟩, hport, rfl⟩ := List.mem_map.mp hmem
  exact ⟨p, hport⟩

end Draft

namespace Graph

/-- A property of drafts that the walk keeps: it survives that problems are
    recorded and that the computation of an output is shared. -/
structure Kept (g : Graph) (P : Draft → Prop) : Prop where
  problems {d : Draft} (problems : List LooseWire) : P d → P { d with problems := problems }
  share {opened p decl d c d' log} : Pulls g (p :: opened) (.result p) d c d' log →
    1 < (g.leaving p).length → g.output? p = some decl → P d' → P (d'.share p c decl.default).2

section

variable {g : Graph} {P : Draft → Prop}

theorem Kept.pulls (hP : Kept g P) {opened : List Port} {need : Need} {d d' : Draft} {c : Code}
    {log : List Event} (h : Pulls g opened need d c d' log) (hd : P d) : P d' := by
  induction h with
  | own problems => exact hP.problems problems hd
  | driven _ _ _ _ _ ih => exact ih hd
  | recalled => exact hd
  | single _ _ _ _ ih => exact ih hd
  | shared _ _ hmany hdecl hpulls ih => exact hP.share hpulls hmany hdecl (ih hd)
  | constant _ _ ih => exact ih hd
  | getVariable => exact hd
  | query => exact hd
  | arith _ _ _ ihx ihy => exact ihy (ihx hd)
  | compare _ _ _ ihx ihy => exact ihy (ihx hd)
  | not _ _ ih => exact ih hd
  | mathConstant => exact hd

theorem Kept.pushes (hP : Kept g P) {signal : Signal} {d d' : Draft} {c : Code} {log : List Event}
    (h : Pushes g signal d c d' log) (hd : P d) : P d' := by
  induction h with
  | branch _ hpulls _ _ ihyes ihno => exact ihno (ihyes (hP.pulls hpulls hd))
  | loop _ hpulls _ _ ihbody ihnext => exact ihnext (ihbody (hP.pulls hpulls hd))
  | setVariable _ _ hpulls _ ih => exact ih (hP.pulls hpulls hd)
  | emit _ hpulls _ ih => exact ih (hP.pulls hpulls hd)
  | nil => exact hd
  | skip problems _ _ ih => exact ih (hP.problems problems hd)
  | cons _ _ _ ihfirst ihrest => exact ihrest (ihfirst hd)

theorem Kept.starts (hP : Kept g P) {ports : List Port} {d d' : Draft} {c : Code} {log : List Event}
    (h : Starts g ports d c d' log) (hd : P d) : P d' := by
  induction h with
  | nil => exact hd
  | cons hpushes _ ih => exact ih (hP.pushes hpushes hd)

theorem Kept.walked (hP : Kept g P) {body : Code} {draft : Draft} {log : List Event}
    (h : g.Walked body draft log) (hempty : P {}) : P draft := by
  obtain ⟨_, _, _, _, _, hstarts⟩ := h
  exact hP.starts hstarts hempty

end

theorem kept_grows (g : Graph) (d : Draft) : Kept g d.Grows where
  problems problems h := h.problems problems
  share _ _ _ h := h.share _ _ _

theorem Pulls.grows {g : Graph} {opened : List Port} {need : Need} {d d' : Draft} {c : Code}
    {log : List Event} (h : Pulls g opened need d c d' log) : d.Grows d' :=
  (kept_grows g d).pulls h .refl

theorem Pushes.grows {g : Graph} {signal : Signal} {d d' : Draft} {c : Code} {log : List Event}
    (h : Pushes g signal d c d' log) : d.Grows d' :=
  (kept_grows g d).pushes h .refl

theorem Starts.grows {g : Graph} {ports : List Port} {d d' : Draft} {c : Code} {log : List Event}
    (h : Starts g ports d c d' log) : d.Grows d' :=
  (kept_grows g d).starts h .refl

end Graph

end FlowGraph
