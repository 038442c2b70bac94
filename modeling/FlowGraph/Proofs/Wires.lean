import FlowGraph.Proofs.Demand
import FlowGraph.Proofs.References

/-! # Wires and their ends

    The wires of a port, and what the walk finds at the two ends of a wire.
    It reports a wire if it finds nothing there, under the number that the
    wire has in the graph. Whether it finds something does not depend on that
    number.
-/

namespace FlowGraph

/-! ## Problems do not matter to the layout -/

/-- The draft with other problems. -/
def Draft.reporting (d : Draft) (problems : List LooseWire) : Draft := { d with problems := problems }

/-- A finished program does not depend on the problems, and reports them. -/
theorem Draft.finish_reporting (d : Draft) (problems : List LooseWire) (body : Code) :
    (d.reporting problems).finish body = ⟨(d.finish body).program, problems⟩ :=
  d.finish_with d.memo problems body

theorem Draft.record_reporting (d : Draft) (problem : LooseWire) (problems : List LooseWire) :
    (d.record problem).reporting problems = d.reporting problems := by
  unfold Draft.record
  split <;> rfl

/-- The drafts differ in their problems at most. -/
def Draft.Alike (d e : Draft) : Prop := d.reporting [] = e.reporting []

namespace Draft.Alike

variable {d e f : Draft}

theorem refl (d : Draft) : d.Alike d := Eq.refl _

theorem symm (h : d.Alike e) : e.Alike d := Eq.symm h

theorem trans (h : d.Alike e) (h' : e.Alike f) : d.Alike f := Eq.trans h h'

theorem shared (h : d.Alike e) : d.shared = e.shared := by
  show (d.reporting []).shared = (e.reporting []).shared
  rw [h]

theorem memo (h : d.Alike e) : d.memo = e.memo := by
  show (d.reporting []).memo = (e.reporting []).memo
  rw [h]

theorem record (h : d.Alike e) (problem : LooseWire) : (d.record problem).Alike e := by
  unfold Alike
  rw [Draft.record_reporting]
  exact h

theorem shared? (h : d.Alike e) (p : Port) : d.shared? p = e.shared? p := by
  simp only [Draft.shared?, h.shared, h.memo]

theorem share (h : d.Alike e) (p : Port) (c : Code) (default : Const) :
    (d.share p c default).1 = (e.share p c default).1 ∧
      (d.share p c default).2.Alike (e.share p c default).2 := by
  constructor
  · simp only [Draft.share, h.shared]
  · unfold Alike at h ⊢
    simp only [Draft.share, reporting, Draft.mk.injEq] at h ⊢
    simp only [h, and_self]

end Draft.Alike

/-- The wire that the problem is about. -/
def LooseWire.wire : LooseWire → WireId
  | .missingSource wire _ | .missingTarget wire _ | .missingOutput wire _ | .missingInput wire _
  | .signalIntoValue wire _ => wire

namespace Graph

/-! ## The wires of a port -/

theorem mem_numberedWires {g : Graph} {id : WireId} {w : Wire} :
    (id, w) ∈ g.numberedWires ↔ g.wires[id]? = some w := by
  simp [numberedWires, List.mem_zipIdx_iff_getElem?]

theorem mem_leaving {g : Graph} {p : Port} {x : WireId × Wire} :
    x ∈ g.leaving p ↔ x ∈ g.numberedWires ∧ x.2.source = p := by
  simp [leaving]

theorem mem_arriving {g : Graph} {p : Port} {x : WireId × Wire} :
    x ∈ g.arriving p ↔ x ∈ g.numberedWires ∧ x.2.target = p := by
  simp [arriving]

theorem numberedWires_map_snd (g : Graph) : g.numberedWires.map Prod.snd = g.wires := by
  simp [numberedWires, Function.comp_def]

/-- Wires chosen by what they connect. -/
theorem map_snd_filter (wires : List (WireId × Wire)) (chosen : Wire → Bool) :
    (wires.filter fun x => chosen x.2).map Prod.snd = (wires.map Prod.snd).filter chosen := by
  rw [List.filter_map]
  rfl

/-- A signal leaves the port. -/
def isSignalOutput (g : Graph) (p : Port) : Bool := (g.output? p).any PortDecl.isSignal

/-! ## The ends of a wire -/

section

variable {g g' : Graph} {id : WireId} {w : Wire} {d d' : Draft}

theorem Producer.Resolves.isValueOutput {producer : Producer} (h : producer.Resolves g) :
    g.isValueOutput producer.port = true := by
  simp [Graph.isValueOutput, output?_of_resolve h.source, h.decl, h.value]

/-- If nothing is found at an end of a wire, then the wire is reported. -/
theorem wire_of_sourceAt {found : Option Resolved} {problem : LooseWire}
    (h : sourceAt id w found = .error problem) : problem.wire = id := by
  unfold sourceAt at h
  repeat' split at h
  all_goals cases h
  all_goals rfl

theorem wire_of_targetAt {found : Option Resolved} {problem : LooseWire}
    (h : targetAt id w found = .error problem) : problem.wire = id := by
  unfold targetAt at h
  repeat' split at h
  all_goals cases h
  all_goals rfl

theorem exists_of_reported {α : Type} {result : Except LooseWire α}
    (h : (none, d') = reported d result) : ∃ problem, result = .error problem ∧ d' = d.record problem := by
  cases result with
  | ok a => cases h
  | error problem =>
    cases h
    exact ⟨problem, rfl, rfl⟩

theorem producer?_none (h : g.producer? .standard id w d = .ok (none, d')) :
    ∃ problem : LooseWire, problem.wire = id ∧ d' = d.record problem := by
  obtain ⟨found, -, heq⟩ := exists_of_producer? h
  obtain ⟨problem, hsource, hd⟩ := exists_of_reported heq
  exact ⟨problem, wire_of_sourceAt hsource, hd⟩

theorem target?_none (h : g.target? .standard id w d = .ok (none, d')) :
    ∃ problem : LooseWire, problem.wire = id ∧ d' = d.record problem := by
  obtain ⟨found, -, heq⟩ := exists_of_target? h
  obtain ⟨problem, htarget, hd⟩ := exists_of_reported heq
  exact ⟨problem, wire_of_targetAt htarget, hd⟩

/-- What is found at an end of a wire depends on the port there alone. -/
theorem producer?_of_resolves {producer : Producer} (hres : producer.Resolves g) (id : WireId)
    (hport : producer.port = w.source) (d : Draft) :
    g.producer? .standard id w d = .ok (some producer, d) := by
  obtain ⟨port, decl, source⟩ := producer
  obtain rfl : port = w.source := hport
  have hdecl : source.kind.outputs[w.source.index]? = some decl := hres.decl
  have hvalue : decl.isSignal = false := hres.value
  rw [producer?_apply, hres.source]
  simp [Except.map, sourceAt, reported, hdecl, hvalue]

theorem target?_of_meant {r : Resolved} (hresolve : g.resolve .standard w.target.node = .ok (some r))
    {g' : Graph} (hmeant : (Visit.activate r w.target.index).Meant g') (id : WireId) (d : Draft) :
    g.target? .standard id w d = .ok (some (r, w.target.index), d) := by
  obtain ⟨-, decl, hdecl, hsignal⟩ := hmeant
  rw [target?_apply, hresolve]
  simp [Except.map, targetAt, reported, hdecl, hsignal]

theorem exists_targetAt_error {found : Option Resolved} {problem : LooseWire}
    (h : targetAt id w found = .error problem) (id' : WireId) :
    ∃ problem', targetAt id' w found = .error problem' := by
  cases found with
  | none => exact ⟨_, rfl⟩
  | some r =>
    unfold targetAt at h ⊢
    cases hdecl : r.kind.inputs[w.target.index]? with
    | none => simp [hdecl]
    | some decl => cases hsignal : decl.isSignal <;> simp_all

theorem exists_sourceAt_error {found : Option Resolved} {problem : LooseWire}
    (h : sourceAt id w found = .error problem) (id' : WireId) :
    ∃ problem', sourceAt id' w found = .error problem' := by
  cases found with
  | none => exact ⟨_, rfl⟩
  | some source =>
    unfold sourceAt at h ⊢
    cases hdecl : source.kind.outputs[w.source.index]? with
    | none => simp [hdecl]
    | some decl => cases hsignal : decl.isSignal <;> simp_all

/-- No value is found at the start of a wire, whatever its number is. -/
theorem exists_producer?_none (h : g.producer? .standard id w d = .ok (none, d'))
    (hresolve : g'.resolve .standard w.source.node = g.resolve .standard w.source.node) (id' : WireId)
    (e : Draft) : ∃ problem, g'.producer? .standard id' w e = .ok (none, e.record problem) := by
  obtain ⟨found, hfound, heq⟩ := exists_of_producer? h
  obtain ⟨problem, hsource, -⟩ := exists_of_reported heq
  obtain ⟨problem', hsource'⟩ := exists_sourceAt_error hsource id'
  refine ⟨problem', ?_⟩
  rw [producer?_apply, hresolve, hfound]
  simp [Except.map, reported, hsource']

end

end Graph

end FlowGraph
