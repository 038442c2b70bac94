import FlowGraph.Proofs.Diagnosis
import FlowGraph.Proofs.Lockstep

/-! # Wires that removed nodes have left behind

    When a node is removed, its wires stay. Those that come from it bring no
    value, and without them a graph compiles to the same program. They are not
    without effect, though: they count as wires that arrive at an input, and
    an input that takes a value from another output now has too many.

    Main statement: that is the only effect that they have (`compile_tidied`).
-/

namespace FlowGraph

namespace Graph

/-- The node that the wire comes from is not there. -/
def isLeftover (g : Graph) (w : Wire) : Bool := (g.node? w.source.node).isNone

/-- The graph without the wires that removed nodes have left behind. -/
def tidied (g : Graph) : Graph := { g with wires := g.wires.filter fun w => !g.isLeftover w }

section

variable {g : Graph}

/-- Wires chosen by what they connect. -/
theorem tidied_filter (g : Graph) (chosen : Wire → Bool) :
    (g.tidied.numberedWires.filter fun x => chosen x.2).map Prod.snd =
      ((g.numberedWires.filter fun x => chosen x.2).filter fun x => !g.isLeftover x.2).map Prod.snd := by
  rw [map_snd_filter, map_snd_filter _ fun w => !g.isLeftover w, map_snd_filter, numberedWires_map_snd,
    numberedWires_map_snd, List.filter_comm]
  rfl

theorem tidied_arriving (g : Graph) (p : Port) :
    (g.tidied.arriving p).map Prod.snd = ((g.arriving p).filter fun x => !g.isLeftover x.2).map Prod.snd :=
  g.tidied_filter fun w => w.target == p

/-- The wires of a node that is there all stay. -/
theorem tidied_leaving {p : Port} (h : (g.node? p.node).isSome) :
    (g.tidied.leaving p).map Prod.snd = (g.leaving p).map Prod.snd := by
  have hkept : (g.leaving p).filter (fun x => !g.isLeftover x.2) = g.leaving p := by
    refine List.filter_eq_self.mpr ?_
    intro x hx
    obtain ⟨-, hsource⟩ := List.mem_filter.mp hx
    have heq : x.2.source = p := by simpa using hsource
    simp [isLeftover, heq, h]
  rw [← hkept]
  exact g.tidied_filter fun w => w.source == p

/-- A wire from a node that is there is alone at an input, as it was before. -/
theorem tidied_arriving_singleton {p : Port} {x : WireId × Wire} (h : g.arriving p = [x])
    (hlive : g.isLeftover x.2 = false) : ∃ id, g.tidied.arriving p = [(id, x.2)] := by
  have hone : (g.tidied.arriving p).map Prod.snd = [x.2] := by
    rw [tidied_arriving, h]
    simp [hlive]
  obtain ⟨⟨id, w⟩, hlist, rfl⟩ := List.map_eq_singleton_iff.mp hone
  exact ⟨id, hlist⟩

theorem node?_of_output? {p : Port} {decl : PortDecl} (h : g.output? p = some decl) :
    (g.node? p.node).isSome := by
  rw [Option.isSome_iff_ne_none]
  intro hnone
  rw [output?_of_node?_none hnone] at h
  cases h

theorem sameSignals_tidied (g : Graph) : g.SameSignals g.tidied where
  start := rfl
  leaving p hp := by
    obtain ⟨decl, hdecl, -⟩ := (Option.any_eq_true _ _).mp hp
    exact tidied_leaving (node?_of_output? hdecl)
  target _ _ _ _ := .inl rfl

/-! ## The same walk -/

/-- A leftover wire brings no value. -/
theorem isValueOutput_of_isLeftover {w : Wire} (h : g.isLeftover w = true) : g.isValueOutput w.source = false := by
  have hnode : g.node? w.source.node = none := by simpa [isLeftover] using h
  simp [isValueOutput, output?_of_node?_none hnode]

/-- An input takes the same value. A leftover wire is not there in the one
    graph, and brings no value in the other. -/
theorem sameSources_tidied {compute compute' : Producer → Walk Code}
    (hcompute : ∀ producer, producer.Resolves g → Mirrors unchanged id (compute producer) (compute' producer))
    (p : Port) : SameSources unchanged g g.tidied compute compute' (g.arriving p) (g.tidied.arriving p) := by
  have htidied := g.tidied_arriving p
  rcases hwires : g.arriving p with _ | ⟨⟨wire, w⟩, _ | ⟨second, others⟩⟩
  · obtain hwires' : g.tidied.arriving p = [] := by simpa [hwires] using htidied
    rw [hwires']
    exact .none
  · by_cases hleft : g.isLeftover w = true
    · obtain hwires' : g.tidied.arriving p = [] := by simpa [hwires, hleft] using htidied
      rw [hwires']
      exact .lost (lost_producer? not_false (isValueOutput_of_isLeftover hleft) wire)
    · -- the wire stays, under a number of its own
      obtain ⟨wire', hwires'⟩ := tidied_arriving_singleton hwires (by simpa using hleft)
      rw [hwires']
      refine .one id (forgetful_unchanged.producer? ?_ ?_) fun producer hres _ => ⟨rfl, hcompute producer hres⟩
      · exact fun producer hres hport => ⟨⟨hres.source, hres.decl, hres.value⟩, hport⟩
      · have hresolve : g.tidied.resolve .standard w.source.node = g.resolve .standard w.source.node := rfl
        intro d d₁ hproducer e
        exact exists_producer?_none hproducer hresolve wire' e
  · exact .many (by simp) False.elim

/-- A graph and the graph without its leftover wires. -/
theorem parallel_tidied (g : Graph) : Parallel unchanged (fun _ => True) g g.tidied where
  start := g.sameSignals_tidied.start_same
  entry _ := trivial
  recipe hmeant := Renaming.same.renders_visit hmeant
  known? {v d e} _ _ he := by
    cases v with
    | activate r input => rfl
    | compute producer => exact (he.shared? producer.port).trans Option.map_id'.symm
  fanOut {p} _ hvalue := by
    obtain ⟨decl, hdecl, -⟩ := (Option.any_eq_true _ _).mp hvalue
    have hlength := congrArg List.length (tidied_leaving (node?_of_output? hdecl))
    rwa [List.length_map, List.length_map] at hlength
  share {p code default d} _ _ := ⟨trivial, fun e he => he.share p code default⟩
  targets {e p} _ _ hp := by
    refine ⟨forgetful_unchanged.sameTargets ?_ ?_, fun _ _ => trivial⟩
    · exact g.sameSignals_tidied.leaving p hp
    · exact g.sameSignals_tidied.target p hp
  sources _ hdeeper e p _ _ _ := by
    refine sameSources_tidied ?_ p
    intro producer hres
    exact hdeeper (.compute producer) trivial hres

/-! ## The same errors -/

theorem activates_tidied {id id' : NodeId} (h : g.Activates id id') : g.tidied.Activates id id' := by
  obtain ⟨p, hp, x, hx, hsignal, htarget⟩ := h
  have hlive : (g.node? p.node).isSome := by
    obtain ⟨decl, hdecl, -⟩ := output?_of_mem_signalOutputs hp
    exact node?_of_output? hdecl
  obtain ⟨x', hx', heq⟩ := List.mem_map.mp (tidied_leaving hlive ▸ List.mem_map_of_mem hx)
  exact ⟨p, hp, x', hx', heq ▸ hsignal, heq ▸ htarget⟩

theorem activated_tidied {id : NodeId} (h : g.Activated id) : g.tidied.Activated id := by
  induction h with
  | entry hentry hactivates => exact .entry hentry (activates_tidied hactivates)
  | next _ hactivates ih => exact .next ih (activates_tidied hactivates)

theorem signalled_tidied {id : NodeId} (h : g.Signalled id) : g.tidied.Signalled id :=
  h.imp_right activated_tidied

/-- An output that drives an input still does. The converse fails: a leftover
    wire that comes first hides the others. -/
theorem driver?_tidied {p source : Port} {decl : PortDecl} (h : g.driver? p = some (source, decl)) :
    g.tidied.driver? p = some (source, decl) := by
  cases hwires : g.arriving p with
  | nil => simp [driver?, hwires] at h
  | cons head rest =>
    cases houtput : g.output? head.2.source with
    | none => simp [driver?, hwires, houtput] at h
    | some decl' =>
      -- only the first wire counts, and it is kept
      have hlive : g.isLeftover head.2 = false := by
        simpa [isLeftover] using node?_of_output? houtput
      have hmap := g.tidied_arriving p
      rw [hwires, List.filter_cons_of_pos (by simp [hlive]), List.map_cons] at hmap
      obtain ⟨head', rest', hwires', hhead, -⟩ := List.map_eq_cons_iff.mp hmap
      have houtput' : g.tidied.output? head.2.source = some decl' := houtput
      simpa [driver?, hwires, hwires', houtput, houtput', hhead] using h

theorem uses_tidied {id : NodeId} {p : Port} (h : g.Uses id p) : g.tidied.Uses id p := by
  obtain ⟨index, hvalue, decl, hdriver⟩ := h
  exact ⟨index, hvalue, decl, driver?_tidied hdriver⟩

theorem occurs_tidied {e : Event} (h : g.Occurs e) : g.tidied.Occurs e := by
  cases e with
  | activate id => exact activated_tidied h
  | compute p =>
    have hdemanded : g.Demanded p := h
    show g.tidied.Demanded p
    induction hdemanded with
    | node hactivated huses => exact .node (activated_tidied hactivated) (uses_tidied huses)
    | output hdemanded huses ih => exact .output (ih hdemanded) (uses_tidied huses)

theorem works_tidied {id : NodeId} (h : g.Works id) : g.tidied.Works id := by
  obtain ⟨e, hoccurs, hnode⟩ := h
  exact ⟨e, occurs_tidied hoccurs, hnode⟩

theorem demandedInput_tidied {p : Port} (h : g.DemandedInput p) : g.tidied.DemandedInput p :=
  ⟨h.1, works_tidied h.2⟩

/-- A node that is looked up, and is there, still is. -/
theorem lookedUp_tidied {id : NodeId} (h : g.LookedUp id) (hlive : (g.node? id).isSome) :
    g.tidied.LookedUp id := by
  cases h with
  | entry hentry => exact .entry hentry
  | @target id p x hsignalled hp hx =>
    have hnode : (g.node? p.node).isSome := by
      obtain ⟨decl, hdecl, -⟩ := output?_of_mem_signalOutputs hp
      exact node?_of_output? hdecl
    obtain ⟨x', hx', heq⟩ := List.mem_map.mp (tidied_leaving hnode ▸ List.mem_map_of_mem hx)
    rw [← heq]
    exact .target (signalled_tidied hsignalled) hp hx'
  | @source p x hdemanded hwires =>
    have hkept : g.isLeftover x.2 = false := by simpa [isLeftover] using hlive
    obtain ⟨id', hwires'⟩ := tidied_arriving_singleton hwires hkept
    exact .source (w := (id', x.2)) (demandedInput_tidied hdemanded) hwires'

/-- A leftover wire arrives at an input whose value is needed, and not alone. -/
def Crowds (g : Graph) (p : Port) : Prop :=
  g.DemandedInput p ∧ 1 < (g.arriving p).length ∧ ∃ x ∈ g.arriving p, g.isLeftover x.2 = true

/-- What is wrong with a graph is also wrong without its leftover wires, unless
    one of them is in the way. -/
theorem blames_tidied {e : GraphError} (h : g.Blames e) :
    g.tidied.Blames e ∨ ∃ p, e = .valueFanIn p (g.arriving p).length ∧ g.Crowds p := by
  cases e with
  | noEntry => exact .inl h
  | missingEntry id => exact .inl h
  | unknownKind id kind =>
    obtain ⟨hlooked, node, hnode, hkind⟩ := h
    exact .inl ⟨lookedUp_tidied hlooked (by simp [hnode]), node, hnode, hkind⟩
  | inputOutOfRange id kind index declared =>
    obtain ⟨hlooked, node, k, hnode, hkind⟩ := h
    exact .inl ⟨lookedUp_tidied hlooked (by simp [hnode]), node, k, hnode, hkind⟩
  | valueFanIn p count =>
    obtain ⟨hdemanded, rfl, hmany⟩ := h
    by_cases hleft : ∃ x ∈ g.arriving p, g.isLeftover x.2 = true
    · exact .inr ⟨p, rfl, hdemanded, hmany, hleft⟩
    · -- all the wires are kept, so there are still too many
      have hkept : (g.arriving p).filter (fun x => !g.isLeftover x.2) = g.arriving p := by
        refine List.filter_eq_self.mpr ?_
        intro x hx
        by_contra hno
        exact hleft ⟨x, hx, by simpa using hno⟩
      have hlength := congrArg List.length (g.tidied_arriving p)
      rw [hkept, List.length_map, List.length_map] at hlength
      exact .inl ⟨demandedInput_tidied hdemanded, hlength.symm, hmany⟩
  | signalCycle id =>
    exact .inl ⟨signalled_tidied h.1, Relation.TransGen.mono (fun _ _ => activates_tidied) _ _ h.2⟩
  | valueCycle p =>
    refine .inl ⟨occurs_tidied (e := .compute p) h.1, ?_⟩
    exact Relation.TransGen.mono (fun _ _ => uses_tidied) _ _ h.2
  | missingTag id kind => exact .inl ⟨works_tidied h.1, h.2⟩
  | outputOutOfRange | notAValue | notASignal | notActivatable | noValueOutput | tooManyArguments =>
    exact h.elim

end

/-- The programs of drafts that differ in their problems are the same. -/
theorem program_eq_of_alike {d e : Draft} (h : d.Alike e) (body : Code) :
    (d.finish body).program = (e.finish body).program := by
  have hd := congrArg Compilation.program (d.finish_reporting [] body)
  have he := congrArg Compilation.program (e.finish_reporting [] body)
  rw [show d.reporting [] = e.reporting [] from h] at hd
  exact hd.symm.trans he

/-- The wires that removed nodes have left behind have no part in the program
    that a graph compiles to, and make it fail to compile only where one of
    them arrives, with other wires, at an input whose value is needed. -/
theorem compile_tidied (g : Graph) :
    ((∃ c, g.compile .standard = .ok c) ↔
      (∃ c, g.tidied.compile .standard = .ok c) ∧ ∀ p, ¬ g.Crowds p) ∧
    (∀ c c', g.compile .standard = .ok c → g.tidied.compile .standard = .ok c' → c.program = c'.program) ∧
    (∀ c' e, g.tidied.compile .standard = .ok c' → g.compile .standard = .error e →
      ∃ p, e = .valueFanIn p (g.arriving p).length ∧ g.Crowds p) := by
  have hkeeps : ∀ c, g.compile .standard = .ok c →
      ∃ c', g.tidied.compile .standard = .ok c' ∧ c.program = c'.program := by
    intro c hc
    obtain ⟨body, draft, hwalk, rfl⟩ := compile_eq_ok hc
    obtain ⟨draft', hwalk', halike⟩ := g.parallel_tidied.exists_walk hwalk trivial
    refine ⟨draft'.finish body, ?_, (program_eq_of_alike halike body).symm⟩
    unfold compile
    rw [hwalk']
    rfl
  have hcrowded : ∀ c' e, g.tidied.compile .standard = .ok c' → g.compile .standard = .error e →
      ∃ p, e = .valueFanIn p (g.arriving p).length ∧ g.Crowds p := by
    intro c' e hc' he
    -- the error blames the graph for something, and the tidied graph is not to blame
    exact (blames_tidied (blames_compile he)).resolve_left (wellFormed_of_compile hc').not_blames
  refine ⟨⟨?_, ?_⟩, ?_, hcrowded⟩
  · rintro ⟨c, hc⟩
    obtain ⟨c', hc', -⟩ := hkeeps c hc
    refine ⟨⟨c', hc'⟩, ?_⟩
    rintro p ⟨hdemanded, hmany, -⟩
    have hsingle := (wellFormed_of_compile hc).single p hdemanded
    omega
  · rintro ⟨⟨c', hc'⟩, hfree⟩
    cases hc : g.compile .standard with
    | ok c => exact ⟨c, rfl⟩
    | error e =>
      obtain ⟨p, -, hcrowds⟩ := hcrowded c' e hc' hc
      exact absurd hcrowds (hfree p)
  · intro c c' hc hc'
    obtain ⟨c'', hc'', hprogram⟩ := hkeeps c hc
    rw [hc'] at hc''
    cases hc''
    exact hprogram

/-- A command whose value came from a node that was removed, and comes from
    another one now. -/
def rewired : Graph where
  nodes := [some ⟨"start", [], none⟩, some ⟨"emit:number", [], some "show"⟩, none,
    some ⟨"number", [some (.integer 7)], none⟩]
  wires := [⟨⟨0, 0⟩, ⟨1, 0⟩⟩, ⟨⟨2, 0⟩, ⟨1, 1⟩⟩, ⟨⟨3, 0⟩, ⟨1, 1⟩⟩]
  entry := some 0

/-- The leftover wire keeps the graph from compiling. -/
theorem compile_rewired :
    ¬ ((∃ c, rewired.compile .standard = .ok c) ↔ ∃ c, rewired.tidied.compile .standard = .ok c) := by
  have htidied : ∃ c, rewired.tidied.compile .standard = .ok c := ⟨_, rfl⟩
  have hfails : rewired.compile .standard = .error (.valueFanIn ⟨1, 1⟩ 2) := rfl
  intro hiff
  obtain ⟨c, hc⟩ := hiff.mpr htidied
  rw [hfails] at hc
  cases hc

end Graph

end FlowGraph
