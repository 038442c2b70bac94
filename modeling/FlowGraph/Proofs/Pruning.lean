import FlowGraph.Proofs.Lockstep
import FlowGraph.Proofs.Reports

/-! # Wires that lead nowhere

    A wire that is reported as a problem does not matter: without it, the
    graph compiles to the same program.

    Such a wire is `Idle`: it arrives at a value input and starts at no value
    output, or it leaves a signal output and ends at no signal input. So it
    brings no value, it runs no node, and it is not among the wires that
    decide whether an output is shared. The walk of the graph without such
    wires goes side by side with the walk of the graph (`parallel_without`).

    Main statement: `compile_without_problems`.
-/

namespace FlowGraph

namespace Graph

/-! ## Graphs without some wires -/

/-- The graph without the wires of these numbers. The others keep their order. -/
def without (g : Graph) (ids : List WireId) : Graph :=
  { g with wires := (g.numberedWires.filter fun x => x.1 ∉ ids).map Prod.snd }

/-- Wires chosen by what they connect, without some of them. -/
theorem without_filter (g : Graph) (ids : List WireId) (chosen : Wire → Bool) :
    ((g.without ids).numberedWires.filter fun x => chosen x.2).map Prod.snd =
      ((g.numberedWires.filter fun x => chosen x.2).filter fun x => x.1 ∉ ids).map Prod.snd := by
  rw [map_snd_filter, numberedWires_map_snd, List.filter_comm, map_snd_filter]
  rfl

theorem without_leaving (g : Graph) (ids : List WireId) (p : Port) :
    ((g.without ids).leaving p).map Prod.snd =
      ((g.leaving p).filter fun x => x.1 ∉ ids).map Prod.snd :=
  without_filter g ids fun w => w.source == p

theorem without_arriving (g : Graph) (ids : List WireId) (p : Port) :
    ((g.without ids).arriving p).map Prod.snd =
      ((g.arriving p).filter fun x => x.1 ∉ ids).map Prod.snd :=
  without_filter g ids fun w => w.target == p

/-! ## Idle wires -/

/-- The wire arrives at a value input and brings no value, or leaves a signal
    output and runs no node. -/
def Idle (g : Graph) (w : Wire) : Prop :=
  g.isValueInput w.target = true ∧ g.isValueOutput w.source = false ∨
    g.isSignalOutput w.source = true ∧ g.isSignalInput w.target = false

theorem Idle.isValueOutput {g : Graph} {w : Wire} (h : g.Idle w) : g.isValueOutput w.source = false := by
  rcases h with ⟨-, hno⟩ | ⟨hsignal, -⟩
  · exact hno
  · unfold isSignalOutput at hsignal
    unfold Graph.isValueOutput
    cases hdecl : g.output? w.source with
    | none => rfl
    | some decl => simpa [hdecl] using hsignal

theorem Idle.isSignalInput {g : Graph} {w : Wire} (h : g.Idle w) : g.isSignalInput w.target = false := by
  rcases h with ⟨hvalue, -⟩ | ⟨-, hno⟩
  · unfold isValueInput at hvalue
    unfold Graph.isSignalInput
    cases hdecl : g.input? w.target with
    | none => rfl
    | some decl => simpa [hdecl] using hvalue
  · exact hno

/-- All wires of these numbers are idle. -/
def AllIdle (g : Graph) (ids : List WireId) : Prop :=
  ∀ id ∈ ids, ∀ w, (id, w) ∈ g.numberedWires → g.Idle w

/-- A wire of which there is something to say is idle. -/
theorem Loose.idle {g : Graph} {id : WireId} {w : Wire} {problem : LooseWire} (h : g.Loose id w problem) :
    g.Idle w := by
  obtain ⟨hsource | htarget, hnot⟩ := exists_loose_iff.mp ⟨problem, h⟩
  · refine .inr ⟨hsource.isSignalOutput, ?_⟩
    rw [← Bool.not_eq_true]
    exact fun hsignal => hnot (.inl ⟨hsource.isSignalOutput, hsignal⟩)
  · refine .inl ⟨htarget.1, ?_⟩
    rw [← Bool.not_eq_true]
    exact fun hvalue => hnot (.inr ⟨hvalue, htarget.1⟩)

/-- A walk reports idle wires only. -/
theorem allIdle_of_walk {g : Graph} {body : Code} {draft : Draft} (h : g.walk .standard = .ok (body, draft)) :
    g.AllIdle (draft.problems.map LooseWire.wire) := by
  intro id hid w hw
  obtain ⟨problem, hproblem, rfl⟩ := List.mem_map.mp hid
  obtain ⟨w', hw', hloose⟩ := ((honest_of_walk h).reports problem hproblem).resolve_left List.not_mem_nil
  have heq := (mem_numberedWires.mp hw').symm.trans (mem_numberedWires.mp hw)
  cases heq
  exact hloose.idle

/-! ## The same walk -/

/-- What is built stays as it is. Only wires that are taken out are reported,
    so none is in the graph without them. -/
def pruning (removed : List WireId) : Rendering :=
  { unchanged with
    Drafts := fun d e => e = d.reporting []
    Valid := fun d => ∀ problem ∈ d.problems, problem.wire ∈ removed
    start := rfl
    valid_of_exact := False.elim
    valid_of_record := fun h problem hproblem => h problem (mem_record.mpr (.inl hproblem))
    forget := fun _ _ _ _ he => he.trans (Draft.record_reporting _ _ _).symm }

section

variable {g : Graph} {removed : List WireId}

/-- A wire is not reported if it is kept, so both graphs find what is at its
    end. -/
theorem mirrors_kept {α : Type} {x x' : Walk (Option α)} {wire : WireId} (hkept : wire ∉ removed)
    (hsome : ∀ {d a d₁}, x d = .ok (some a, d₁) → d₁ = d ∧ ∀ e, x' e = .ok (some a, e))
    (hnone : ∀ {d d₁}, x d = .ok (none, d₁) → ∃ problem : LooseWire, problem.wire = wire ∧ d₁ = d.record problem) :
    Mirrors (pruning removed) (Option.map id) x x' := by
  refine Mirrors.found not_false hsome ?_
  intro d d₁ hok hvalid
  obtain ⟨problem, rfl, rfl⟩ := hnone hok
  exact absurd (hvalid problem (mem_record.mpr (.inr rfl))) hkept

namespace AllIdle

variable (h : g.AllIdle removed)

include h

/-- Every wire of a value output stays. -/
theorem leaving_length {p : Port} (hvalue : g.isValueOutput p = true) :
    ((g.without removed).leaving p).length = (g.leaving p).length := by
  have hkept : (g.leaving p).filter (fun x => x.1 ∉ removed) = g.leaving p := by
    refine List.filter_eq_self.mpr ?_
    rintro ⟨id, w⟩ hw
    obtain ⟨hmem, hsource⟩ := mem_leaving.mp hw
    refine decide_eq_true ?_
    intro hid
    have hno := (h id hid w hmem).isValueOutput
    rw [show w.source = p from hsource, hvalue] at hno
    cases hno
  have hlength := congrArg List.length (g.without_leaving removed p)
  rwa [hkept, List.length_map, List.length_map] at hlength

/-- A signal runs the same nodes without wires that run none. -/
theorem sameTargets {wires wires' : List (WireId × Wire)} (hwires : ∀ x ∈ wires, x ∈ g.numberedWires)
    (hwithout : wires'.map Prod.snd = (wires.filter fun x => x.1 ∉ removed).map Prod.snd) :
    SameTargets (pruning removed) g (g.without removed) wires wires' := by
  induction wires generalizing wires' with
  | nil =>
    obtain rfl : wires' = [] := by simpa using hwithout
    exact .nil
  | cons head rest ih =>
    obtain ⟨id, w⟩ := head
    obtain ⟨hhead, hrest⟩ := List.forall_mem_cons.mp hwires
    by_cases hid : id ∈ removed
    · have hno := (h id hid w hhead).isSignalInput
      exact .lost (lost_target? not_false hno id) (ih hrest (by simpa [hid] using hwithout))
    · obtain ⟨⟨id', w'⟩, rest', rfl, hw', hsame⟩ : ∃ x rest', wires' = x :: rest' ∧ x.2 = w ∧
          rest'.map Prod.snd = (rest.filter fun x => x.1 ∉ removed).map Prod.snd := by
        refine List.map_eq_cons_iff.mp ?_
        simpa [hid] using hwithout
      obtain rfl : w' = w := hw'
      refine .cons (mirrors_kept hid ?_ target?_none) (ih hrest hsame)
      intro d target d₁ hok
      rcases target?_eq_ok hok with ⟨hnone, -, -⟩ | ⟨r, heq, hsignal, hresolve⟩
      · cases hnone
      · cases heq
        obtain ⟨-, hmeant⟩ := meant_of_isSignalInput hsignal hresolve
        exact ⟨rfl, target?_of_meant (g := g.without removed) hresolve hmeant id'⟩

/-- An input takes the same value without wires that bring none. -/
theorem sameSources {compute compute' : Producer → Walk Code}
    (hcompute : ∀ producer, producer.Resolves g →
      Mirrors (pruning removed) id (compute producer) (compute' producer)) (p : Port) :
    SameSources (pruning removed) g (g.without removed) compute compute' (g.arriving p)
      ((g.without removed).arriving p) := by
  have hwithout := g.without_arriving removed p
  have hnumbered : ∀ x ∈ g.arriving p, x ∈ g.numberedWires := fun x hx => (mem_arriving.mp hx).1
  rcases hwires : g.arriving p with _ | ⟨⟨wire, w⟩, _ | ⟨second, others⟩⟩
  · obtain hwires' : (g.without removed).arriving p = [] := by simpa [hwires] using hwithout
    rw [hwires']
    exact .none
  · have hw : (wire, w) ∈ g.numberedWires := hnumbered _ (by simp [hwires])
    by_cases hid : wire ∈ removed
    · obtain hwires' : (g.without removed).arriving p = [] := by simpa [hwires, hid] using hwithout
      rw [hwires']
      exact .lost (lost_producer? not_false (h wire hid w hw).isValueOutput wire)
    · obtain ⟨⟨wire', w'⟩, hwires', rfl⟩ : ∃ x, (g.without removed).arriving p = [x] ∧ x.2 = w := by
        refine List.map_eq_singleton_iff.mp ?_
        simpa [hwires, hid] using hwithout
      rw [hwires']
      refine .one id (mirrors_kept hid ?_ producer?_none) fun producer hres _ => ⟨rfl, hcompute producer hres⟩
      intro d producer d₁ hok
      obtain ⟨rfl, hport, hres⟩ := resolves_of_producer? hok
      exact ⟨rfl, producer?_of_resolves (g := g.without removed) ⟨hres.source, hres.decl, hres.value⟩ wire' hport⟩
  · exact .many (by simp) False.elim

/-- The graph and the graph without idle wires. -/
theorem parallel_without : Parallel (pruning removed) (fun _ => True) g (g.without removed) where
  start := (Renaming.same_result (g.start .standard)).symm
  entry _ := trivial
  recipe hmeant := Renaming.same.renders_visit hmeant
  known? {v d e} _ _ he := by
    obtain rfl : e = d.reporting [] := he
    cases v with
    | activate r input => rfl
    | compute producer => exact Option.map_id'.symm
  fanOut _ hvalue := h.leaving_length hvalue
  share {p code default d} _ hvalid := by
    refine ⟨hvalid, fun e he => ?_⟩
    obtain rfl : e = d.reporting [] := he
    exact ⟨rfl, rfl⟩
  targets {e p} _ _ _ := by
    refine ⟨h.sameTargets (fun x hx => (mem_leaving.mp hx).1) (g.without_leaving removed p), ?_⟩
    exact fun _ _ => trivial
  sources {depth opened} _ hdeeper e p _ _ _ := by
    refine h.sameSources ?_ p
    intro producer hres
    exact hdeeper (.compute producer) trivial hres

end AllIdle

end

/-! ## Whole graphs -/

/-- The walk without the wires that it reports. -/
theorem walk_without {g : Graph} {body : Code} {draft : Draft} (h : g.walk .standard = .ok (body, draft)) :
    (g.without (draft.problems.map LooseWire.wire)).walk .standard = .ok (body, draft.reporting []) := by
  obtain ⟨draft', hwalk', rfl⟩ := (allIdle_of_walk h).parallel_without.exists_walk h
    fun problem hproblem => List.mem_map_of_mem hproblem
  exact hwalk'

/-- A wire that is reported as a problem behaves as if it were not there:
    without all of them, the graph compiles to the same program, and without
    any problem. -/
theorem compile_without_problems {g : Graph} {c : Compilation} (h : g.compile .standard = .ok c) :
    (g.without (c.problems.map LooseWire.wire)).compile .standard = .ok ⟨c.program, []⟩ := by
  obtain ⟨body, draft, hwalk, rfl⟩ := compile_eq_ok h
  have hproblems : (draft.finish body).problems = draft.problems :=
    congrArg Compilation.problems (draft.finish_reporting draft.problems body)
  unfold compile
  rw [hproblems, walk_without hwalk]
  exact congrArg Except.ok (draft.finish_reporting [] body)

/-- A command that a signal runs. Another wire of the same signal ends at a
    removed node, one at the value of the command, and the signal behind the
    command ends at an input that its node does not have. -/
def frayed : Graph where
  nodes := [some ⟨"start", [], none⟩, some ⟨"emit:text", [], some "show"⟩, none,
    some ⟨"query:text", [], some "name"⟩]
  wires := [⟨⟨0, 0⟩, ⟨1, 0⟩⟩, ⟨⟨0, 0⟩, ⟨2, 0⟩⟩, ⟨⟨0, 0⟩, ⟨1, 1⟩⟩, ⟨⟨3, 0⟩, ⟨1, 0⟩⟩, ⟨⟨1, 0⟩, ⟨3, 7⟩⟩]
  entry := some 0

theorem compile_without_problems_frayed :
    ∃ program, frayed.compile .standard =
        .ok ⟨program, [.signalIntoValue 2 ⟨1, 1⟩, .missingInput 4 ⟨3, 7⟩, .missingTarget 1 2]⟩ ∧
      frayed.without [2, 4, 1] = { frayed with wires := [⟨⟨0, 0⟩, ⟨1, 0⟩⟩, ⟨⟨3, 0⟩, ⟨1, 0⟩⟩] } ∧
      (frayed.without [2, 4, 1]).compile .standard = .ok ⟨program, []⟩ := by
  obtain ⟨program, hprogram⟩ : ∃ program, frayed.compile .standard =
      .ok ⟨program, [.signalIntoValue 2 ⟨1, 1⟩, .missingInput 4 ⟨3, 7⟩, .missingTarget 1 2]⟩ := ⟨_, rfl⟩
  exact ⟨program, hprogram, by decide, compile_without_problems hprogram⟩

end Graph

end FlowGraph
