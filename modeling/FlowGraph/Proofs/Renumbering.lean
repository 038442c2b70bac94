import Mathlib.Data.List.Sort
import FlowGraph.Proofs.Lockstep
import FlowGraph.Proofs.Pruning

/-! # Graphs with other numbers

    Two graphs are walked side by side if the second one is the first one
    under other names, as far as the walk looks at it (`Renaming.Matches`): at
    its entry, at the wires of a port and at the nodes that it comes to, which
    are `Connected` to the entry. Failures are carried over as well.

    Main statements: what is not connected cannot be told from the result
    (`compile_of_connected`), and neither can the numbers, except where it
    names them (`compile_renumbered`).
-/

namespace FlowGraph

namespace Graph

/-- The nodes that the walk can come to: the entry, and from there the targets
    of the wires that leave signal outputs and the sources of the wires that
    arrive at value inputs. -/
inductive Connected (g : Graph) : NodeId → Prop
  | entry {id : NodeId} : g.entry = some id → Connected g id
  | target {w : Wire} : w ∈ g.wires → Connected g w.source.node → g.isSignalOutput w.source = true →
    Connected g w.target.node
  | source {w : Wire} : w ∈ g.wires → Connected g w.target.node → g.isValueInput w.target = true →
    Connected g w.source.node

/-- What is built is the same under other names, and so is what goes wrong. -/
def renumbering (ρ : Renaming) : Rendering :=
  { unchanged with
    name := ρ
    Drafts := fun d e => e = ρ.draft d
    Exact := True
    start := ρ.draft_empty.symm
    valid_of_exact := fun _ _ => trivial
    forget := fun h => absurd trivial h }

/-- Both steps give the same, or fail in the same way, under their names. -/
theorem Mirrors.of_eq {ρ : Renaming} {α β : Type} {f : α → β} {x : Walk α} {x' : Walk β}
    (h : ∀ d, x' (ρ.draft d) = ρ.result (Prod.map f ρ.draft) (x d)) : Mirrors (renumbering ρ) f x x' where
  ok {d a d₁} hok _ := by
    refine ⟨trivial, ?_⟩
    rintro e rfl
    exact ⟨ρ.draft d₁, by rw [h, hok]; rfl, rfl⟩
  error {d err} _ herror := by
    rintro e rfl
    rw [h, herror]
    rfl

end Graph

/-- The second graph is the first one under other names, as far as the walk
    looks at it. The wires of an input may come in another order. -/
structure Renaming.Matches (ρ : Renaming) (g g' : Graph) : Prop where
  entry : g'.entry = g.entry.map ρ.node
  node? : ∀ id, g.Connected id → g'.node? (ρ.node id) = g.node? id
  leaving : ∀ p, g'.leaving (ρ.port p) = (g.leaving p).map ρ.numbered
  arriving : ∀ p, (g'.arriving (ρ.port p)).Perm ((g.arriving p).map ρ.numbered)

namespace Renaming.Matches

open FlowGraph.Graph

variable {ρ : Renaming} {g g' : Graph} (h : ρ.Matches g g')

include h

theorem resolve_renamed {id : NodeId} (hid : g.Connected id) :
    g'.resolve .standard (ρ.node id) = ρ.result (Option.map ρ.resolved) (g.resolve .standard id) := by
  unfold resolve
  rw [h.node? id hid]
  cases g.node? id with
  | none => rfl
  | some node =>
    cases hkind : Catalog.standard.get? node.kind with
    | none => simp only [hkind]; rfl
    | some kind =>
      have hstray : Resolved.strayInset? ⟨ρ.node id, node, kind⟩ = Resolved.strayInset? ⟨id, node, kind⟩ := rfl
      simp only [hkind, hstray]
      cases Resolved.strayInset? ⟨id, node, kind⟩ <;> rfl

theorem mirrors_producer? (id : WireId) {w : Wire} (hw : g.Connected w.source.node) :
    Mirrors (renumbering ρ) (Option.map ρ.producer) (g.producer? .standard id w)
      (g'.producer? .standard (ρ.wire id) (ρ.ends w)) := by
  refine Mirrors.of_eq fun d => ?_
  have hresolve : g'.resolve .standard (ρ.ends w).source.node = _ := h.resolve_renamed hw
  rw [producer?_apply, producer?_apply, hresolve]
  cases g.resolve .standard w.source.node with
  | error e => rfl
  | ok found =>
    show Except.ok (reported (ρ.draft d) (sourceAt (ρ.wire id) (ρ.ends w) (found.map ρ.resolved))) = _
    rw [ρ.sourceAt_renamed, ρ.reported_found]
    rfl

theorem mirrors_target? (id : WireId) {w : Wire} (hw : g.Connected w.target.node) :
    Mirrors (renumbering ρ) (Option.map ρ.target) (g.target? .standard id w)
      (g'.target? .standard (ρ.wire id) (ρ.ends w)) := by
  refine Mirrors.of_eq fun d => ?_
  have hresolve : g'.resolve .standard (ρ.ends w).target.node = _ := h.resolve_renamed hw
  rw [target?_apply, target?_apply, hresolve]
  cases g.resolve .standard w.target.node with
  | error e => rfl
  | ok found =>
    show Except.ok (reported (ρ.draft d) (targetAt (ρ.wire id) (ρ.ends w) (found.map ρ.resolved))) = _
    rw [ρ.targetAt_renamed, ρ.reported_found]
    rfl

theorem sameTargets {wires : List (WireId × Wire)} (hwires : ∀ x ∈ wires, g.Connected x.2.target.node) :
    SameTargets (renumbering ρ) g g' wires (wires.map ρ.numbered) := by
  induction wires with
  | nil => exact .nil
  | cons head rest ih =>
    obtain ⟨hhead, hrest⟩ := List.forall_mem_cons.mp hwires
    exact .cons (h.mirrors_target? head.1 hhead) (ih hrest)

/-- The wires that arrive at a value input of a connected node. One wire stays
    one wire; of several, only their number counts. -/
theorem sameSources {compute compute' : Producer → Walk Code}
    (hcompute : ∀ p, p.Resolves g → g.Connected p.port.node →
      Mirrors (renumbering ρ) id (compute p) (compute' (ρ.producer p)))
    {p : Port} (hconnected : g.Connected p.node) (hvalue : g.isValueInput p = true) :
    SameSources (renumbering ρ) g g' compute compute' (g.arriving p) (g'.arriving (ρ.port p)) := by
  have harriving := h.arriving p
  have hmem : ∀ x ∈ g.arriving p, x ∈ g.numberedWires ∧ x.2.target = p := fun x hx => mem_arriving.mp hx
  rcases hwires : g.arriving p with _ | ⟨x, _ | ⟨second, others⟩⟩
  · rw [hwires] at harriving
    rw [List.perm_nil.mp harriving]
    exact .none
  · rw [hwires] at harriving
    rw [List.perm_singleton.mp harriving]
    obtain ⟨hnumbered, htarget⟩ := hmem x (by simp [hwires])
    have hsource : g.Connected x.2.source.node := by
      refine .source (List.mem_of_getElem? (mem_numberedWires.mp hnumbered)) ?_ ?_
      · rw [htarget]
        exact hconnected
      · rw [htarget]
        exact hvalue
    refine .one ρ.producer (h.mirrors_producer? x.1 hsource) ?_
    intro producer hres hport
    exact ⟨rfl, hcompute producer hres (hport ▸ hsource)⟩
  · have hlength := harriving.length_eq
    rw [hwires, List.length_map] at hlength
    exact .many (by simp) fun _ => hlength

theorem start_renamed : g'.start .standard = ρ.result ρ.resolved (g.start .standard) := by
  unfold start
  rw [h.entry]
  cases hentry : g.entry with
  | none => rfl
  | some id =>
    simp only [Option.map_some]
    rw [h.resolve_renamed (.entry hentry)]
    cases g.resolve .standard id with
    | error e => rfl
    | ok found => cases found <;> rfl

/-- Both graphs are walked side by side: from a connected node, the walk comes
    to connected nodes. -/
theorem parallel : Parallel (renumbering ρ) (fun e => g.Connected e.node) g g' where
  start := h.start_renamed
  entry hentry := .entry hentry
  recipe hmeant := ρ.renders_visit hmeant
  known? {v d e} _ _ he := by
    obtain rfl : e = ρ.draft d := he
    exact (ρ.known?_visit v d).trans Option.map_id'.symm
  fanOut {p} _ _ := by
    show (g'.leaving (ρ.port p)).length = _
    rw [h.leaving p, List.length_map]
  share {p code default d} _ _ := by
    refine ⟨trivial, ?_⟩
    rintro e rfl
    exact ⟨rfl, rfl⟩
  targets {e p} he hnode hsignal := by
    have htarget : ∀ x ∈ g.leaving p, g.Connected x.2.target.node := by
      intro x hx
      obtain ⟨hnumbered, hsource⟩ := mem_leaving.mp hx
      refine .target (List.mem_of_getElem? (mem_numberedWires.mp hnumbered)) ?_ ?_
      · rw [hsource, hnode]
        exact he
      · rw [hsource]
        exact hsignal
    refine ⟨?_, htarget⟩
    show SameTargets (renumbering ρ) g g' (g.leaving p) (g'.leaving (ρ.port p))
    rw [h.leaving p]
    exact h.sameTargets htarget
  sources {depth opened} _ hdeeper e p he hnode hvalue := by
    refine h.sameSources ?_ (hnode ▸ he) hvalue
    intro producer hres hconnected
    exact hdeeper (.compute producer) hconnected hres

/-- The walks give the same draft under other names, or fail in the same way. -/
theorem walk_renamed : g'.walk .standard = ρ.result (Prod.map id ρ.draft) (g.walk .standard) := by
  cases hwalk : g.walk .standard with
  | error e => exact h.parallel.walk_error trivial hwalk
  | ok s =>
    obtain ⟨body, draft⟩ := s
    obtain ⟨draft', hwalk', rfl⟩ := h.parallel.exists_walk hwalk trivial
    exact hwalk'

/-- A graph under other names compiles to the same program. -/
theorem compile_renamed : g'.compile .standard = ρ.result ρ.compilation (g.compile .standard) := by
  unfold compile
  rw [h.walk_renamed]
  cases g.walk .standard with
  | error e => rfl
  | ok s =>
    obtain ⟨body, d⟩ := s
    have hfinish : (ρ.draft d).finish body = ⟨(d.finish body).program, d.problems.map ρ.problem⟩ :=
      d.finish_with _ _ body
    have hproblems : (d.finish body).problems = d.problems :=
      congrArg Compilation.problems (d.finish_with d.memo d.problems body)
    show Except.ok ((ρ.draft d).finish body) = .ok (ρ.compilation (d.finish body))
    rw [hfinish, Renaming.compilation, hproblems]

end Renaming.Matches

namespace Graph

variable {ρ : Renaming} {g g' : Graph}

/-! ## What is not connected -/

theorem matches_same (hwires : g'.wires = g.wires) (hentry : g'.entry = g.entry)
    (hnodes : ∀ id, g.Connected id → g'.node? id = g.node? id) : Renaming.same.Matches g g' where
  entry := by
    rw [hentry]
    exact Option.map_id'.symm
  node? := hnodes
  leaving p := by
    have hsame : (g.leaving p).map Renaming.same.numbered = g.leaving p := List.map_id _
    rw [hsame]
    simp only [leaving, numberedWires, hwires]
    rfl
  arriving p := by
    have hsame : (g.arriving p).map Renaming.same.numbered = g.arriving p := List.map_id _
    rw [hsame]
    simp only [arriving, numberedWires, hwires]
    exact List.Perm.refl _

theorem compilation_same : Renaming.same.compilation = id := by
  have hproblem : Renaming.same.problem = id := by
    funext problem
    cases problem <;> rfl
  funext c
  simp [Renaming.compilation, hproblem]

/-- Nodes that are not connected to the entry have no influence: any of them
    may be replaced by another node, of whatever kind, or be taken out. -/
theorem compile_of_connected {g g' : Graph} (hwires : g'.wires = g.wires) (hentry : g'.entry = g.entry)
    (hnodes : ∀ id, g.Connected id → g'.node? id = g.node? id) :
    g'.compile .standard = g.compile .standard := by
  have hcompile := (matches_same hwires hentry hnodes).compile_renamed
  rw [compilation_same, Renaming.same_result] at hcompile
  exact hcompile

/-- A command shows what a host function gives. Two more nodes are wired to
    them, one of an unknown kind and one without its tag, but no signal comes
    to them and no value is needed of them. -/
def stranded : Graph where
  nodes := [some ⟨"start", [], none⟩, some ⟨"emit:text", [], some "show"⟩,
    some ⟨"query:text", [], some "name"⟩, some ⟨"mystery", [], none⟩, some ⟨"set_variable:text", [], none⟩]
  wires := [⟨⟨0, 0⟩, ⟨1, 0⟩⟩, ⟨⟨2, 0⟩, ⟨1, 1⟩⟩, ⟨⟨2, 0⟩, ⟨4, 1⟩⟩, ⟨⟨3, 0⟩, ⟨1, 0⟩⟩, ⟨⟨4, 0⟩, ⟨1, 0⟩⟩]
  entry := some 0

theorem connected_stranded {id : NodeId} (h : stranded.Connected id) : id ≤ 2 := by
  have hsignals : ∀ w ∈ stranded.wires, w.source.node ≤ 2 → stranded.isSignalOutput w.source = true →
      w.target.node ≤ 2 := by decide
  have hvalues : ∀ w ∈ stranded.wires, w.target.node ≤ 2 → stranded.isValueInput w.target = true →
      w.source.node ≤ 2 := by decide
  induction h with
  | entry hentry => cases hentry; decide
  | target hw _ hsignal ih => exact hsignals _ hw ih hsignal
  | source hw _ hvalue ih => exact hvalues _ hw ih hvalue

/-- One of the two nodes is removed, the other one replaced by a node with a
    literal for an input that it does not have. -/
def strandedAnew : Graph :=
  { stranded with nodes := stranded.nodes.take 3 ++ [none, some ⟨"start", [some .null], none⟩] }

theorem compile_of_connected_stranded :
    strandedAnew.node? 3 ≠ stranded.node? 3 ∧ strandedAnew.node? 4 ≠ stranded.node? 4 ∧
      strandedAnew.compile .standard = stranded.compile .standard := by
  have hall : ∀ id ≤ 2, strandedAnew.node? id = stranded.node? id := by decide
  have hnodes : ∀ id, stranded.Connected id → strandedAnew.node? id = stranded.node? id :=
    fun id hid => hall id (connected_stranded hid)
  exact ⟨by decide, by decide, compile_of_connected rfl rfl hnodes⟩

/-! ## Other numbers for all nodes and wires -/

/-- The second graph is the first one with other numbers. The wires that leave
    one output stay in order. -/
structure Renumbered (ρ : Renaming) (g g' : Graph) : Prop where
  entry : g'.entry = g.entry.map ρ.node
  node? : ∀ id, g'.node? (ρ.node id) = g.node? id
  wire? : ∀ id, g'.wire? (ρ.wire id) = (g.wire? id).map ρ.ends
  ordered : ∀ {i j w w'}, g.wire? i = some w → g.wire? j = some w' → w.source = w'.source → i < j →
    ρ.wire i < ρ.wire j

theorem pairwise_numberedWires (g : Graph) : g.numberedWires.Pairwise fun x y => x.1 < y.1 := by
  have hids : g.numberedWires.map Prod.fst = List.range' 0 g.wires.length := by
    simp [numberedWires, Function.comp_def]
  have hsorted : (List.range' 0 g.wires.length).Pairwise (· < ·) := List.pairwise_lt_range'
  rwa [← hids, List.pairwise_map] at hsorted

theorem nodup_numberedWires (g : Graph) : g.numberedWires.Nodup := by
  apply g.pairwise_numberedWires.imp
  intro x y hlt heq
  rw [heq] at hlt
  exact Nat.lt_irrefl _ hlt

namespace Renumbered

variable (h : Renumbered ρ g g')

include h

/-- The wires of both graphs, regardless of their order. -/
theorem numberedWires : g'.numberedWires.Perm (g.numberedWires.map ρ.numbered) := by
  -- no wire is listed twice, so both lists have to have the same members
  have hnodup := g.nodup_numberedWires.map ρ.numbered_injective
  rw [List.perm_ext_iff_of_nodup g'.nodup_numberedWires hnodup]
  intro y
  obtain ⟨id, w'⟩ := y
  obtain ⟨id, rfl⟩ := ρ.wire.surjective id
  have hwire : g'.wires[ρ.wire id]? = g.wires[id]?.map ρ.ends := h.wire? id
  rw [mem_numberedWires, hwire, Option.map_eq_some_iff, List.mem_map]
  constructor
  · rintro ⟨w, hw, rfl⟩
    exact ⟨(id, w), mem_numberedWires.mpr hw, rfl⟩
  · rintro ⟨x, hx, heq⟩
    obtain ⟨hid, hw⟩ := Prod.mk.inj heq
    obtain rfl := ρ.wire.injective hid
    exact ⟨x.2, mem_numberedWires.mp hx, hw⟩

/-- The wires at a port, regardless of their order. -/
theorem filter {side : Wire → Port} (hside : ∀ w, side (ρ.ends w) = ρ.port (side w)) (p : Port) :
    (g'.numberedWires.filter fun x => side x.2 == ρ.port p).Perm
      ((g.numberedWires.filter fun x => side x.2 == p).map ρ.numbered) := by
  have hperm := h.numberedWires.filter fun x => side x.2 == ρ.port p
  have hchosen : ((fun x : WireId × Wire => side x.2 == ρ.port p) ∘ ρ.numbered) = fun x => side x.2 == p := by
    funext x
    show (side (ρ.ends x.2) == ρ.port p) = _
    rw [hside, ρ.port_beq]
  rwa [List.filter_map, hchosen] at hperm

/-- Wires that leave one output come in the same order, by their numbers. -/
theorem leaving (p : Port) : g'.leaving (ρ.port p) = (g.leaving p).map ρ.numbered := by
  have hsorted' := g'.pairwise_numberedWires.filter fun x => x.2.source == ρ.port p
  have hsorted : ((g.leaving p).map ρ.numbered).Pairwise fun x y => x.1 < y.1 := by
    rw [List.pairwise_map]
    apply (g.pairwise_numberedWires.filter fun x => x.2.source == p).imp_of_mem
    intro x y hx hy hlt
    obtain ⟨hx, hsource⟩ := mem_leaving.mp hx
    obtain ⟨hy, hsource'⟩ := mem_leaving.mp hy
    exact h.ordered (mem_numberedWires.mp hx) (mem_numberedWires.mp hy) (hsource.trans hsource'.symm) hlt
  -- sorted lists with the same members are the same
  apply (h.filter (fun _ => rfl) p).eq_of_pairwise _ hsorted' hsorted
  intro x y _ _ hlt hlt'
  exact absurd hlt' (Nat.lt_asymm hlt)

theorem toMatches : ρ.Matches g g' where
  entry := h.entry
  node? id _ := h.node? id
  leaving := h.leaving
  arriving p := h.filter (fun _ => rfl) p

end Renumbered

/-- Compilation does not depend on numbers: a graph with other numbers for its
    nodes and its wires compiles to the same program, and whatever is reported
    or wrong is the same under the other numbers, in the same order. -/
theorem compile_renumbered {ρ : Renaming} {g g' : Graph} (h : Renumbered ρ g g') :
    g'.compile .standard = ρ.result ρ.compilation (g.compile .standard) :=
  h.toMatches.compile_renamed

/-- The command has exchanged its number with the host function that it shows,
    and so have the last two wires. -/
def frayedAnew : Graph where
  nodes := [some ⟨"start", [], none⟩, some ⟨"query:text", [], some "name"⟩, none,
    some ⟨"emit:text", [], some "show"⟩]
  wires := [⟨⟨0, 0⟩, ⟨3, 0⟩⟩, ⟨⟨0, 0⟩, ⟨2, 0⟩⟩, ⟨⟨0, 0⟩, ⟨3, 1⟩⟩, ⟨⟨3, 0⟩, ⟨1, 7⟩⟩, ⟨⟨1, 0⟩, ⟨3, 0⟩⟩]
  entry := some 0

theorem renumbered_frayed : Renumbered ⟨.swap 1 3, .swap 3 4⟩ frayed frayedAnew where
  entry := rfl
  node? id := by
    rcases id with _ | _ | _ | _ | id
    iterate 4 rfl
    have hid : (Equiv.swap 1 3 : Equiv.Perm Nat) (id + 4) = id + 4 :=
      Equiv.swap_apply_of_ne_of_ne (by omega) (by omega)
    show frayedAnew.node? ((Equiv.swap 1 3 : Equiv.Perm Nat) (id + 4)) = _
    rw [hid]
    rfl
  wire? id := by
    rcases id with _ | _ | _ | _ | _ | id
    iterate 5 rfl
    have hid : (Equiv.swap 3 4 : Equiv.Perm Nat) (id + 5) = id + 5 :=
      Equiv.swap_apply_of_ne_of_ne (by omega) (by omega)
    show frayedAnew.wire? ((Equiv.swap 3 4 : Equiv.Perm Nat) (id + 5)) = _
    rw [hid]
    rfl
  ordered {i j w w'} hi hj hsource hlt := by
    -- only the first three wires leave one output, and they keep their numbers
    have hall : ∀ i < 5, ∀ j < 5, (frayed.wire? i).map Wire.source = (frayed.wire? j).map Wire.source → i < j →
        (Equiv.swap 3 4 : Equiv.Perm Nat) i < (Equiv.swap 3 4 : Equiv.Perm Nat) j := by decide
    obtain ⟨hbound, -⟩ := List.getElem?_eq_some_iff.mp hi
    obtain ⟨hbound', -⟩ := List.getElem?_eq_some_iff.mp hj
    exact hall i hbound j hbound' (by simp [hi, hj, hsource]) hlt

theorem compile_renumbered_frayed :
    ∃ program, frayed.compile .standard =
        .ok ⟨program, [.signalIntoValue 2 ⟨1, 1⟩, .missingInput 4 ⟨3, 7⟩, .missingTarget 1 2]⟩ ∧
      frayedAnew.compile .standard =
        .ok ⟨program, [.signalIntoValue 2 ⟨3, 1⟩, .missingInput 3 ⟨1, 7⟩, .missingTarget 1 2]⟩ := by
  obtain ⟨program, hprogram⟩ : ∃ program, frayed.compile .standard =
      .ok ⟨program, [.signalIntoValue 2 ⟨1, 1⟩, .missingInput 4 ⟨3, 7⟩, .missingTarget 1 2]⟩ := ⟨_, rfl⟩
  refine ⟨program, hprogram, ?_⟩
  have hcompile := compile_renumbered renumbered_frayed
  rw [hprogram] at hcompile
  exact hcompile

end Graph

end FlowGraph
