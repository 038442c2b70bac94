import Mathlib
import FlowGraph.Proofs.Recording
import FlowGraph.Proofs.SideBySide

/-! # Reading a variable anew

    A read of a variable with several readers is made once, and what it gave
    is kept in a slot. Here this is compared with a graph in which every
    reader has a read of its own.

    Main statement: unless a run loads the slot behind a later store to the
    variable, the reads can be told apart neither by the host nor by the end
    of the run, and every reader gets what the variable holds at that moment
    (`Graph.compile_splitsRead`). A graph with a store between two readers
    shows that the condition is needed (`Graph.shows_in_turn`).
-/

namespace FlowGraph

variable {σ : Type}

/-! ## Programs with and without the read -/

namespace Draft

/-- Every slot below the next one has a first value. -/
theorem Prepared.sorted_initials {d : Draft} (h : d.Prepared) :
    (∀ i ∈ Initial.sorted d.initials, (Value.ofConst i.value).conforms i.ty = true ∧ i.slot < d.nextSlot) ∧
      ((Initial.sorted d.initials).map Initial.slot).Perm (List.range d.nextSlot) ∧
      (Initial.sorted d.initials).length = d.nextSlot := by
  have hperm := ((Initial.sorted_perm d.initials).map Initial.slot).trans h.packed
  refine ⟨fun i hi => h.initials i ((Initial.sorted_perm _).mem_iff.mp hi), hperm, ?_⟩
  simpa using hperm.length_eq

theorem length_flatMap_ops (list : List Initial) : (list.flatMap Initial.ops).length = 2 * list.length := by
  induction list with
  | nil => rfl
  | cons i rest ih =>
    simp only [List.flatMap_cons, List.length_append, ih, Initial.ops, List.length_cons, List.length_nil]
    omega

/-- Behind the prologues, slots that go together hold the same. -/
theorem Beside.getElem?_eq {q : SharedId} {name : String} {D E : Draft} {read kept : Nat}
    (h : Beside q name D E read kept) (hD : D.Prepared) (hE : E.Prepared) {total total' : Nat}
    (htotal : total + E.nextSlot = total' + D.nextSlot) {locals locals' : Array (Option Value)}
    (hfills : Initial.Fills (Initial.sorted D.initials) (Array.replicate total none) locals)
    (hfills' : Initial.Fills (Initial.sorted E.initials) (Array.replicate total' none) locals') {a b : Nat}
    (htwin : Twin q D E a b) : locals'[b]? = locals[a]? := by
  have hvalue {i : Initial} (hi : i ∈ D.initials) : locals[i.slot]? = some (some (Value.ofConst i.value)) :=
    hfills.values i ((Initial.sorted_perm _).mem_iff.mpr hi)
  have hvalue' {i : Initial} (hi : i ∈ E.initials) : locals'[i.slot]? = some (some (Value.ofConst i.value)) :=
    hfills'.values i ((Initial.sorted_perm _).mem_iff.mpr hi)
  obtain ⟨place, place', hsame, ha, hb⟩ := htwin
  cases hsame with
  | var name => exact (hvalue' (initial_mem_of_var hb)).trans (hvalue (initial_mem_of_var ha)).symm
  | @shared id hid =>
    obtain ⟨entry, hentry, hslot⟩ := ha
    obtain ⟨entry', hentry', hslot'⟩ := hb
    have hshared := h.shared id hid
    rw [hentry, hentry', Option.map_some, Option.map_some] at hshared
    have hdefault := congrArg Shared.default (Option.some.inj hshared)
    simp only [bare] at hdefault
    have hmem := hvalue (initial_mem hentry hslot)
    rw [← hdefault] at hmem
    exact (hvalue' (initial_mem hentry' hslot')).trans hmem.symm
  | temp n =>
    -- a temporary has no first value
    obtain ⟨rfl, -⟩ := ha
    obtain ⟨rfl, -⟩ := hb
    have hother : D.nextSlot + n ∉ (Initial.sorted D.initials).map Initial.slot := by
      simp [hD.sorted_initials.2.1.mem_iff]
    have hother' : E.nextSlot + n ∉ (Initial.sorted E.initials).map Initial.slot := by
      simp [hE.sorted_initials.2.1.mem_iff]
    rw [hfills.others _ hother, hfills'.others _ hother', Array.getElem?_replicate, Array.getElem?_replicate]
    have hiff : E.nextSlot + n < total' ↔ D.nextSlot + n < total := by omega
    simp only [hiff]

section

variable {d e : Draft} {body : Code} {q : SharedId} {name : String} {read kept : Nat} {m m' : Machine}

/-- The two finished programs in machines. -/
def Complete.rereads (hd : d.Complete body) (he : e.Complete (body.unshare q name))
    (hboth : Beside q name (d.prepare body) (e.prepare (body.unshare q name)) read kept)
    (hm : m.Runs (d.finish body).program.ops) (hm' : m'.Runs (e.finish (body.unshare q name)).program.ops)
    (hlimit : m'.limits.stack = m.limits.stack) : Rereads where
  twin := Twin q (d.prepare body) (e.prepare (body.unshare q name))
  read := read
  kept := kept
  start := (d.layout body).draft.prologue.length
  first := (d.finish body).program
  second := (e.finish (body.unshare q name)).program
  keeper := m
  reader := m'
  keeper_runs := hm
  reader_runs := hm'
  limit := hlimit
  pairs htwin htwin' := htwin.eq_iff hboth.apart he.prepared.1.packed.apart htwin'
  apart htwin := htwin.ne_of_at hboth.apart hboth.kept_at
  differ heq := by
    have hplace := hboth.apart _ _ _ hboth.read_at (heq ▸ hboth.kept_at)
    cases hplace
  code := (e.layout (body.unshare q name)).ops ++ [.ret]
  splices := by
    rw [finish_ops, List.append_assoc, List.drop_left]
    exact (hd.splices he hboth).1.append (.same rfl .nil)
  code_suffix := ⟨(e.layout (body.unshare q name)).draft.prologue, by rw [finish_ops, List.append_assoc]⟩
  labels i l hl := by
    refine Nat.le_of_not_lt fun hlt => ?_
    rw [finish_ops, List.append_assoc, List.getElem?_append_left hlt] at hl
    have hnone := List.filterMap_eq_nil_iff.mp (labels_prologue _).1 _ (List.mem_of_getElem? hl)
    cases hnone

theorem Complete.labelled (h : d.Complete body) :
    Labelled 0 (d.layout body).draft.nextLabel (d.finish body).program.ops := by
  obtain ⟨hprepared, hfits, -⟩ := h.prepared
  exact h.lays.labelled_program hprepared.toReserved ⟨_, hfits⟩

theorem Complete.placed_initials (h : d.Complete body) (hm : m.Runs (d.finish body).program.ops) :
    m.Placed 0 ((Initial.sorted (d.prepare body).initials).flatMap Initial.ops) := by
  intro i o ho
  rw [Nat.zero_add, hm.code, finish_ops, List.append_assoc, h.lays.advances.prologue_eq, prologue_eq,
    List.getElem?_append_left (List.getElem?_eq_some_iff.mp ho).1]
  exact ho

theorem Complete.length_prologue (h : d.Complete body) :
    (d.layout body).draft.prologue.length = 2 * (Initial.sorted (d.prepare body).initials).length := by
  rw [h.lays.advances.prologue_eq, prologue_eq, length_flatMap_ops]

/-- Behind the prologues the two machines go together. -/
theorem Complete.paired (hd : d.Complete body) (he : e.Complete (body.unshare q name))
    (hboth : Beside q name (d.prepare body) (e.prepare (body.unshare q name)) read kept)
    (hdefault : ∀ entry, d.shared[q]? = some entry → entry.default = .null)
    (hm : m.Runs (d.finish body).program.ops) (hm' : m'.Runs (e.finish (body.unshare q name)).program.ops)
    (hlimit : m'.limits.stack = m.limits.stack) (past : List Nat) {s s' : Machine.State}
    (hpc : s.pc = (d.layout body).draft.prologue.length)
    (hpc' : s'.pc = (e.layout (body.unshare q name)).draft.prologue.length) (hstack : s'.frame.stack = s.frame.stack)
    (hfills : Initial.Fills (Initial.sorted (d.prepare body).initials)
      (Array.replicate (d.finish body).program.locals none) s.frame.locals)
    (hfills' : Initial.Fills (Initial.sorted (e.prepare (body.unshare q name)).initials)
      (Array.replicate (e.finish (body.unshare q name)).program.locals none) s'.frame.locals) :
    (hd.rereads he hboth hm hm' hlimit).Paired past s s' := by
  obtain ⟨hsplices, haligned⟩ := hd.splices he hboth
  have hread : s.frame.locals[read]? = some (some Value.null) :=
    hfills.values _ ((Initial.sorted_perm _).mem_iff.mpr (initial_mem_of_var hboth.read_at))
  -- both slots start out empty, so what is kept is up to date before anything is read
  have hkept : s.frame.locals[kept]? = some (some Value.null) := by
    obtain ⟨entry, hentry, hslot⟩ := hboth.kept_at
    obtain ⟨entry₀, hentry₀, -, -, hsame⟩ := hd.reserves.getElem? hentry
    have hvalue := hfills.values _ ((Initial.sorted_perm _).mem_iff.mpr (initial_mem hentry hslot))
    rwa [hsame, hdefault entry₀ hentry₀] at hvalue
  exact {
    splices := by
      rw [hpc, hpc']
      simp only [rereads, finish_ops, List.append_assoc, List.drop_left]
      exact hsplices.append (.same rfl .nil)
    started := Nat.le_of_eq hpc.symm
    stack := hstack
    locals := fun htwin =>
      hboth.getElem?_eq hd.prepared.1 he.prepared.1 haligned.nextSlot hfills hfills' htwin
    readable := ⟨_, hread, rfl⟩
    keepable := (Array.getElem?_eq_some_iff.mp hkept).1
    current := .inl (hkept.trans hread.symm) }

/-- From the start on, the two machines agree. -/
theorem Complete.agrees {host : Host σ} {w : σ} {left : Nat} (hd : d.Complete body)
    (he : e.Complete (body.unshare q name))
    (hboth : Beside q name (d.prepare body) (e.prepare (body.unshare q name)) read kept)
    (hfewer : (e.prepare (body.unshare q name)).nextSlot ≤ (d.prepare body).nextSlot)
    (hdefault : ∀ entry, d.shared[q]? = some entry → entry.default = .null)
    (hm : m.Runs (d.finish body).program.ops) (hm' : m'.Runs (e.finish (body.unshare q name)).program.ops)
    (hlimit : m'.limits.stack = m.limits.stack) (hprogram : m.program = (d.finish body).program)
    (hprogram' : m'.program = (e.finish (body.unshare q name)).program)
    (hkeeps : (d.finish body).program.KeepsUp (d.layout body).draft.prologue.length read kept
      (m.executed host left m.start w)) :
    (hd.rereads he hboth hm hm' hlimit).Agrees host left m.start w left m'.start w := by
  obtain ⟨hlist, hperm, hlength⟩ := hd.prepared.1.sorted_initials
  obtain ⟨hlist', hperm', hlength'⟩ := he.prepared.1.sorted_initials
  have hsize : (d.prepare body).nextSlot ≤ (d.finish body).program.locals := hd.lays.advances.nextSlot
  have hsize' : (e.prepare (body.unshare q name)).nextSlot ≤ (e.finish (body.unshare q name)).program.locals :=
    he.lays.advances.nextSlot
  rw [Machine.start, hprogram] at hkeeps ⊢
  rw [Machine.start, hprogram']
  refine Rereads.Agrees.initials [] (fun i hi => ?_) (hperm.nodup_iff.mpr List.nodup_range)
    (hd.placed_initials hm) hkeeps fun n steps₁ past₁ locals₁ hn hroom hfills hkeeps₁ => ?_
  · rw [Array.size_replicate]
    exact ⟨(hlist i hi).1, Nat.lt_of_lt_of_le (hlist i hi).2 hsize⟩
  -- the second prologue is no longer than the first, so there are steps and room for it
  have hshorter : 2 * (Initial.sorted (e.prepare (body.unshare q name)).initials).length ≤ left := by omega
  obtain ⟨left', hleft'⟩ := Nat.exists_eq_add_of_le' hshorter
  have hroom' : Initial.sorted (e.prepare (body.unshare q name)).initials ≠ [] → 0 < m'.limits.stack := by
    intro hne
    rw [hlimit]
    refine hroom (List.ne_nil_of_length_pos ?_)
    have hpos := List.length_pos_iff.mpr hne
    omega
  rw [hleft']
  refine Rereads.Agrees.initials_reader (fun i hi => ?_) (hperm'.nodup_iff.mpr List.nodup_range)
    (he.placed_initials hm') hroom' fun steps₁' locals₁' hfills' => ?_
  · rw [Array.size_replicate]
    exact ⟨(hlist' i hi).1, Nat.lt_of_lt_of_le (hlist' i hi).2 hsize'⟩
  refine Rereads.goes n (hd.paired he hboth hdefault hm hm' hlimit past₁ ?_ ?_ rfl hfills hfills') ?_ hkeeps₁
  · rw [hd.length_prologue, Nat.zero_add]
  · rw [he.length_prologue, Nat.zero_add]
  · omega

/-- Runs of the two programs, when what is kept is never loaded out of date. -/
theorem Complete.reread {host : Host σ} {w : σ} {limits : Limits} (hd : d.Complete body)
    (he : e.Complete (body.unshare q name)) (hshared : e.shared = (d.unshare q name).shared)
    (hboth : Beside q name (d.prepare body) (e.prepare (body.unshare q name)) read kept)
    (hdefault : ∀ entry, d.shared[q]? = some entry → entry.default = .null)
    (hkeeps : (d.finish body).program.KeepsUp (d.layout body).draft.prologue.length read kept
      ((d.finish body).program.executed limits host w)) :
    (∀ t ∈ (d.finish body).program.visited limits host w, ∀ ty,
      (d.finish body).program.ops[t.pc]? = some (.load kept ty) → t.frame.locals[kept]? = t.frame.locals[read]?) ∧
    (Limited ((d.finish body).program.run limits host w) ∨
      SameEnd ((d.finish body).program.run limits host w)
        ((e.finish (body.unshare q name)).program.run limits host w)) := by
  rcases Nat.lt_or_ge limits.locals (d.finish body).program.locals with hlt | hle
  · have hload : Machine.load limits (d.finish body).program = .error _ := if_pos hlt
    simp only [Program.visited, Program.run, hload]
    exact ⟨by simp, .inl ⟨_, rfl, rfl⟩⟩
  · -- the second program has no more locals than the first
    have hfewer := hd.nextSlot_lt he hshared hboth
    have htotal := (hd.splices he hboth).2.nextSlot
    have hle' : (e.finish (body.unshare q name)).program.locals ≤ limits.locals := by
      change (e.layout (body.unshare q name)).draft.nextSlot ≤ limits.locals
      change (d.layout body).draft.nextSlot ≤ limits.locals at hle
      omega
    obtain ⟨m, hload, hlimits, hprogram, hm⟩ := Machine.exists_runs hd.labelled hle
    obtain ⟨m', hload', hlimits', hprogram', hm'⟩ := Machine.exists_runs he.labelled hle'
    simp only [Program.executed, Program.visited, Program.run, hload, hload'] at hkeeps ⊢
    have hagrees := hd.agrees he hboth (Nat.le_of_lt hfewer) hdefault hm hm' (by rw [hlimits, hlimits']) hprogram
      hprogram' hkeeps
    exact ⟨hagrees.fresh, hagrees.ends⟩

end

end Draft

/-! ## Watched runs -/

theorem Machine.visited_related {τ : Type} {host : Host σ} {other : Host τ} {S : σ → τ → Prop}
    (h : host.Related other S) (m : Machine) (left : Nat) (s : State) {w : σ} {w' : τ} (hw : S w w') :
    m.visited other left s w' = m.visited host left s w := by
  induction left generalizing s w w' with
  | zero => rfl
  | succ left ih =>
    simp only [visited]
    cases m.code[s.pc]? with
    | none => rfl
    | some op =>
      have hstep := step_related h m op s hw
      dsimp only
      generalize m.step host op s w = r at hstep ⊢
      generalize m.step other op s w' = r' at hstep ⊢
      obtain ⟨progress, w⟩ := r
      obtain ⟨progress', w'⟩ := r'
      obtain ⟨rfl, hw⟩ := hstep
      rcases progress with fault | s' | s'
      · rfl
      · exact congrArg (s :: ·) (ih s' hw)
      · rfl

namespace Program

variable (p : Program) (limits : Limits) (host : Host σ) (w : σ)

theorem map_pc_visited : (p.visited limits host w).map Machine.State.pc = p.executed limits host w := by
  unfold visited executed
  cases Machine.load limits p with
  | error fault => rfl
  | ok m => exact m.map_pc_visited host limits.steps m.start w

/-- A run goes the same way if the host is watched. -/
theorem visited_recorded : p.visited limits host.recorded (w, []) = p.visited limits host w := by
  unfold visited
  cases Machine.load limits p with
  | error fault => rfl
  | ok m => exact Machine.visited_related host.related_recorded m limits.steps m.start rfl

theorem executed_recorded : p.executed limits host.recorded (w, []) = p.executed limits host w := by
  rw [← map_pc_visited, visited_recorded, map_pc_visited]

end Program

/-! ## Graphs with a read for each reader -/

namespace Graph

/-- The program of the graph keeps what the node `n` reads in the slot `kept`.
    The variable has the slot `read`, and the code starts at `start`. -/
def KeepsRead (g : Graph) (n : NodeId) (start read kept : Nat) : Prop :=
  ∃ body draft node name, g.walk .standard = .ok (body, draft) ∧ g.node? n = some node ∧ node.tag = some name ∧
    start = (draft.layout body).draft.prologue.length ∧ (draft.layout body).draft.At (.var name) read ∧
    draft.SharedAt body ⟨n, 0⟩ kept

section

variable {g g' : Graph} {n : NodeId} {copy : WireId → NodeId}

/-- The slots are those of the read and of its variable. -/
theorem KeepsRead.unique {start read kept start' read' kept' : Nat} (h : g.KeepsRead n start read kept)
    (h' : g.KeepsRead n start' read' kept') : start' = start ∧ read' = read ∧ kept' = kept := by
  obtain ⟨body, draft, node, name, hwalk, hnode, htag, rfl, hread, q, hmemo, hkept⟩ := h
  obtain ⟨body', draft', node', name', hwalk', hnode', htag', rfl, hread', q', hmemo', hkept'⟩ := h'
  cases hwalk.symm.trans hwalk'
  cases hnode.symm.trans hnode'
  cases htag.symm.trans htag'
  cases memo_unique hwalk hmemo hmemo'
  exact ⟨rfl, Draft.at_unique hread' hread, Draft.at_unique hkept' hkept⟩

theorem compile_of_walk {body : Code} {draft : Draft} (h : g.walk .standard = .ok (body, draft)) :
    g.compile .standard = .ok (draft.finish body) := by
  unfold compile
  rw [h]
  rfl

theorem complete_of_walk {body : Code} {draft : Draft} (h : g.walk .standard = .ok (body, draft)) :
    draft.Complete body := by
  obtain ⟨log, hwalked⟩ := exists_walk_of_walk h
  exact hwalked.complete

/-- A read that is not shared: there is nothing to keep, and the programs are
    the same. -/
theorem SplitsRead.program_eq (h : g.SplitsRead g' n copy) {body : Code} {draft : Draft}
    (hwalk : g.walk .standard = .ok (body, draft)) (hvalid : g.Unshares n draft.shared.length "" draft) :
    (∀ start read kept, ¬g.KeepsRead n start read kept) ∧
      ∃ draft', g'.walk .standard = .ok (body, draft') ∧ (draft'.finish body).program = (draft.finish body).program := by
  have hcomplete := complete_of_walk hwalk
  constructor
  · rintro start read kept ⟨_, _, _, _, hwalk', -, -, -, -, q, hmemo, -⟩
    cases hwalk.symm.trans hwalk'
    have hlt := hcomplete.fresh.lt_of_mem hmemo
    exact Nat.ne_of_lt hlt ((hvalid.number _ hmemo).mpr rfl)
  · obtain ⟨draft', hwalk', halike⟩ := h.exists_walk hwalk hvalid
    rw [Code.unshare_of_fits hcomplete.fits] at hwalk'
    rw [Draft.unshare_length hcomplete.fresh hcomplete.ordered] at halike
    exact ⟨draft', hwalk', program_eq_of_alike halike body⟩

/-- A read that is shared: the program without it can be run beside the one
    that keeps it. -/
theorem SplitsRead.exists_reread (h : g.SplitsRead g' n copy) {body : Code} {draft : Draft}
    (hwalk : g.walk .standard = .ok (body, draft)) {q : SharedId} {name : String}
    (hread : g.SharesRead n draft q name) (hvalid : g.Unshares n q name draft) :
    ∃ start read kept c', g.KeepsRead n start read kept ∧ g'.compile .standard = .ok c' ∧
      ∀ {τ : Type} (host : Host τ) (limits : Limits) (w : τ),
        (draft.finish body).program.KeepsUp start read kept
          ((draft.finish body).program.executed limits host w) →
        (∀ t ∈ (draft.finish body).program.visited limits host w, ∀ ty,
          (draft.finish body).program.ops[t.pc]? = some (.load kept ty) →
          t.frame.locals[kept]? = t.frame.locals[read]?) ∧
        (Limited ((draft.finish body).program.run limits host w) ∨
          SameEnd ((draft.finish body).program.run limits host w) (c'.program.run limits host w)) := by
  obtain ⟨draft', hwalk', halike⟩ := h.exists_walk hwalk hvalid
  obtain ⟨entry, hentry, hvalue, hty, hdefault⟩ := hread.entry
  obtain ⟨node, hnode, htag⟩ := hread.tag
  have hd := complete_of_walk hwalk
  have he := complete_of_walk hwalk'
  -- the slot of the variable, and the slot that keeps what was read
  obtain ⟨read, kept, hboth⟩ := hd.beside he halike.shared hentry hvalue hty
  have hnull : ∀ entry', draft.shared[q]? = some entry' → entry'.default = .null := by
    intro entry' hentry'
    cases hentry.symm.trans hentry'
    exact hdefault
  refine ⟨_, read, kept, _, ?_, compile_of_walk hwalk', fun host limits w hkeeps =>
    hd.reread he halike.shared hboth hnull hkeeps⟩
  refine ⟨body, draft, node, name, hwalk, hnode, htag, rfl, ?_, q, hread.memo, ?_⟩
  · show (draft.layout body).draft.variableSlots.lookup name = some read
    rw [hd.lays.advances.variableSlots]
    exact hboth.read_at
  · exact hd.lays.advances.at_shared.mpr hboth.kept_at

end

/-- A read of a variable that several readers share may be replaced by a read
    for each of them. The graph still compiles. In every run that reaches no
    limit, and in which the value that was read is never loaded after another
    store to the variable, the host is asked for the same operations with the
    same arguments and the run ends in the same way, and whenever the value is
    loaded it is what the variable holds at that moment. -/
theorem compile_splitsRead {g g' : Graph} {n : NodeId} {copy : WireId → NodeId} (h : g.SplitsRead g' n copy)
    {c : Compilation} (hc : g.compile .standard = .ok c) :
    ∃ c', g'.compile .standard = .ok c' ∧ ∀ (host : Host σ) (limits : Limits) (w : σ),
      ¬Limited (c.program.run limits host w) →
      (∀ start read kept, g.KeepsRead n start read kept →
        c.program.KeepsUp start read kept (c.program.executed limits host w)) →
      SameEnd (c.program.run limits host.recorded (w, [])) (c'.program.run limits host.recorded (w, [])) ∧
      ∀ start read kept, g.KeepsRead n start read kept → ∀ s ∈ c.program.visited limits host w, ∀ ty,
        c.program.ops[s.pc]? = some (.load kept ty) → s.frame.locals[kept]? = s.frame.locals[read]? := by
  obtain ⟨body, draft, hwalk, rfl⟩ := compile_eq_ok hc
  rcases h.exists_unshares hwalk with ⟨q, name, hread, hvalid⟩ | hvalid
  · obtain ⟨start, read, kept, c', hslots, hc', hruns⟩ := h.exists_reread hwalk hread hvalid
    refine ⟨c', hc', fun host limits w hlimit hkeeps => ?_⟩
    -- the run goes the same way if the host is watched
    have hkeeps' := hkeeps start read kept hslots
    rw [← Program.executed_recorded] at hkeeps'
    obtain ⟨hfresh, hends⟩ := hruns host.recorded limits (w, []) hkeeps'
    constructor
    · refine hends.resolve_left ?_
      obtain ⟨ops, hrecorded⟩ := (draft.finish body).program.run_recorded limits host w
      rw [hrecorded]
      exact hlimit
    · intro start' read' kept' hslots' s hs ty hload
      obtain ⟨rfl, rfl, rfl⟩ := hslots.unique hslots'
      rw [← Program.visited_recorded] at hs
      exact hfresh s hs ty hload
  · obtain ⟨hnone, draft', hwalk', hprogram⟩ := h.program_eq hwalk hvalid
    refine ⟨_, compile_of_walk hwalk', fun host limits w _ _ => ?_⟩
    rw [hprogram]
    exact ⟨.refl _, fun start read kept hslots => absurd hslots (hnone start read kept)⟩

/-- Sets a text and shows it, sets it again and shows it again, in the order
    that the signals give. Both times the text comes from one read. -/
def shows (signals : List Wire) : Graph where
  nodes := [some ⟨"start", [], none⟩, some ⟨"set_variable:text", [none, some (.text "old")], some "x"⟩,
    some ⟨"emit:text", [], some "show"⟩, some ⟨"set_variable:text", [none, some (.text "new")], some "x"⟩,
    some ⟨"emit:text", [], some "show"⟩, some ⟨"get_variable:text", [], some "x"⟩]
  wires := signals ++ [⟨⟨5, 0⟩, ⟨2, 1⟩⟩, ⟨⟨5, 0⟩, ⟨4, 1⟩⟩]
  entry := some 0

/-- The same with a read for each time that the text is shown. -/
def showsApart (signals : List Wire) : Graph where
  nodes := (shows signals).nodes.set 5 none ++
    [some ⟨"get_variable:text", [], some "x"⟩, some ⟨"get_variable:text", [], some "x"⟩]
  wires := signals ++ [⟨⟨6, 0⟩, ⟨2, 1⟩⟩, ⟨⟨7, 0⟩, ⟨4, 1⟩⟩]
  entry := some 0

/-- The text is shown twice before it is set again. -/
def inRow : List Wire := [⟨⟨0, 0⟩, ⟨1, 0⟩⟩, ⟨⟨1, 0⟩, ⟨2, 0⟩⟩, ⟨⟨2, 0⟩, ⟨4, 0⟩⟩, ⟨⟨4, 0⟩, ⟨3, 0⟩⟩]

/-- The text is set again between the two times. -/
def inTurn : List Wire := [⟨⟨0, 0⟩, ⟨1, 0⟩⟩, ⟨⟨1, 0⟩, ⟨2, 0⟩⟩, ⟨⟨2, 0⟩, ⟨3, 0⟩⟩, ⟨⟨3, 0⟩, ⟨4, 0⟩⟩]

theorem splitsRead_shows {signals : List Wire} (h : signals = inRow ∨ signals = inTurn) :
    (shows signals).SplitsRead (showsApart signals) 5 (· + 2) where
  read := ⟨_, .text, rfl⟩
  entry := rfl
  wires := by rcases h with rfl | rfl <;> rfl
  copies := by rcases h with rfl | rfl <;> decide
  unused := by rcases h with rfl | rfl <;> decide
  distinct := by rcases h with rfl | rfl <;> decide
  original := .inl ⟨rfl, by simp [shows]⟩
  others id hid hcopy := by
    rcases id with _ | _ | _ | _ | _ | _ | _ | _ | id
    · rfl
    · rfl
    · rfl
    · rfl
    · rfl
    · exact absurd rfl hid
    · exact absurd hcopy (by rcases h with rfl | rfl <;> decide)
    · exact absurd hcopy (by rcases h with rfl | rfl <;> decide)
    · rfl

/-- What the host is asked to show. -/
def shown (texts : List String) : Script :=
  { Script.empty with calls := (texts.map fun text => ⟨"show", [.ref (some (.text text))]⟩).toArray }

theorem run_inRow : ∃ c, (shows inRow).compile .standard = .ok c ∧
    c.program.run {} Script.host .empty = (.ok ⟨[], 27⟩, shown ["old", "old"]) ∧
    c.program.KeepsUp 4 0 1 (c.program.executed {} Script.host .empty) := by
  refine ⟨_, rfl, ?_, Program.keepsUp_iff.mpr ?_⟩
  · cbv
  · cbv

theorem keepsRead_inRow : (shows inRow).KeepsRead 5 4 0 1 := by
  refine ⟨_, _, _, "x", rfl, rfl, rfl, ?_, ?_, 0, List.mem_cons_self, ?_⟩
  · cbv
  · show List.lookup _ _ = _
    cbv
  · refine ⟨⟨.getVariable "x", .ref .object, .null, some 1⟩, ?_, rfl⟩
    cbv

theorem compile_splitsRead_inRow :
    (shows inRow).SplitsRead (showsApart inRow) 5 (· + 2) ∧ (shows inRow).KeepsRead 5 4 0 1 ∧
      ∃ c c', (shows inRow).compile .standard = .ok c ∧ (showsApart inRow).compile .standard = .ok c' ∧
        c.program.run {} Script.host .empty = (.ok ⟨[], 27⟩, shown ["old", "old"]) ∧
        c.program.KeepsUp 4 0 1 (c.program.executed {} Script.host .empty) ∧
        SameEnd (c.program.run {} Script.host.recorded (.empty, []))
          (c'.program.run {} Script.host.recorded (.empty, [])) ∧
        ∀ s ∈ c.program.visited {} Script.host .empty, ∀ ty, c.program.ops[s.pc]? = some (.load 1 ty) →
          s.frame.locals[1]? = s.frame.locals[0]? := by
  obtain ⟨c, hc, hrun, hkeeps⟩ := run_inRow
  have hsplit := splitsRead_shows (.inl rfl)
  obtain ⟨c', hc', hall⟩ := compile_splitsRead (σ := Script) hsplit hc
  have hlimit : ¬Limited (c.program.run {} Script.host .empty) := by
    rw [hrun]
    rintro ⟨fault, herror, -⟩
    cases herror
  obtain ⟨hend, hfresh⟩ := hall Script.host {} .empty hlimit (by
    intro start read kept hslots
    obtain ⟨rfl, rfl, rfl⟩ := keepsRead_inRow.unique hslots
    exact hkeeps)
  exact ⟨hsplit, keepsRead_inRow, c, c', hc, hc', hrun, hkeeps, hend, hfresh 4 0 1 keepsRead_inRow⟩

/-- With a store between the two times, the text that was read first is shown
    twice. Reads of their own show both texts. -/
theorem shows_in_turn : (shows inTurn).SplitsRead (showsApart inTurn) 5 (· + 2) ∧
    ∃ c c', (shows inTurn).compile .standard = .ok c ∧ (showsApart inTurn).compile .standard = .ok c' ∧
      c.program.run {} Script.host .empty = (.ok ⟨[], 27⟩, shown ["old", "old"]) ∧
      c'.program.run {} Script.host .empty = (.ok ⟨[], 23⟩, shown ["old", "new"]) := by
  refine ⟨splitsRead_shows (.inr rfl), _, _, rfl, rfl, ?_, ?_⟩
  · cbv
  · cbv

end Graph

end FlowGraph
