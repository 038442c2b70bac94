import FlowGraph.Proofs.Pieces
import FlowGraph.Proofs.Sharing

/-! # Numbers of labels

    Raw code has labels of its own, which are numbered anew wherever it is
    laid out; loops and branches draw theirs from the same numbers. So it does
    not matter how often the same code is laid out: the labels of a program
    are numbered from zero without gaps, and each stands in one place.

    Main statement: `Draft.finish_labels`.
-/

namespace FlowGraph

open Draft

/-! ## Code with labels of its own -/

/-- Each label that the operations mention is defined in them, once. -/
def Op.ownLabels (ops : List Op) : Bool :=
  (ops.filterMap Op.label?).all fun l => (ops.filterMap Op.defines?).count l == 1

/-- Labels stand in raw code only, and belong to it. -/
def Code.ownLabels : Code → Bool
  | .op o _ => o.label?.isNone
  | .raw _ ops => Op.ownLabels ops
  | .andThen first rest => first.ownLabels && rest.ownLabels
  | .setVariable _ value => value.ownLabels
  | .loop times body => times.ownLabels && body.ownLabels
  | .branch condition yes no => condition.ownLabels && yes.ownLabels && no.ownLabels
  | _ => true

namespace Op

variable {ops : List Op}

theorem count_defines? (h : ownLabels ops = true) {l : Label} (hl : l ∈ ops.filterMap label?) :
    (ops.filterMap defines?).count l = 1 := by
  simpa using List.all_eq_true.mp h l hl

theorem mem_label?_of_defines? {l : Label} (h : l ∈ ops.filterMap defines?) : l ∈ ops.filterMap label? := by
  obtain ⟨o, ho, hl⟩ := List.mem_filterMap.mp h
  exact List.mem_filterMap.mpr ⟨o, ho, label?_of_defines? hl⟩

theorem mem_defines? (h : ownLabels ops = true) {l : Label} (hl : l ∈ ops.filterMap label?) :
    l ∈ ops.filterMap defines? :=
  List.count_pos_iff.mp (by rw [count_defines? h hl]; exact Nat.one_pos)

theorem nodup_defines? (h : ownLabels ops = true) : (ops.filterMap defines?).Nodup := by
  refine List.nodup_iff_count_le_one.mpr fun l => ?_
  by_cases hl : l ∈ ops.filterMap defines?
  · exact (count_defines? h (mem_label?_of_defines? hl)).le
  · rw [List.count_eq_zero_of_not_mem hl]
    exact Nat.zero_le 1

end Op

theorem Draft.nodup_localLabels (ops : List Op) : (localLabels ops).Nodup := by
  rw [localLabels]
  generalize hn : (ops.filterMap Op.label?).length = n
  generalize ops.filterMap Op.label? = labels at hn
  -- the first label is taken out of the rest, so the rest gets shorter
  induction n using Nat.strongRecOn generalizing labels with
  | ind n ih =>
    cases labels with
    | nil => exact List.nodup_nil
    | cons l rest =>
      rw [List.eraseDups_cons, List.nodup_cons, List.mem_eraseDups]
      refine ⟨by simp, ih _ ?_ _ rfl⟩
      rw [← hn, List.length_cons]
      exact Nat.lt_succ_of_le (List.length_filter_le _ _)

/-! ## Numbered operations -/

/-- The operations define all labels between the bounds, each once, and jump
    only to those. -/
structure Numbered (low high : Nat) (ops : List Op) : Prop extends Labelled low high ops where
  counted : low + (ops.filterMap Op.defines?).length = high

namespace Numbered

variable {low mid high : Nat} {ops ops₁ ops₂ ops₃ ops₄ : List Op}

theorem le (h : Numbered low high ops) : low ≤ high := h.counted ▸ Nat.le_add_right _ _

theorem of_none (hd : ops.filterMap Op.defines? = []) (hr : ops.filterMap Op.references? = []) :
    Numbered low low ops :=
  ⟨.of_none hd hr, by rw [hd]; rfl⟩

theorem append (h₁ : Numbered low mid ops₁) (h₂ : Numbered mid high ops₂) : Numbered low high (ops₁ ++ ops₂) := by
  refine ⟨h₁.toLabelled.append h₂.toLabelled h₁.le h₂.le, ?_⟩
  rw [List.filterMap_append, List.length_append, ← Nat.add_assoc, h₁.counted, h₂.counted]

theorem raw (h : Op.ownLabels ops = true) (d : Draft) :
    Numbered d.nextLabel (d.emitRaw ops).draft.nextLabel (d.emitRaw ops).ops := by
  refine ⟨.raw (Op.nodup_defines? h) ?_ d, ?_⟩
  · intro l hl
    obtain ⟨o, ho, hl⟩ := List.mem_filterMap.mp hl
    exact Op.mem_defines? h (List.mem_filterMap.mpr ⟨o, ho, Op.label?_of_references? hl⟩)
  · -- the labels that get new numbers are those that are defined
    have hperm : (localLabels ops).Perm (ops.filterMap Op.defines?) := by
      refine (List.perm_ext_iff_of_nodup (nodup_localLabels ops) (Op.nodup_defines? h)).mpr fun l => ?_
      rw [localLabels, List.mem_eraseDups]
      exact ⟨Op.mem_defines? h, Op.mem_label?_of_defines?⟩
    simp only [emitRaw, Emission.ops, Block.toList_ops, Op.filterMap_defines?_relabel, List.length_map, hperm.length_eq]

theorem loop {head : Nat} (slot : Nat) (h₁ : Numbered low head ops₁) (h₂ : Numbered (head + 2) mid ops₂)
    (h₃ : Numbered mid high ops₃) :
    Numbered low high
      (ops₁ ++ loopStart slot ++ ops₂ ++ loopTest slot head ++ ops₃ ++ loopEnd slot head) := by
  refine ⟨.loop slot h₁.toLabelled h₂.toLabelled h₃.toLabelled h₁.le h₂.le h₃.le, ?_⟩
  have hcounted₁ := h₁.counted
  have hcounted₂ := h₂.counted
  have hcounted₃ := h₃.counted
  simp only [loopStart, loopTest, loopEnd, List.filterMap_append, List.filterMap_cons, Op.defines?, List.filterMap_nil,
    List.length_append, List.length_cons, List.length_nil]
  omega

theorem branch {otherwise high₁ : Nat} (h₁ : Numbered low mid ops₁) (h₂ : Numbered mid otherwise ops₂)
    (h₃ : Numbered (otherwise + 2) high₁ ops₃) (h₄ : Numbered high₁ high ops₄) :
    Numbered low high
      (ops₁ ++ ops₂ ++ [Op.jumpUnless otherwise] ++ ops₃ ++
        [Op.jump (otherwise + 1), .label otherwise] ++ ops₄ ++ [Op.label (otherwise + 1)]) := by
  refine ⟨.branch h₁.toLabelled h₂.toLabelled h₃.toLabelled h₄.toLabelled h₁.le h₂.le h₃.le h₄.le, ?_⟩
  have hcounted₁ := h₁.counted
  have hcounted₂ := h₂.counted
  have hcounted₃ := h₃.counted
  have hcounted₄ := h₄.counted
  simp only [List.filterMap_append, List.filterMap_cons, Op.defines?, List.filterMap_nil, List.length_append,
    List.length_cons, List.length_nil]
  omega

/-- Numbered from zero, there is no gap. -/
theorem perm_range (h : Numbered 0 high ops) : (ops.filterMap Op.defines?).Perm (List.range high) := by
  have hsubset : ops.filterMap Op.defines? ⊆ List.range high := fun l hl =>
    List.mem_range.mpr (h.spread.bounds l hl).2
  refine (List.subperm_of_subset h.spread.once hsubset).perm_of_length_le ?_
  rw [List.length_range, ← h.counted, Nat.zero_add]

end Numbered

/-! ## Laid out code -/

namespace Draft

/-- The computations that are shared. -/
def values (d : Draft) : List Code := d.shared.map Shared.value

theorem Precedes.values_eq {d d' : Draft} (h : d.Precedes d') : d'.values = d.values := by
  have hvalues := congrArg (List.map Shared.value) h.bare_eq
  rwa [List.map_map, List.map_map] at hvalues

/-- All computations have labels of their own only. -/
def OwnLabels (d : Draft) : Prop := ∀ c ∈ d.values, c.ownLabels = true

theorem OwnLabels.of_precedes {d d' : Draft} (h : d.OwnLabels) (hd : d.Precedes d') : d'.OwnLabels := by
  rwa [OwnLabels, hd.values_eq]

theorem OwnLabels.value {d : Draft} (h : d.OwnLabels) {id : SharedId} {entry : Shared}
    (hentry : d.shared[id]? = some entry) : entry.value.ownLabels = true :=
  h entry.value (List.mem_map_of_mem (List.mem_of_getElem? hentry))

end Draft

/-- The code of the job has labels of its own only. -/
def Job.OwnLabels : Job → Prop
  | .code c _ => c.ownLabels = true
  | .stores _ _ => True

/-- Code takes the numbers that come next, and leaves out none. -/
theorem Builds.numbered {job : Job} {used : Nat} {d d' : Draft} {p : Piece} (h : Builds job used d p d')
    (hd : d.OwnLabels) (hjob : job.OwnLabels) : Numbered d.nextLabel d'.nextLabel p.ops := by
  -- pieces next to each other share a bound: the next label of the draft between them
  induction h with
  | @op o _ _ _ _ =>
    have hnone : o.defines? = none ∧ o.references? = none := by
      simpa [Job.OwnLabels, Code.ownLabels, Op.label?] using hjob
    exact .of_none (by simp [hnone.1]) (by simp [hnone.2])
  | done => exact .of_none rfl rfl
  | andThen hf _ ih₁ ih₂ =>
    obtain ⟨hfirst, hrest⟩ := Bool.and_eq_true_iff.mp hjob
    rw [Piece.ops_append]
    exact (ih₁ hd hfirst).append (ih₂ (hd.of_precedes hf.precedes) hrest)
  | raw =>
    rw [Piece.ops_given]
    exact .raw hjob _
  | @unknown _ ty _ _ _ _ =>
    rw [Piece.ops_unknown]
    cases Const.zero? ty <;> exact .of_none rfl rfl
  | load hentry hslot =>
    rw [(reserves_slotOf hentry hslot).nextLabel_eq]
    exact .of_none rfl rfl
  | compute hentry hslot _ _ ih =>
    have hvalue := ih (hd.of_precedes (precedes_enter hentry hslot)) (hd.value hentry)
    rw [← (reserves_slotOf hentry hslot).nextLabel_eq, Piece.ops_compute]
    exact hvalue.append (.of_none rfl rfl)
  | getVariable hslot =>
    rw [(reserves_of_variableSlot hslot).nextLabel_eq]
    exact .of_none rfl rfl
  | setVariable _ hslot ih =>
    rw [(reserves_of_variableSlot hslot).nextLabel_eq, Piece.ops_assign]
    exact (ih hd hjob).append (.of_none rfl rfl)
  | @loop _ _ _ used _ _ d₁ _ _ _ _ h₁ h₂ _ ih₁ ih₂ ih₃ =>
    obtain ⟨htimes, hbody⟩ := Bool.and_eq_true_iff.mp hjob
    have henter := hd.of_precedes (h₁.precedes.trans (d₁.precedes_enterLoop used))
    rw [Piece.ops_loop, Piece.ops_hoisted]
    exact .loop _ (ih₁ hd htimes) (ih₂ henter trivial) (ih₃ (henter.of_precedes h₂.precedes) hbody)
  | @branch _ _ _ _ _ _ _ d₁ _ d₂ _ _ _ _ h₁ h₂ h₃ _ ih₁ ih₂ ih₃ ih₄ =>
    obtain ⟨hboth, hno⟩ := Bool.and_eq_true_iff.mp hjob
    obtain ⟨hcondition, hyes⟩ := Bool.and_eq_true_iff.mp hboth
    have hfirst := hd.of_precedes h₁.precedes
    have hahead := hfirst.of_precedes h₂.precedes
    -- marks are taken back between the arms, labels are not
    have hmiddle := hahead.of_precedes (d₂.precedes_beginBranch.trans h₃.precedes).restore
    rw [Piece.ops_branch, Piece.ops_hoisted]
    exact .branch (ih₁ hd hcondition) (ih₂ hfirst trivial) (ih₃ (hahead.of_precedes d₂.precedes_beginBranch) hyes)
      (ih₄ hmiddle hno)
  | nil => exact .of_none rfl rfl
  | skip _ _ ih => exact ih hd trivial
  | store hentry hslot _ hv _ ih₁ ih₂ =>
    have henter := hd.of_precedes (precedes_enter hentry hslot)
    have hvalue := ih₁ henter (hd.value hentry)
    rw [← (reserves_slotOf hentry hslot).nextLabel_eq, Piece.ops_append, Piece.ops_store]
    exact (hvalue.append (.of_none rfl rfl)).append (ih₂ (henter.of_precedes hv.precedes) trivial)

namespace Draft

/-- The labels of a finished program are numbered from zero. -/
theorem Fresh.numbered {d : Draft} (hd : d.Fresh) (hvalues : d.OwnLabels) {body : Code}
    (hbody : body.ownLabels = true) :
    Numbered 0 (d.layout body).draft.nextLabel (d.finish body).program.ops := by
  have hreserves := d.reserves_prepare body
  obtain ⟨p, hops, hbuilds⟩ := isBuilt_emit (d.prepare body) body (d.prepare body).nextSlot
  have hcode := hbuilds.numbered (hvalues.of_precedes hreserves.precedes) hbody
  rw [hops, hreserves.nextLabel_eq, hd.nextLabel] at hcode
  obtain ⟨hdefines, hreferences⟩ := (d.layout body).draft.labels_prologue
  rw [finish_ops]
  exact ((Numbered.of_none hdefines hreferences).append hcode).append (.of_none rfl rfl)

/-- Where raw code has labels of its own, and no labels stand elsewhere, the
    program defines the labels below some number, each once, and jumps only to
    those. So a machine takes it, if it has the slots. -/
theorem finish_labels {d : Draft} (hd : Grows {} d) (hvalues : ∀ c ∈ d.values, c.ownLabels = true) {body : Code}
    (hbody : body.ownLabels = true) :
    (∃ n, ((d.finish body).program.ops.filterMap Op.defines?).Perm (List.range n) ∧
      ∀ l ∈ (d.finish body).program.ops.filterMap Op.references?, l < n) ∧
    ∀ limits : Limits,
      ((d.finish body).program.locals ≤ limits.locals → ∃ m, Machine.load limits (d.finish body).program = .ok m) ∧
      ∀ l, Machine.load limits (d.finish body).program ≠ .error (.duplicateLabel l) ∧
        Machine.load limits (d.finish body).program ≠ .error (.unknownLabel l) := by
  have hnumbered := (hd.fresh fresh_empty).numbered hvalues hbody
  refine ⟨⟨_, hnumbered.perm_range, fun l hl => (hnumbered.spread.bounds l (hnumbered.defined l hl)).2⟩, ?_⟩
  intro limits
  by_cases hlocals : (d.finish body).program.locals ≤ limits.locals
  · obtain ⟨m, hload, -⟩ := Program.exists_load hnumbered.toLabelled hlocals
    refine ⟨fun _ => ⟨m, hload⟩, fun l => ?_⟩
    rw [hload]
    simp
  · -- slots are counted before labels are looked at
    refine ⟨fun hle => absurd hle hlocals, fun l => ?_⟩
    rw [Machine.load, if_pos (Nat.lt_of_not_le hlocals)]
    simp

/-- A number that comes out of a guarded cast, and another one that may be the
    first. -/
def guarded : Draft :=
  let first := (({} : Draft).share ⟨1, 0⟩ (Category.number.cast (.getVariable "x")) (.number .zero)).2
  (first.share ⟨2, 0⟩ (.branch (.const (.boolean true)) (.shared 0 .double) (.const (.number .one))) (.number .zero)).2

/-- Needs the second number in both arms, and has a cast of its own in a loop. -/
def guarding : Code :=
  let ask := Code.block .void [.shared 1 .double, .op .pop .void]
  Code.block .void [.branch (.const (.boolean true)) ask ask,
    .loop (.const (.number .one)) (Code.block .void [Category.number.cast (.getVariable "x"), .op .pop .void])]

/-- The same cast is laid out three times, twice for a shared number. -/
theorem finish_labels_guarded :
    Grows {} guarded ∧ (∀ c ∈ guarded.values, c.ownLabels = true) ∧ guarding.ownLabels = true ∧
      (guarded.finish guarding).program.ops.count (.instanceOf Category.number.heapClass) = 3 ∧
      (∃ n, ((guarded.finish guarding).program.ops.filterMap Op.defines?).Perm (List.range n) ∧
        ∀ l ∈ (guarded.finish guarding).program.ops.filterMap Op.references?, l < n) ∧
      ∀ limits : Limits,
        ((guarded.finish guarding).program.locals ≤ limits.locals →
          ∃ m, Machine.load limits (guarded.finish guarding).program = .ok m) ∧
        ∀ l, Machine.load limits (guarded.finish guarding).program ≠ .error (.duplicateLabel l) ∧
          Machine.load limits (guarded.finish guarding).program ≠ .error (.unknownLabel l) := by
  have hgrows : Grows {} guarded := .share _ _ _ (.share _ _ _ .refl)
  have hvalues : ∀ c ∈ guarded.values, c.ownLabels = true := List.all_eq_true.mp (by decide)
  have hbody : guarding.ownLabels = true := by decide
  exact ⟨hgrows, hvalues, hbody, by decide, finish_labels hgrows hvalues hbody⟩

end Draft

end FlowGraph
