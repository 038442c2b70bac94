import FlowGraph.Machine.Basic
import FlowGraph.Proofs.Layout

/-! # Labels of laid out code

    Laying out code defines every label at most once, jumps only to labels
    that it defines, and takes them from those that the draft has not handed
    out yet (`Lays.labelled`). So a program that is laid out has a table of
    positions, and every label in it is found.
-/

namespace FlowGraph

namespace Op

theorem defines?_relabel (f : Label → Label) (o : Op) :
    (o.relabel f).defines? = o.defines?.map f := by
  cases o <;> rfl

theorem references?_relabel (f : Label → Label) (o : Op) :
    (o.relabel f).references? = o.references?.map f := by
  cases o <;> rfl

theorem label?_relabel (f : Label → Label) (o : Op) : (o.relabel f).label? = o.label?.map f := by
  cases o <;> rfl

theorem label?_of_references? {o : Op} {l : Label} (h : o.references? = some l) : o.label? = some l := by
  cases o <;> first | exact h | cases h

theorem label?_of_defines? {o : Op} {l : Label} (h : o.defines? = some l) : o.label? = some l := by
  simp [label?, h]

theorem touchesSlot_relabel (f : Label → Label) (o : Op) : (o.relabel f).touchesSlot = o.touchesSlot := by
  cases o <;> rfl

theorem filterMap_defines?_relabel (f : Label → Label) (ops : List Op) :
    (ops.map (relabel f)).filterMap defines? = (ops.filterMap defines?).map f := by
  rw [List.filterMap_map, List.map_filterMap]
  exact congrArg (List.filterMap · ops) (funext (defines?_relabel f))

theorem filterMap_references?_relabel (f : Label → Label) (ops : List Op) :
    (ops.map (relabel f)).filterMap references? = (ops.filterMap references?).map f := by
  rw [List.filterMap_map, List.map_filterMap]
  exact congrArg (List.filterMap · ops) (funext (references?_relabel f))

theorem defines?_of_isPlain {o : Op} (h : o.isPlain = true) : o.defines? = none := by
  cases o <;> first | rfl | cases h

theorem references?_of_isPlain {o : Op} (h : o.isPlain = true) : o.references? = none := by
  cases o <;> first | rfl | cases h

end Op

/-- Numbers between the bounds, each once. -/
structure Spread (low high : Nat) (list : List Nat) : Prop where
  bounds : ∀ l ∈ list, low ≤ l ∧ l < high
  once : list.Nodup

namespace Spread

theorem nil (low high : Nat) : Spread low high [] := ⟨by simp, List.nodup_nil⟩

theorem mono {low low' high high' : Nat} {list : List Nat} (h : Spread low high list)
    (hlow : low' ≤ low) (hhigh : high ≤ high') : Spread low' high' list := by
  refine ⟨fun l hl => ?_, h.once⟩
  have hbounds := h.bounds l hl
  exact ⟨Nat.le_trans hlow hbounds.1, Nat.lt_of_lt_of_le hbounds.2 hhigh⟩

theorem append {low mid high : Nat} {list₁ list₂ : List Nat} (h₁ : Spread low mid list₁)
    (h₂ : Spread mid high list₂) (hlow : low ≤ mid) (hhigh : mid ≤ high) :
    Spread low high (list₁ ++ list₂) := by
  constructor
  · intro l hl
    rcases List.mem_append.mp hl with hl | hl
    · exact (h₁.mono (Nat.le_refl _) hhigh).bounds l hl
    · exact (h₂.mono hlow (Nat.le_refl _)).bounds l hl
  · refine List.nodup_append.mpr ⟨h₁.once, h₂.once, fun l hl l' hl' => ?_⟩
    have hlt := (h₁.bounds l hl).2
    have hge := (h₂.bounds l' hl').1
    exact Nat.ne_of_lt (Nat.lt_of_lt_of_le hlt hge)

/-- A number and the next one. -/
theorem pair (n : Nat) : Spread n (n + 2) [n, n + 1] :=
  ⟨by simp, by simp⟩

theorem perm {low high : Nat} {list₁ list₂ : List Nat} (h : Spread low high list₁)
    (hperm : list₂.Perm list₁) : Spread low high list₂ :=
  ⟨fun l hl => h.bounds l (hperm.mem_iff.mp hl), hperm.nodup_iff.mpr h.once⟩

end Spread

/-- The operations define labels between the bounds, each once, and jump only
    to those. -/
structure Labelled (low high : Nat) (ops : List Op) : Prop where
  spread : Spread low high (ops.filterMap Op.defines?)
  defined : ∀ l ∈ ops.filterMap Op.references?, l ∈ ops.filterMap Op.defines?

namespace Labelled

theorem of_none {low high : Nat} {ops : List Op} (hd : ops.filterMap Op.defines? = [])
    (hr : ops.filterMap Op.references? = []) : Labelled low high ops :=
  ⟨hd ▸ .nil low high, by simp [hr]⟩

theorem append {low mid high : Nat} {ops₁ ops₂ : List Op} (h₁ : Labelled low mid ops₁)
    (h₂ : Labelled mid high ops₂) (hlow : low ≤ mid) (hhigh : mid ≤ high) :
    Labelled low high (ops₁ ++ ops₂) := by
  constructor
  · rw [List.filterMap_append]
    exact h₁.spread.append h₂.spread hlow hhigh
  · intro l hl
    rw [List.filterMap_append]
    rcases List.mem_append.mp (List.filterMap_append ▸ hl) with hl | hl
    · exact List.mem_append_left _ (h₁.defined l hl)
    · exact List.mem_append_right _ (h₂.defined l hl)

/-- Operations without labels behind others. -/
theorem append_none {low high : Nat} {ops₁ ops₂ : List Op} (h : Labelled low high ops₁)
    (hd : ops₂.filterMap Op.defines? = []) (hr : ops₂.filterMap Op.references? = []) :
    Labelled low high (ops₁ ++ ops₂) := by
  constructor
  · rw [List.filterMap_append, hd, List.append_nil]
    exact h.spread
  · rw [List.filterMap_append, List.filterMap_append, hd, hr, List.append_nil, List.append_nil]
    exact h.defined

/-- Raw code gets fresh labels for its own. -/
theorem raw {ops : List Op} (honce : (ops.filterMap Op.defines?).Nodup)
    (hdefined : ∀ l ∈ ops.filterMap Op.references?, l ∈ ops.filterMap Op.defines?) (d : Draft) :
    Labelled d.nextLabel (d.emitRaw ops).draft.nextLabel (d.emitRaw ops).ops := by
  -- a label becomes its place among the local ones, counted from the next free label
  have hlabel : ∀ l ∈ ops.filterMap Op.defines?, l ∈ Draft.localLabels ops := by
    intro l hl
    obtain ⟨o, ho, hdef⟩ := List.mem_filterMap.mp hl
    exact List.mem_eraseDups.mpr (List.mem_filterMap.mpr ⟨o, ho, Op.label?_of_defines? hdef⟩)
  simp only [Draft.emitRaw, Emission.ops, Block.toList_ops]
  refine ⟨⟨?_, ?_⟩, ?_⟩
  · intro l hl
    rw [Op.filterMap_defines?_relabel] at hl
    obtain ⟨l', hl', rfl⟩ := List.mem_map.mp hl
    have hlt := List.idxOf_lt_length_of_mem (hlabel l' hl')
    exact ⟨Nat.le_add_right _ _, Nat.add_lt_add_left hlt _⟩
  · rw [Op.filterMap_defines?_relabel]
    refine List.Nodup.map_on ?_ honce
    intro l hl l' hl' heq
    exact List.idxOf_inj (hlabel l hl) |>.mp (Nat.add_left_cancel heq)
  · intro l hl
    rw [Op.filterMap_references?_relabel] at hl
    obtain ⟨l', hl', rfl⟩ := List.mem_map.mp hl
    rw [Op.filterMap_defines?_relabel]
    exact List.mem_map_of_mem (hdefined l' hl')

/-- The labels of a loop are the two before those of its pieces. -/
theorem loop {low head mid high : Nat} {ops₁ ops₂ ops₃ : List Op} (slot : Nat)
    (h₁ : Labelled low head ops₁) (h₂ : Labelled (head + 2) mid ops₂) (h₃ : Labelled mid high ops₃)
    (hlow : low ≤ head) (hmid : head + 2 ≤ mid) (hhigh : mid ≤ high) :
    Labelled low high
      (ops₁ ++ loopStart slot ++ ops₂ ++ loopTest slot head ++ ops₃ ++ loopEnd slot head) := by
  simp only [loopStart, loopTest, loopEnd]
  constructor
  · have hpieces := h₁.spread.append ((Spread.pair head).append
      (h₂.spread.append h₃.spread hmid hhigh) (by omega) (by omega)) hlow (by omega)
    refine hpieces.perm (List.perm_iff_count.mpr fun l => ?_)
    simp only [List.filterMap_append, List.filterMap_cons, Op.defines?, List.filterMap_nil,
      List.count_append, List.count_cons, List.count_nil]
    omega
  · have hd₁ := h₁.defined
    have hd₂ := h₂.defined
    have hd₃ := h₃.defined
    simp only [List.filterMap_append, List.filterMap_cons, Op.defines?, Op.references?,
      List.filterMap_nil, List.mem_append, List.mem_cons, List.not_mem_nil]
    grind

/-- The labels of a branch are the two before those of its arms. -/
theorem branch {low mid otherwise high₁ high : Nat} {ops₁ ops₂ ops₃ ops₄ : List Op}
    (h₁ : Labelled low mid ops₁) (h₂ : Labelled mid otherwise ops₂)
    (h₃ : Labelled (otherwise + 2) high₁ ops₃) (h₄ : Labelled high₁ high ops₄)
    (hlow : low ≤ mid) (hmid : mid ≤ otherwise) (harm : otherwise + 2 ≤ high₁) (hhigh : high₁ ≤ high) :
    Labelled low high
      (ops₁ ++ ops₂ ++ [Op.jumpUnless otherwise] ++ ops₃ ++
        [Op.jump (otherwise + 1), .label otherwise] ++ ops₄ ++ [Op.label (otherwise + 1)]) := by
  constructor
  · have hpieces := h₁.spread.append (h₂.spread.append ((Spread.pair otherwise).append
      (h₃.spread.append h₄.spread harm hhigh) (by omega) (by omega)) hmid (by omega)) hlow (by omega)
    refine hpieces.perm (List.perm_iff_count.mpr fun l => ?_)
    simp only [List.filterMap_append, List.filterMap_cons, Op.defines?, List.filterMap_nil,
      List.count_append, List.count_cons, List.count_nil]
    omega
  · have hd₁ := h₁.defined
    have hd₂ := h₂.defined
    have hd₃ := h₃.defined
    have hd₄ := h₄.defined
    simp only [List.filterMap_append, List.filterMap_cons, Op.defines?, Op.references?,
      List.filterMap_nil, List.mem_append, List.mem_cons, List.not_mem_nil]
    grind

end Labelled

/-! ## Laid out code -/

/-- The code of the job fits the draft. -/
def Job.Fits (d : Draft) : Job → Prop
  | .code c _ => ∃ n, c.Fits d.types n
  | .stores _ _ => True

theorem Draft.Reserved.fits_value {d : Draft} (hd : d.Reserved) {id : SharedId} {entry : Shared}
    (hentry : d.shared[id]? = some entry) (after : List Code) :
    (Job.code entry.value after).Fits d :=
  ⟨id, (hd.ordered id entry hentry).2⟩

theorem Job.Fits.of_advances {job : Job} {d d' : Draft} (h : job.Fits d) (hd : d.Advances d') :
    job.Fits d' := by
  cases job with
  | code c after =>
    obtain ⟨n, hfits⟩ := h
    exact ⟨n, hd.types_eq ▸ hfits⟩
  | stores ids after => trivial

theorem Lays.labelled {job : Job} {d d' : Draft} {ops : List Op} (h : Lays job d ops d')
    (hd : d.Reserved) (hjob : job.Fits d) : Labelled d.nextLabel d'.nextLabel ops := by
  induction h with
  | op =>
    obtain ⟨_, hplain⟩ := hjob
    exact .of_none (by simp [Op.defines?_of_isPlain hplain]) (by simp [Op.references?_of_isPlain hplain])
  | done => exact .of_none rfl rfl
  | @andThen first rest after d _ _ _ _ hf hr ihf ihr =>
    obtain ⟨n, hfits⟩ := hjob
    have hrest : (Job.code rest after).Fits d := ⟨n, hfits.2⟩
    exact (ihf hd ⟨n, hfits.1⟩).append (ihr (hd.of_advances hf.advances) (hrest.of_advances hf.advances))
      hf.advances.nextLabel hr.advances.nextLabel
  | raw =>
    obtain ⟨_, hclosed⟩ := hjob
    exact .raw hclosed.once hclosed.defined _
  | load => exact .of_none rfl rfl
  | @compute id _ _ d _ _ _ _ hentry _ _ _ ih =>
    have hmark := hd.of_advances (d.advances_markStored id)
    exact (ih hmark (hmark.fits_value hentry _)).append_none rfl rfl
  | getVariable => exact .of_none rfl rfl
  | setVariable _ _ ih => exact (ih hd hjob).append_none rfl rfl
  | @loop times body after d ops₁ d₁ ops₂ d₂ ops₃ d₃ ht hh hb iht ihh ihb =>
    obtain ⟨n, hfits⟩ := hjob
    -- every part takes its labels behind those of the part before it
    have hadv₁ := ht.advances.trans d₁.advances_beginLoop
    have hadv₂ := hadv₁.trans hh.advances
    have hbody : (Job.code body after).Fits d := ⟨n, hfits.2⟩
    exact .loop d₁.nextSlot (iht hd ⟨n, hfits.1⟩) (ihh (hd.of_advances hadv₁) trivial)
      (ihb (hd.of_advances hadv₂) (hbody.of_advances hadv₂)) ht.advances.nextLabel
      hh.advances.nextLabel hb.advances.nextLabel
  | @branch condition yes no after d ops₁ d₁ ops₂ d₂ ops₃ d₃ ops₄ d₄ hc hh hy hn ihc ihh ihy ihn =>
    obtain ⟨n, hfits⟩ := hjob
    have hadv₁ := (hc.advances.trans hh.advances).trans d₂.advances_beginBranch
    -- the second arm goes back to the marks before the first one, but not to its labels
    have hadv₂ := (hc.advances.trans hh.advances).trans (d₂.advances_beginBranch.trans hy.advances).restore
    have hyes : (Job.code yes after).Fits d := ⟨n, hfits.2.1⟩
    have hno : (Job.code no after).Fits d := ⟨n, hfits.2.2⟩
    exact .branch (ihc hd ⟨n, hfits.1⟩) (ihh (hd.of_advances hc.advances) trivial)
      (ihy (hd.of_advances hadv₁) (hyes.of_advances hadv₁))
      (ihn (hd.of_advances hadv₂) (hno.of_advances hadv₂)) hc.advances.nextLabel
      hh.advances.nextLabel hy.advances.nextLabel hn.advances.nextLabel
  | nil => exact .of_none rfl rfl
  | skip _ _ ih => exact ih hd trivial
  | @store id _ _ d _ _ _ _ _ _ hentry _ _ hv hr ihv ihr =>
    have hmark := hd.of_advances (d.advances_markStored id)
    refine Labelled.append ?_ (ihr (hmark.of_advances hv.advances) trivial) hv.advances.nextLabel
      hr.advances.nextLabel
    exact (ihv hmark (hmark.fits_value hentry _)).append_none rfl rfl

/-! ## The table of positions -/

/-- A program that is loaded stays what it is, and gets a table. -/
theorem Machine.of_load {limits : Limits} {p : Program} {m : Machine} (h : Machine.load limits p = .ok m) :
    m.limits = limits ∧ m.program = p ∧ m.code = p.ops.toArray ∧ p.positions = .ok m.positions := by
  unfold Machine.load at h
  split at h
  · cases h
  · split at h
    · cases h
    · next hpositions =>
      split at h
      · cases h
      · cases h
        exact ⟨rfl, rfl, rfl, hpositions⟩

/-- Definitions of different labels can be entered. -/
theorem Positions.exists_enter {definitions : List (Label × Nat)} {table : Positions}
    (hnew : ∀ l ∈ definitions.map Prod.fst, table.contains l = false)
    (honce : (definitions.map Prod.fst).Nodup) :
    ∃ result, Positions.enter definitions table = .ok result := by
  induction definitions generalizing table with
  | nil => exact ⟨table, rfl⟩
  | cons head rest ih =>
    obtain ⟨l, position⟩ := head
    obtain ⟨hl, honce⟩ := List.nodup_cons.mp honce
    rw [Positions.enter, hnew l List.mem_cons_self]
    refine ih (fun l' hl' => ?_) honce
    rw [Std.HashMap.contains_insert, hnew l' (List.mem_cons_of_mem _ hl'), Bool.or_false]
    exact beq_false_of_ne fun heq => hl (heq ▸ hl')

/-- Definitions that can be entered are of different labels. -/
theorem Positions.nodup_of_enter {definitions : List (Label × Nat)} {table result : Positions}
    (h : enter definitions table = .ok result) :
    (∀ l ∈ definitions.map Prod.fst, table.contains l = false) ∧ (definitions.map Prod.fst).Nodup := by
  induction definitions generalizing table with
  | nil => simp
  | cons head rest ih =>
    obtain ⟨l, position⟩ := head
    rw [enter] at h
    split at h
    · cases h
    · next habsent =>
      -- what is entered later is not in the table with this label either
      obtain ⟨hnew, honce⟩ := ih h
      simp only [Std.HashMap.contains_insert, Bool.or_eq_false_iff, beq_eq_false_iff_ne] at hnew
      refine ⟨?_, List.nodup_cons.mpr ⟨fun hl => (hnew l hl).1 rfl, honce⟩⟩
      intro l' hl'
      rcases List.mem_cons.mp hl' with rfl | hl'
      · simpa using habsent
      · exact (hnew l' hl').2

namespace Program

theorem map_fst_definitions (ops : List Op) (first : Nat) :
    ((ops.zipIdx first).filterMap fun (op, position) =>
      op.defines?.map fun l => (l, position)).map Prod.fst = ops.filterMap Op.defines? := by
  induction ops generalizing first with
  | nil => rfl
  | cons op rest ih =>
    rw [List.zipIdx_cons, List.filterMap_cons, List.filterMap_cons]
    cases hop : op.defines? with
    | none => simpa [hop] using ih (first + 1)
    | some l => simpa [hop] using ih (first + 1)

theorem definitions_labels (p : Program) :
    p.definitions.map Prod.fst = p.ops.filterMap Op.defines? :=
  map_fst_definitions p.ops 0

/-- A label is where it is defined, if nothing else defines it. -/
theorem position?_eq {p : Program} (honce : (p.ops.filterMap Op.defines?).Nodup) {i : Nat} {l : Label}
    (h : p.ops[i]? = some (.label l)) : p.position? l = some i := by
  obtain ⟨hi, hop⟩ := List.getElem?_eq_some_iff.mp h
  rw [position?, List.findIdx?_eq_some_iff_getElem]
  refine ⟨hi, by simp [hop, Op.defines?], fun j hji => ?_⟩
  have hpairwise := List.pairwise_iff_getElem.mp (List.pairwise_filterMap.mp honce) j i (by omega) hi hji
  intro hdefines
  exact hpairwise l (by simpa using hdefines) l (by simp [hop, Op.defines?]) rfl

/-- A program with labels of its own fits every machine that has the slots
    for it, and every label in it is found. -/
theorem exists_load {p : Program} {low high : Nat} (h : Labelled low high p.ops) {limits : Limits}
    (hlocals : p.locals ≤ limits.locals) :
    ∃ m, Machine.load limits p = .ok m ∧ m.limits = limits ∧ m.program = p ∧ m.code = p.ops.toArray ∧
      ∀ (i : Nat) (l : Label), p.ops[i]? = some (.label l) → m.positions[l]? = some i := by
  obtain ⟨table, htable⟩ : ∃ table, p.positions = .ok table := by
    refine Positions.exists_enter (fun l _ => by simp) ?_
    rw [definitions_labels]
    exact h.spread.once
  have hposition : ∀ (i : Nat) (l : Label), p.ops[i]? = some (.label l) → table[l]? = some i := by
    intro i l hl
    rw [positions_get? htable, position?_eq h.spread.once hl]
  -- the table has a position for every label that is referred to
  have hundefined : p.undefinedLabel? table = none := by
    refine List.find?_eq_none.mpr fun l hl => ?_
    obtain ⟨o, ho, hdefines⟩ := List.mem_filterMap.mp (h.defined l hl)
    obtain ⟨i, hi, rfl⟩ := List.getElem_of_mem ho
    have hlabel : p.ops[i]? = some (.label l) := by
      rw [List.getElem?_eq_getElem hi]
      cases hop : p.ops[i] <;> simp_all [Op.defines?]
    have hcontains : table.contains l = true := by
      rw [Std.HashMap.contains_eq_isSome_getElem?, hposition i l hlabel]
      rfl
    simp [hcontains]
  refine ⟨⟨limits, p, p.ops.toArray, table⟩, ?_, rfl, rfl, rfl, hposition⟩
  unfold Machine.load
  rw [if_neg (Nat.not_lt.mpr hlocals), htable]
  simp only [hundefined]

end Program

end FlowGraph
