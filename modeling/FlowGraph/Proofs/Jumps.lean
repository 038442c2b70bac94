import FlowGraph.Proofs.Ahead
import FlowGraph.Proofs.Numbering
import FlowGraph.Proofs.Prospect

/-! # Only loops jump back

    A jump leads back if its label stands in front of it. Of the jumps that
    are laid out, those of branches and casts lead ahead, and each loop has
    one that leads back, to its head.

    * `Op.jumpsBack` finds the jumps that lead back in one pass, with the
      labels that it has seen (`Program.map_snd_backJumps`).
    * Laid out code has them for its loops only (`Builds.turns`).
    * A run of a program without them goes ahead all the time, so it does not
      come to an operation twice (`Machine.executed_ahead`).

    Main statement: `Graph.compile_backJumps`.
-/

namespace FlowGraph

open Draft

/-! ## Jumps that lead back -/

namespace Op

/-- The labels of the jumps that lead back, in order. `seen` are the labels in
    front of the operations. -/
def jumpsBack (seen : List Label) : List Op → List Label
  | [] => []
  | o :: rest => (o.references?.filter (seen.contains ·)).toList ++ jumpsBack (seen ++ o.defines?.toList) rest

variable {seen seen' : List Label} {ops : List Op}

theorem jumpsBack_append (seen : List Label) (ops ops' : List Op) :
    jumpsBack seen (ops ++ ops') = jumpsBack seen ops ++ jumpsBack (seen ++ ops.filterMap defines?) ops' := by
  induction ops generalizing seen with
  | nil => simp [jumpsBack]
  | cons o rest ih =>
    rw [List.cons_append, jumpsBack, jumpsBack, ih, List.append_assoc]
    cases ho : o.defines? <;> simp [ho]

/-- Only labels matter to which the operations jump. -/
theorem jumpsBack_congr (h : ∀ l ∈ ops.filterMap references?, l ∈ seen ↔ l ∈ seen') :
    jumpsBack seen ops = jumpsBack seen' ops := by
  induction ops generalizing seen seen' with
  | nil => rfl
  | cons o rest ih =>
    have hrest : jumpsBack (seen ++ o.defines?.toList) rest = jumpsBack (seen' ++ o.defines?.toList) rest := by
      refine ih fun l hl => ?_
      obtain ⟨o', ho', hl⟩ := List.mem_filterMap.mp hl
      rw [List.mem_append, List.mem_append, h l (List.mem_filterMap.mpr ⟨o', List.mem_cons_of_mem _ ho', hl⟩)]
    rw [jumpsBack, jumpsBack, hrest]
    cases ho : o.references? with
    | none => rfl
    | some l =>
      have hl := h l (List.mem_filterMap.mpr ⟨o, List.mem_cons_self, ho⟩)
      simp [Option.filter, hl]

theorem jumpsBack_of_none (h : ops.filterMap references? = []) : jumpsBack seen ops = [] := by
  induction ops generalizing seen with
  | nil => rfl
  | cons o rest ih =>
    have hnone := List.filterMap_eq_nil_iff.mp h
    rw [jumpsBack, hnone o List.mem_cons_self,
      ih (List.filterMap_eq_nil_iff.mpr fun o' ho' => hnone o' (List.mem_cons_of_mem _ ho'))]
    rfl

/-- With other names for the labels, the same jumps lead back. -/
theorem jumpsBack_relabel {f : Label → Label}
    (hf : Set.InjOn f { l | l ∈ seen ∨ l ∈ ops.filterMap label? }) :
    jumpsBack (seen.map f) (ops.map (relabel f)) = (jumpsBack seen ops).map f := by
  induction ops generalizing seen with
  | nil => rfl
  | cons o rest ih =>
    have hlabel : ∀ l, o.label? = some l → l ∈ (o :: rest).filterMap label? := fun l hl =>
      List.mem_filterMap.mpr ⟨o, List.mem_cons_self, hl⟩
    -- the rest is passed with one name more, and no name of the rest is new
    have hrest : jumpsBack (seen.map f ++ (o.relabel f).defines?.toList) (rest.map (relabel f)) =
        (jumpsBack (seen ++ o.defines?.toList) rest).map f := by
      have hseen : seen.map f ++ (o.relabel f).defines?.toList = (seen ++ o.defines?.toList).map f := by
        rw [defines?_relabel, List.map_append, Option.toList_map]
      rw [hseen]
      refine ih (hf.mono ?_)
      rintro l (hl | hl)
      · rcases List.mem_append.mp hl with hl | hl
        · exact .inl hl
        · exact .inr (hlabel l (label?_of_defines? (Option.mem_toList.mp hl)))
      · obtain ⟨o', ho', hl⟩ := List.mem_filterMap.mp hl
        exact .inr (List.mem_filterMap.mpr ⟨o', List.mem_cons_of_mem _ ho', hl⟩)
    rw [List.map_cons, jumpsBack, jumpsBack, hrest, references?_relabel, List.map_append]
    cases ho : o.references? with
    | none => rfl
    | some l =>
      -- a new name is among the new names only if the old one was among the old ones
      have hiff : f l ∈ seen.map f ↔ l ∈ seen := by
        constructor
        · intro hl
          obtain ⟨l', hl', heq⟩ := List.mem_map.mp hl
          exact hf (.inl hl') (.inr (hlabel l (label?_of_references? ho))) heq ▸ hl'
        · exact List.mem_map_of_mem
      simp only [Option.map_some, Option.filter_some, List.contains_eq_mem, decide_eq_true_eq, hiff]
      split <;> rfl

end Op

/-! ## Numbered operations -/

namespace Numbered

variable {low mid high : Nat} {seen : List Nat} {ops ops₁ ops₂ ops₃ ops₄ : List Op}

theorem references_bounds (h : Numbered low high ops) {l : Nat} (hl : l ∈ ops.filterMap Op.references?) :
    low ≤ l ∧ l < high :=
  h.spread.bounds l (h.defined l hl)

/-- Labels with other numbers do not matter. -/
theorem jumpsBack_eq (h : Numbered low high ops) (hseen : ∀ l ∈ seen, l < low ∨ high ≤ l) :
    Op.jumpsBack seen ops = Op.jumpsBack [] ops := by
  refine Op.jumpsBack_congr fun l hl => ?_
  have hbounds := h.references_bounds hl
  have hnot : l ∉ seen := fun hmem => by
    have hother := hseen l hmem
    omega
  simp [hnot]

theorem jumpsBack_append (h₁ : Numbered low mid ops₁) (h₂ : Numbered mid high ops₂) :
    Op.jumpsBack [] (ops₁ ++ ops₂) = Op.jumpsBack [] ops₁ ++ Op.jumpsBack [] ops₂ := by
  rw [Op.jumpsBack_append, List.nil_append, h₂.jumpsBack_eq fun l hl => .inl (h₁.spread.bounds l hl).2]

/-- A loop jumps back to its head, behind all jumps in it. -/
theorem jumpsBack_loop {head : Nat} (slot : Nat) (h₁ : Numbered low head ops₁) (h₂ : Numbered (head + 2) mid ops₂)
    (h₃ : Numbered mid high ops₃) :
    Op.jumpsBack [] (ops₁ ++ loopStart slot ++ ops₂ ++ loopTest slot head ++ ops₃ ++ loopEnd slot head) =
      Op.jumpsBack [] ops₁ ++ Op.jumpsBack [] ops₂ ++ Op.jumpsBack [] ops₃ ++ [head] := by
  have hbounds₁ := h₁.spread.bounds
  have hbounds₂ := h₂.spread.bounds
  have hle := h₂.le
  have hstart : (loopStart slot).filterMap Op.defines? = [] := rfl
  have htest : (loopTest slot head).filterMap Op.defines? = [head] := rfl
  simp only [Op.jumpsBack_append, List.nil_append, List.filterMap_append, hstart, htest, List.append_nil]
  have hstart' : Op.jumpsBack (ops₁.filterMap Op.defines?) (loopStart slot) = [] := Op.jumpsBack_of_none rfl
  -- the exit has not been passed at the test, the head has at the end
  have htest' : Op.jumpsBack (ops₁.filterMap Op.defines? ++ ops₂.filterMap Op.defines?) (loopTest slot head) = [] := by
    have hnot : head + 1 ∉ ops₁.filterMap Op.defines? ++ ops₂.filterMap Op.defines? := by grind
    generalize ops₁.filterMap Op.defines? ++ ops₂.filterMap Op.defines? = seen at hnot ⊢
    simp [Op.jumpsBack, loopTest, Op.references?, Op.defines?, Option.filter_some, hnot]
  have hend : Op.jumpsBack (ops₁.filterMap Op.defines? ++ ops₂.filterMap Op.defines? ++ [head] ++
      ops₃.filterMap Op.defines?) (loopEnd slot head) = [head] := by
    simp [Op.jumpsBack, loopEnd, Op.references?, Op.defines?, Option.filter_some]
  rw [hstart', htest', hend, h₂.jumpsBack_eq (by grind), h₃.jumpsBack_eq (by grind), List.append_nil, List.append_nil]

/-- A branch has no other jumps that lead back than those in it. -/
theorem jumpsBack_branch {otherwise high₁ : Nat} (h₁ : Numbered low mid ops₁) (h₂ : Numbered mid otherwise ops₂)
    (h₃ : Numbered (otherwise + 2) high₁ ops₃) (h₄ : Numbered high₁ high ops₄) :
    Op.jumpsBack [] (ops₁ ++ ops₂ ++ [Op.jumpUnless otherwise] ++ ops₃ ++
        [Op.jump (otherwise + 1), .label otherwise] ++ ops₄ ++ [Op.label (otherwise + 1)]) =
      Op.jumpsBack [] ops₁ ++ Op.jumpsBack [] ops₂ ++ Op.jumpsBack [] ops₃ ++ Op.jumpsBack [] ops₄ := by
  have hbounds₁ := h₁.spread.bounds
  have hbounds₂ := h₂.spread.bounds
  have hbounds₃ := h₃.spread.bounds
  have hle₂ := h₂.le
  have hle₃ := h₃.le
  have hjump : [Op.jumpUnless otherwise].filterMap Op.defines? = [] := rfl
  have hmiddle : [Op.jump (otherwise + 1), .label otherwise].filterMap Op.defines? = [otherwise] := rfl
  simp only [Op.jumpsBack_append, List.nil_append, List.filterMap_append, hjump, hmiddle, List.append_nil]
  -- both labels are still to come where they are jumped to
  have hfirst : Op.jumpsBack (ops₁.filterMap Op.defines? ++ ops₂.filterMap Op.defines?) [.jumpUnless otherwise] = [] := by
    have hnot : otherwise ∉ ops₁.filterMap Op.defines? ++ ops₂.filterMap Op.defines? := by grind
    generalize ops₁.filterMap Op.defines? ++ ops₂.filterMap Op.defines? = seen at hnot ⊢
    simp [Op.jumpsBack, Op.references?, Option.filter_some, hnot]
  have hsecond : Op.jumpsBack (ops₁.filterMap Op.defines? ++ ops₂.filterMap Op.defines? ++ ops₃.filterMap Op.defines?)
      [.jump (otherwise + 1), .label otherwise] = [] := by
    have hnot : otherwise + 1 ∉
        ops₁.filterMap Op.defines? ++ ops₂.filterMap Op.defines? ++ ops₃.filterMap Op.defines? := by grind
    generalize ops₁.filterMap Op.defines? ++ ops₂.filterMap Op.defines? ++ ops₃.filterMap Op.defines? = seen at hnot ⊢
    simp [Op.jumpsBack, Op.references?, Option.filter_some, hnot]
  have hlast (seen : List Label) : Op.jumpsBack seen [.label (otherwise + 1)] = [] := Op.jumpsBack_of_none rfl
  rw [hfirst, hsecond, hlast, h₂.jumpsBack_eq (by grind), h₃.jumpsBack_eq (by grind), h₄.jumpsBack_eq (by grind),
    List.append_nil, List.append_nil, List.append_nil]

end Numbered

/-! ## Laid out code -/

namespace Code

/-- Labels stand in raw code only, which has its own and jumps ahead. -/
def forward : Code → Bool
  | .op o _ => o.label?.isNone
  | .raw _ ops => Op.ownLabels ops && (Op.jumpsBack [] ops).isEmpty
  | .andThen first rest => first.forward && rest.forward
  | .setVariable _ value => value.forward
  | .loop times body => times.forward && body.forward
  | .branch condition yes no => condition.forward && yes.forward && no.forward
  | _ => true

theorem ownLabels_of_forward {c : Code} (h : c.forward = true) : c.ownLabels = true := by
  induction c with
  | op => exact h
  | raw => exact (Bool.and_eq_true_iff.mp h).1
  | andThen first rest ihf ihr =>
    obtain ⟨hfirst, hrest⟩ := Bool.and_eq_true_iff.mp h
    exact Bool.and_eq_true_iff.mpr ⟨ihf hfirst, ihr hrest⟩
  | setVariable name value ih => exact ih h
  | loop times body iht ihb =>
    obtain ⟨htimes, hbody⟩ := Bool.and_eq_true_iff.mp h
    exact Bool.and_eq_true_iff.mpr ⟨iht htimes, ihb hbody⟩
  | branch condition yes no ihc ihy ihn =>
    obtain ⟨hboth, hno⟩ := Bool.and_eq_true_iff.mp h
    obtain ⟨hcondition, hyes⟩ := Bool.and_eq_true_iff.mp hboth
    exact Bool.and_eq_true_iff.mpr ⟨Bool.and_eq_true_iff.mpr ⟨ihc hcondition, ihy hyes⟩, ihn hno⟩
  | _ => rfl

/-- How many loops there are in the code itself. -/
def loopCount : Code → Nat
  | .andThen first rest => first.loopCount + rest.loopCount
  | .setVariable _ value => value.loopCount
  | .loop times body => times.loopCount + body.loopCount + 1
  | .branch condition yes no => condition.loopCount + yes.loopCount + no.loopCount
  | _ => 0

end Code

/-- The heads of the loops, in the order in which the loops end. -/
def Piece.heads : Piece → List Label
  | .append first second => first.heads ++ second.heads
  | .assign _ _ value => value.heads
  | .compute _ _ _ value => value.heads
  | .store _ _ _ _ value => value.heads
  | .hoisted _ _ _ stores => stores.heads
  | .loop _ head times ahead body => times.heads ++ ahead.heads ++ body.heads ++ [head]
  | .branch _ condition ahead yes no => condition.heads ++ ahead.heads ++ yes.heads ++ no.heads
  | _ => []

/-- No computation that is shared jumps back or loops. -/
def Draft.Forward (d : Draft) : Prop := ∀ c ∈ d.values, c.forward = true ∧ c.loopCount = 0

namespace Draft.Forward

variable {d d' : Draft}

theorem of_precedes (h : d.Forward) (hd : d.Precedes d') : d'.Forward := by
  rwa [Draft.Forward, hd.values_eq]

theorem ownLabels (h : d.Forward) : d.OwnLabels := fun c hc => Code.ownLabels_of_forward (h c hc).1

theorem value (h : d.Forward) {id : SharedId} {entry : Shared} (hentry : d.shared[id]? = some entry) :
    entry.value.forward = true ∧ entry.value.loopCount = 0 :=
  h entry.value (List.mem_map_of_mem (List.mem_of_getElem? hentry))

end Draft.Forward

namespace Job

/-- The code of the job jumps back in loops only. -/
def Forward : Job → Prop
  | .code c _ => c.forward = true
  | .stores _ _ => True

def loopCount : Job → Nat
  | .code c _ => c.loopCount
  | .stores _ _ => 0

end Job

/-- Raw code that jumps ahead still does with its new labels. -/
theorem Draft.jumpsBack_emitRaw {ops : List Op} (h : Op.jumpsBack [] ops = []) (d : Draft) :
    Op.jumpsBack [] (d.emitRaw ops).ops = [] := by
  have hinj : Set.InjOn (fun l => d.nextLabel + (localLabels ops).idxOf l)
      { l | l ∈ ([] : List Label) ∨ l ∈ ops.filterMap Op.label? } := by
    rintro l (hl | hl) l' (hl' | hl') heq
    · cases hl
    · cases hl
    · cases hl'
    · exact (List.idxOf_inj (List.mem_eraseDups.mpr hl)).mp (Nat.add_left_cancel heq)
  have hrelabel := Op.jumpsBack_relabel hinj
  rw [h, List.map_nil] at hrelabel
  simpa only [emitRaw, Emission.ops, Block.toList_ops] using hrelabel

namespace Piece

/-- The piece has the labels between the bounds, and what jumps back in it is
    the end of one of its loops. There are `n` of them. -/
structure Turns (low high : Nat) (p : Piece) (n : Nat) : Prop where
  numbered : Numbered low high p.ops
  back : Op.jumpsBack [] p.ops = p.heads
  count : p.heads.length = n

namespace Turns

variable {low mid high n n₁ n₂ n₃ n₄ : Nat} {p p₁ p₂ p₃ p₄ : Piece}

/-- Operations without labels and jumps. -/
theorem of_none (hd : p.ops.filterMap Op.defines? = []) (hr : p.ops.filterMap Op.references? = [])
    (hheads : p.heads = []) : p.Turns low low 0 where
  numbered := .of_none hd hr
  back := (Op.jumpsBack_of_none hr).trans hheads.symm
  count := by rw [hheads, List.length_nil]

/-- Operations without labels and jumps behind others. -/
theorem followed (h : p₁.Turns low high n) {ops : List Op} (hops : p.ops = p₁.ops ++ ops)
    (hheads : p.heads = p₁.heads) (hd : ops.filterMap Op.defines? = []) (hr : ops.filterMap Op.references? = []) :
    p.Turns low high n where
  numbered := hops ▸ h.numbered.append (.of_none hd hr)
  back := by rw [hops, hheads, Op.jumpsBack_append, Op.jumpsBack_of_none hr, List.append_nil, h.back]
  count := hheads ▸ h.count

theorem append (h₁ : p₁.Turns low mid n₁) (h₂ : p₂.Turns mid high n₂) :
    (Piece.append p₁ p₂).Turns low high (n₁ + n₂) where
  numbered := by
    rw [ops_append]
    exact h₁.numbered.append h₂.numbered
  back := by rw [ops_append, h₁.numbered.jumpsBack_append h₂.numbered, h₁.back, h₂.back, heads]
  count := by rw [heads, List.length_append, h₁.count, h₂.count]

theorem hoisted (h : p.Turns low high n) (start : Draft) (regions after : List Code) :
    (Piece.hoisted start regions after p).Turns low high n :=
  ⟨h.numbered, h.back, h.count⟩

theorem loop {head : Label} (limit : Nat) (h₁ : p₁.Turns low head n₁) (h₂ : p₂.Turns (head + 2) mid n₂)
    (h₃ : p₃.Turns mid high n₃) : (Piece.loop limit head p₁ p₂ p₃).Turns low high (n₁ + n₂ + n₃ + 1) where
  numbered := by
    rw [ops_loop]
    exact .loop limit h₁.numbered h₂.numbered h₃.numbered
  back := by
    rw [ops_loop, Numbered.jumpsBack_loop limit h₁.numbered h₂.numbered h₃.numbered, h₁.back, h₂.back, h₃.back, heads]
  count := by simp only [heads, List.length_append, List.length_singleton, h₁.count, h₂.count, h₃.count]

theorem branch {otherwise : Label} {high₁ : Nat} (h₁ : p₁.Turns low mid n₁) (h₂ : p₂.Turns mid otherwise n₂)
    (h₃ : p₃.Turns (otherwise + 2) high₁ n₃) (h₄ : p₄.Turns high₁ high n₄) :
    (Piece.branch otherwise p₁ p₂ p₃ p₄).Turns low high (n₁ + n₂ + n₃ + n₄) where
  numbered := by
    rw [ops_branch]
    exact .branch h₁.numbered h₂.numbered h₃.numbered h₄.numbered
  back := by
    rw [ops_branch, Numbered.jumpsBack_branch h₁.numbered h₂.numbered h₃.numbered h₄.numbered, h₁.back, h₂.back, h₃.back,
      h₄.back, heads]
  count := by simp only [heads, List.length_append, h₁.count, h₂.count, h₃.count, h₄.count]

end Turns

end Piece

/-- Laid out code jumps back in its loops, once in each, and nowhere else. -/
theorem Builds.turns {job : Job} {used : Nat} {d d' : Draft} {p : Piece} (h : Builds job used d p d')
    (hd : d.Forward) (hjob : job.Forward) : p.Turns d.nextLabel d'.nextLabel job.loopCount := by
  induction h with
  | @op o _ _ _ _ =>
    have hnone : o.defines? = none ∧ o.references? = none := by
      simpa [Job.Forward, Code.forward, Op.label?] using hjob
    exact .of_none (by simp [hnone.1]) (by simp [hnone.2]) rfl
  | done => exact .of_none rfl rfl rfl
  | andThen h₁ _ ih₁ ih₂ =>
    obtain ⟨hfirst, hrest⟩ := Bool.and_eq_true_iff.mp hjob
    exact (ih₁ hd hfirst).append (ih₂ (hd.of_precedes h₁.precedes) hrest)
  | @raw _ ops _ _ d =>
    obtain ⟨hown, hback⟩ := Bool.and_eq_true_iff.mp hjob
    refine ⟨?_, ?_, rfl⟩
    · rw [Piece.ops_given]
      exact .raw hown d
    · rw [Piece.ops_given]
      exact jumpsBack_emitRaw (List.isEmpty_iff.mp hback) d
  | @unknown _ ty _ _ _ _ =>
    refine .of_none ?_ ?_ rfl
    · rw [Piece.ops_unknown]
      cases Const.zero? ty <;> rfl
    · rw [Piece.ops_unknown]
      cases Const.zero? ty <;> rfl
  | load hentry hslot =>
    rw [(reserves_slotOf hentry hslot).nextLabel_eq]
    exact .of_none rfl rfl rfl
  | compute hentry hslot _ _ ih =>
    -- a computation that is shared has no loops
    obtain ⟨hforward, hnone⟩ := hd.value hentry
    have hvalue := ih (hd.of_precedes (precedes_enter hentry hslot)) hforward
    rw [Job.loopCount, hnone] at hvalue
    rw [← (reserves_slotOf hentry hslot).nextLabel_eq]
    exact hvalue.followed (Piece.ops_compute _ _ _ _) rfl rfl rfl
  | getVariable hslot =>
    rw [(reserves_of_variableSlot hslot).nextLabel_eq]
    exact .of_none rfl rfl rfl
  | setVariable _ hslot ih =>
    rw [(reserves_of_variableSlot hslot).nextLabel_eq]
    exact (ih hd hjob).followed (Piece.ops_assign _ _ _) rfl rfl rfl
  | @loop _ _ _ used _ _ d₁ _ _ _ _ h₁ h₂ _ ih₁ ih₂ ih₃ =>
    obtain ⟨htimes, hbody⟩ := Bool.and_eq_true_iff.mp hjob
    have henter := hd.of_precedes (h₁.precedes.trans (d₁.precedes_enterLoop used))
    exact .loop _ (ih₁ hd htimes) ((ih₂ henter trivial).hoisted _ _ _)
      (ih₃ (henter.of_precedes h₂.precedes) hbody)
  | @branch _ _ _ _ _ _ _ d₁ _ d₂ _ _ _ _ h₁ h₂ h₃ _ ih₁ ih₂ ih₃ ih₄ =>
    obtain ⟨hboth, hno⟩ := Bool.and_eq_true_iff.mp hjob
    obtain ⟨hcondition, hyes⟩ := Bool.and_eq_true_iff.mp hboth
    have hfirst := hd.of_precedes h₁.precedes
    have hahead := hfirst.of_precedes h₂.precedes
    have hmiddle := hahead.of_precedes (d₂.precedes_beginBranch.trans h₃.precedes).restore
    exact .branch (ih₁ hd hcondition) ((ih₂ hfirst trivial).hoisted _ _ _)
      (ih₃ (hahead.of_precedes d₂.precedes_beginBranch) hyes) (ih₄ hmiddle hno)
  | nil => exact .of_none rfl rfl rfl
  | skip _ _ ih => exact ih hd trivial
  | store hentry hslot _ h₁ _ ih₁ ih₂ =>
    obtain ⟨hforward, hnone⟩ := hd.value hentry
    have henter := hd.of_precedes (precedes_enter hentry hslot)
    have hvalue := ih₁ henter hforward
    rw [Job.loopCount, hnone] at hvalue
    rw [← (reserves_slotOf hentry hslot).nextLabel_eq]
    exact (hvalue.followed (Piece.ops_store _ _ _ _ _) rfl rfl rfl).append
      (ih₂ (henter.of_precedes h₁.precedes) trivial)

/-! ## Programs -/

namespace Program

/-- The jumps that lead back, each with its position and its label. -/
def backJumps (p : Program) : List (Nat × Label) :=
  p.ops.zipIdx.filterMap fun (o, i) =>
    (o.references?.filter fun l => (p.position? l).any (· < i)).map fun l => (i, l)

variable {p : Program}

theorem mem_backJumps {i : Nat} {l : Label} :
    (i, l) ∈ p.backJumps ↔
      ∃ o j, p.ops[i]? = some o ∧ o.references? = some l ∧ p.position? l = some j ∧ j < i := by
  simp only [backJumps, List.mem_filterMap, Option.map_eq_some_iff, Option.filter_eq_some_iff, Option.any_eq_true,
    decide_eq_true_eq]
  constructor
  · rintro ⟨⟨o, i'⟩, hmem, l', ⟨hl', j, hj, hlt⟩, heq⟩
    cases heq
    exact ⟨o, j, List.mem_zipIdx_iff_getElem?.mp hmem, hl', hj, hlt⟩
  · rintro ⟨o, j, ho, hl, hj, hlt⟩
    exact ⟨(o, i), List.mem_zipIdx_iff_getElem?.mpr ho, l, ⟨hl, j, hj, hlt⟩, rfl⟩

/-- A label stands in front of a position if it is defined before it. -/
theorem position?_lt_iff {before rest : List Op} (h : p.ops = before ++ rest) (l : Label) :
    (p.position? l).any (· < before.length) = (before.filterMap Op.defines?).contains l := by
  rw [position?, h, List.findIdx?_append]
  cases hfind : before.findIdx? fun op => op.defines? == some l with
  | none =>
    have hnot : l ∉ before.filterMap Op.defines? := by
      intro hl
      obtain ⟨o, ho, hdefines⟩ := List.mem_filterMap.mp hl
      simpa [hdefines] using List.findIdx?_eq_none_iff.mp hfind o ho
    cases hrest : rest.findIdx? fun op => op.defines? == some l <;> simp [hnot]
  | some j =>
    obtain ⟨hlt, hdefines, -⟩ := List.findIdx?_eq_some_iff_getElem.mp hfind
    have hmem : l ∈ before.filterMap Op.defines? :=
      List.mem_filterMap.mpr ⟨before[j], List.getElem_mem hlt, by simpa using hdefines⟩
    simp [hmem, hlt]

/-- From each position on, one pass finds the jumps that lead back: the labels
    that it has seen are those in front of the position. -/
theorem map_snd_filterMap {before rest : List Op} (h : p.ops = before ++ rest) :
    ((rest.zipIdx before.length).filterMap fun (o, i) =>
      (o.references?.filter fun l => (p.position? l).any (· < i)).map fun l => (i, l)).map Prod.snd =
    Op.jumpsBack (before.filterMap Op.defines?) rest := by
  induction rest generalizing before with
  | nil => rfl
  | cons o rest ih =>
    have hnext : p.ops = (before ++ [o]) ++ rest := by rw [h, List.append_assoc, List.singleton_append]
    have hseen : (before ++ [o]).filterMap Op.defines? = before.filterMap Op.defines? ++ o.defines?.toList := by
      cases ho : o.defines? <;> simp [ho]
    have hrest := ih hnext
    rw [List.length_append, List.length_singleton, hseen] at hrest
    rw [List.zipIdx_cons, List.filterMap_cons, Op.jumpsBack, ← hrest]
    cases ho : o.references? with
    | none => simp [ho]
    | some l =>
      simp only [ho, Option.filter_some, position?_lt_iff h]
      cases (before.filterMap Op.defines?).contains l <;> rfl

theorem map_snd_backJumps (p : Program) : p.backJumps.map Prod.snd = Op.jumpsBack [] p.ops :=
  map_snd_filterMap (List.nil_append p.ops).symm

/-- Every other jump leads ahead, to its label. -/
theorem jump_cases {low high : Nat} (h : Labelled low high p.ops) {i : Nat} {o : Op} {l : Label}
    (ho : p.ops[i]? = some o) (hl : o.references? = some l) :
    (i, l) ∈ p.backJumps ∨ ∃ j, p.position? l = some j ∧ i < j := by
  obtain ⟨o', ho', hdefines⟩ := List.mem_filterMap.mp
    (h.defined l (List.mem_filterMap.mpr ⟨o, List.mem_of_getElem? ho, hl⟩))
  have hfound : (p.position? l).isSome = true :=
    List.findIdx?_isSome.trans (List.any_eq_true.mpr ⟨o', ho', by simp [hdefines]⟩)
  obtain ⟨j, hj⟩ := Option.isSome_iff_exists.mp hfound
  rcases Nat.lt_trichotomy i j with hlt | rfl | hlt
  · exact .inr ⟨j, hj, hlt⟩
  · -- a jump is no label
    obtain ⟨hlt, hlabel, -⟩ := List.findIdx?_eq_some_iff_getElem.mp hj
    rw [List.getElem?_eq_getElem hlt] at ho
    cases ho
    cases hop : p.ops[i] <;> simp [hop, Op.defines?, Op.references?] at hlabel hl
  · exact .inl (mem_backJumps.mpr ⟨o, j, ho, hl, hj, hlt⟩)

/-- Without jumps that lead back, all jumps of the machine lead ahead. -/
theorem jumpsAhead_of_load (h : p.backJumps = []) {limits : Limits} {m : Machine}
    (hload : Machine.load limits p = .ok m) : m.JumpsAhead := by
  obtain ⟨hcode, hlabels⟩ := Machine.positions_of_load hload
  obtain ⟨-, -, -, hpositions⟩ := Machine.of_load hload
  intro i o l j ho hl hj
  rw [hcode, List.getElem?_toArray] at ho
  rcases Nat.lt_trichotomy i j with hlt | rfl | hlt
  · exact hlt
  · rw [hlabels l i hj] at ho
    cases ho
    cases hl
  · rw [positions_get? hpositions] at hj
    have hback := mem_backJumps.mpr ⟨o, j, ho, hl, hj, hlt⟩
    rw [h] at hback
    cases hback

variable {σ : Type} (host : Host σ)

/-- Without jumps that lead back, a run executes no operation twice. -/
theorem executed_of_backJumps (h : p.backJumps = []) (limits : Limits) (w : σ) :
    (p.executed limits host w).Nodup ∧ (p.executed limits host w).length ≤ p.ops.length := by
  unfold executed
  cases hload : Machine.load limits p with
  | error fault => exact ⟨List.nodup_nil, Nat.zero_le _⟩
  | ok m =>
    obtain ⟨-, -, hcode, -⟩ := Machine.of_load hload
    obtain ⟨hsorted, hbounds⟩ := (jumpsAhead_of_load h hload).executed host limits.steps m.start w
    have hnodup := hsorted.imp Nat.ne_of_lt
    refine ⟨hnodup, ?_⟩
    have hsubset : m.executed host limits.steps m.start w ⊆ List.range p.ops.length := by
      intro i hi
      have hlt := (hbounds i hi).2
      rw [hcode, List.size_toArray] at hlt
      exact List.mem_range.mpr hlt
    rw [← List.length_range (n := p.ops.length)]
    exact (List.subperm_of_subset hnodup hsubset).length_le

/-- A step is counted for each operation that is executed. -/
theorem steps_eq_length_executed (limits : Limits) {w : σ} {outcome : Outcome} (hrun : (p.run limits host w).1 = .ok outcome) :
    outcome.steps = (p.executed limits host w).length := by
  unfold run at hrun
  unfold executed
  cases hload : Machine.load limits p with
  | error fault =>
    rw [hload] at hrun
    cases hrun
  | ok m =>
    simp only [hload] at hrun ⊢
    have hsteps := Machine.length_executed (Prod.ext hrun rfl)
    simpa [Machine.start] using hsteps

/-- With a step for each operation, it does not lack one. -/
theorem raises_of_run (h : p.backJumps = []) {limits : Limits} (hsteps : p.ops.length ≤ limits.steps) {I : σ → Prop}
    (hI : ∀ w w', I w → host.Goes w w' → I w') {w : σ} (hw : I w) {n : Nat}
    (hrun : (p.run limits host w).1 = .error (.stepLimit n)) : host.Raises I (.stepLimit n) (p.run limits host w).2 := by
  unfold run at hrun ⊢
  cases hload : Machine.load limits p with
  | error fault =>
    simp only [hload] at hrun
    cases hrun
    cases Machine.isRefusal_of_load hload
  | ok m =>
    simp only [hload] at hrun ⊢
    obtain ⟨-, -, hcode, -⟩ := Machine.of_load hload
    refine (jumpsAhead_of_load h hload).run hI ?_ hw (Prod.ext hrun rfl)
    rw [hcode, List.size_toArray]
    exact Nat.le_trans hsteps (Nat.le_add_left _ _)

/-- If a run says so all the same, the host does: the last operation that it was
    asked for fails in this way. -/
theorem fails_of_run (h : p.backJumps = []) {limits : Limits} (hsteps : p.ops.length ≤ limits.steps) {w : σ} {n : Nat}
    (hrun : (p.run limits host w).1 = .error (.stepLimit n)) :
    host.Fails (fun _ => True) (p.asked limits host w) w (.stepLimit n) (p.run limits host w).2 := by
  have hrecorded := p.run_recorded_eq limits host w
  have hraises := raises_of_run host.recorded h hsteps (I := fun s => True ∧ host.Recalls w s)
    (fun _ _ hs hgoes => ⟨trivial, hs.2.goes hgoes⟩) (w := (w, [])) ⟨trivial, rfl⟩ (by rw [hrecorded]; exact hrun)
  rw [hrecorded] at hraises
  exact Host.Raises.fails (I := fun _ => True) hraises

end Program

/-! ## Graphs -/

namespace Code

/-- Casts jump ahead. -/
theorem forward_of_onlyCasts {c : Code} (hcasts : c.OnlyCasts) {types : List Ty} {n : Nat} (hfits : c.Fits types n) :
    c.forward = true := by
  induction c with
  | op o ty =>
    have hplain : o.isPlain = true := hfits
    simp [forward, Op.label?, Op.defines?_of_isPlain hplain, Op.references?_of_isPlain hplain]
  | raw ty ops =>
    obtain ⟨category, default, rfl⟩ := hcasts
    cases category <;> rfl
  | andThen first rest ihf ihr => simp [forward, ihf hcasts.1 hfits.1, ihr hcasts.2 hfits.2]
  | setVariable name value ih => exact ih hcasts hfits
  | loop times body iht ihb => simp [forward, iht hcasts.1 hfits.1, ihb hcasts.2 hfits.2]
  | branch condition yes no ihc ihy ihn =>
    simp [forward, ihc hcasts.1 hfits.1, ihy hcasts.2.1 hfits.2.1, ihn hcasts.2.2 hfits.2.2]
  | _ => rfl

/-- A value is computed without loops. -/
theorem loopCount_of_isValue {c : Code} (h : c.isValue = true) : c.loopCount = 0 := by
  induction c with
  | andThen first rest ihf ihr =>
    obtain ⟨hfirst, hrest⟩ := Bool.and_eq_true_iff.mp h
    rw [loopCount, ihf hfirst, ihr hrest]
  | setVariable => cases h
  | loop => cases h
  | branch => cases h
  | _ => rfl

end Code

namespace Graph

variable {g : Graph} {d d' : Draft} {c : Code} {log : List Event}

/-- The node is a loop. -/
def isLoop (g : Graph) (id : NodeId) : Bool := (g.role? id).any fun (_, role) => role == .loop

/-- A signal reached a loop. -/
def Event.startsLoop (g : Graph) : Event → Bool
  | .activate id => g.isLoop id
  | .compute _ => false

theorem isLoop_eq {id : NodeId} {node : Node} {role : Role} (h : g.role? id = some (node, role)) :
    g.isLoop id = (role == .loop) := by
  simp [isLoop, h]

/-- No signal moves while a value is computed. -/
theorem Pulls.activate_not_mem {opened : List Port} {need : Need} (h : Pulls g opened need d c d' log) (id : NodeId) :
    .activate id ∉ log := by
  induction h with
  | driven _ _ _ _ _ ih => exact ih
  | single _ _ _ _ ih => simpa using ih
  | shared _ _ _ _ _ ih => simpa using ih
  | constant _ _ ih => exact ih
  | arith _ _ _ ihx ihy => simp [ihx, ihy]
  | compare _ _ _ ihx ihy => simp [ihx, ihy]
  | not _ _ ih => exact ih
  | _ => simp

theorem countP_startsLoop (h : ∀ id, .activate id ∈ log → g.isLoop id = false) :
    log.countP (Event.startsLoop g) = 0 := by
  refine List.countP_eq_zero.mpr fun e he => ?_
  cases e with
  | activate id => simp [Event.startsLoop, h id he]
  | compute p => simp [Event.startsLoop]

theorem Pulls.countP_startsLoop {opened : List Port} {need : Need} (h : Pulls g opened need d c d' log) :
    log.countP (Event.startsLoop g) = 0 :=
  Graph.countP_startsLoop fun id hid => absurd hid (h.activate_not_mem id)

theorem Pulls.loopCount {opened : List Port} {need : Need} (h : Pulls g opened need d c d' log) : c.loopCount = 0 :=
  Code.loopCount_of_isValue h.built.value

/-- There is one loop in the code for each time that a signal reached a loop. -/
theorem Pushes.loopCount {signal : Signal} (h : Pushes g signal d c d' log) :
    c.loopCount = log.countP (Event.startsLoop g) := by
  induction h with
  | branch hrole hpulls _ _ ihyes ihno =>
    have hnone : Event.startsLoop g (.activate _) = false := isLoop_eq hrole
    simp [Code.loopCount, hpulls.loopCount, hpulls.countP_startsLoop, ihyes, ihno, hnone]
  | loop hrole hpulls _ _ ihbody ihnext =>
    have hone : Event.startsLoop g (.activate _) = true := isLoop_eq hrole
    simp [Code.block, Code.loopCount, hpulls.loopCount, hpulls.countP_startsLoop, ihbody, ihnext, hone]
    omega
  | setVariable hrole _ hpulls _ ih =>
    have hnone : Event.startsLoop g (.activate _) = false := isLoop_eq hrole
    simp [Code.block, Code.loopCount, hpulls.loopCount, hpulls.countP_startsLoop, ih, hnone]
  | emit hrole hpulls _ ih =>
    have hnone : Event.startsLoop g (.activate _) = false := isLoop_eq hrole
    simp [Code.block, Code.loopCount, hpulls.loopCount, hpulls.countP_startsLoop, ih, hnone]
  | nil => rfl
  | skip _ _ _ ih => exact ih
  | cons _ _ _ ihfirst ihrest => rw [Code.loopCount, ihfirst, ihrest, List.countP_append]

theorem Starts.loopCount {ports : List Port} (h : Starts g ports d c d' log) :
    c.loopCount = log.countP (Event.startsLoop g) := by
  induction h with
  | nil => rfl
  | cons hpushes _ ih => rw [Code.loopCount, hpushes.loopCount, ih, List.countP_append]

/-- The nodes that the signal goes to are activated. -/
def Signal.Activated (g : Graph) : Signal → Prop
  | .node id => g.Activated id
  | .wires list => ∀ w ∈ list, g.isSignalInput w.2.target = true → g.Activated w.2.target.node

/-- A node that is activated sends its signals on. -/
theorem activated_leaving {id : NodeId} (hid : g.Activated id) {node : Node} {role : Role}
    (hrole : g.role? id = some (node, role)) {index : Nat} {decl : PortDecl}
    (hdecl : role.kind.outputs[index]? = some decl) (hsignal : decl.isSignal = true) :
    (Signal.wires (g.leaving ⟨id, index⟩)).Activated g := by
  have hport : (⟨id, index⟩ : Port) ∈ g.signalOutputs id := by
    simp only [signalOutputs, hrole, List.mem_map, List.mem_filter, List.mem_zipIdx_iff_getElem?]
    exact ⟨(decl, index), ⟨hdecl, hsignal⟩, rfl⟩
  exact fun w hw htarget => .next hid ⟨_, hport, w, hw, htarget, rfl⟩

/-- The walk comes only to nodes that a signal reaches. -/
theorem Pushes.activated {signal : Signal} (h : Pushes g signal d c d' log) (hsignal : signal.Activated g)
    {id : NodeId} (hid : .activate id ∈ log) : g.Activated id := by
  -- values activate no node: it is the node of the signal itself, or one that it sends signals to
  induction h with
  | branch hrole hpulls _ _ ihyes ihno =>
    simp only [List.mem_cons, Event.activate.injEq, List.mem_append, hpulls.activate_not_mem, false_or] at hid
    rcases hid with rfl | hid | hid
    · exact hsignal
    · exact ihyes (activated_leaving hsignal hrole rfl rfl) hid
    · exact ihno (activated_leaving hsignal hrole rfl rfl) hid
  | loop hrole hpulls _ _ ihbody ihnext =>
    simp only [List.mem_cons, Event.activate.injEq, List.mem_append, hpulls.activate_not_mem, false_or] at hid
    rcases hid with rfl | hid | hid
    · exact hsignal
    · exact ihbody (activated_leaving hsignal hrole rfl rfl) hid
    · exact ihnext (activated_leaving hsignal hrole rfl rfl) hid
  | setVariable hrole _ hpulls _ ih =>
    simp only [List.mem_cons, Event.activate.injEq, List.mem_append, hpulls.activate_not_mem, false_or] at hid
    rcases hid with rfl | hid
    · exact hsignal
    · exact ih (activated_leaving hsignal hrole rfl rfl) hid
  | emit hrole hpulls _ ih =>
    simp only [List.mem_cons, Event.activate.injEq, List.mem_append, hpulls.activate_not_mem, false_or] at hid
    rcases hid with rfl | hid
    · exact hsignal
    · exact ih (activated_leaving hsignal hrole rfl rfl) hid
  | nil => cases hid
  | skip _ _ _ ih => exact ih (fun w hw => hsignal w (List.mem_cons_of_mem _ hw)) hid
  | cons htarget _ _ ihfirst ihrest =>
    rcases List.mem_append.mp hid with hid | hid
    · exact ihfirst (hsignal _ List.mem_cons_self htarget) hid
    · exact ihrest (fun w hw => hsignal w (List.mem_cons_of_mem _ hw)) hid

theorem Walked.activated {body : Code} {draft : Draft} (h : g.Walked body draft log) {id : NodeId}
    (hid : .activate id ∈ log) : g.Activated id := by
  obtain ⟨entry, node, role, hentry, -, hstarts⟩ := h
  -- the ports that are left to start from are outputs of the entry
  have hports {ports : List Port} {d d' : Draft} {c : Code} {log : List Event} (hstarts : Starts g ports d c d' log)
      (hsub : ports ⊆ g.signalOutputs entry) (hid : .activate id ∈ log) : g.Activated id := by
    induction hstarts with
    | nil => cases hid
    | cons hpushes _ ih =>
      rcases List.mem_append.mp hid with hid | hid
      · refine hpushes.activated (fun w hw htarget => ?_) hid
        exact .entry hentry ⟨_, hsub List.mem_cons_self, w, hw, htarget, rfl⟩
      · exact ih (fun p hp => hsub (List.mem_cons_of_mem _ hp)) hid
  exact hports hstarts (List.Subset.refl _) hid

/-- The code of a graph jumps back in loops only, and shared values are
    computed without. -/
theorem Walked.forward {body : Code} {draft : Draft} (h : g.Walked body draft log) :
    body.forward = true ∧ draft.Forward := by
  obtain ⟨hbody, hdraft⟩ := h.onlyCasts
  have hcomplete := h.complete
  refine ⟨Code.forward_of_onlyCasts hbody hcomplete.fits, fun c hc => ?_⟩
  obtain ⟨entry, hentry, rfl⟩ := List.mem_map.mp hc
  obtain ⟨id, hid⟩ := List.mem_iff_getElem?.mp hentry
  obtain ⟨hvalue, hfits⟩ := hcomplete.ordered id entry hid
  exact ⟨Code.forward_of_onlyCasts (hdraft entry hentry) hfits, Code.loopCount_of_isValue hvalue⟩

/-- The piece that the code of a graph is laid out as. The program jumps back
    to the heads of its loops, of which there is one for each time that a signal
    reached a loop. -/
theorem Walked.exists_piece {body : Code} {draft : Draft} (h : g.Walked body draft log) :
    ∃ piece, Builds (.code body []) (draft.prepare body).nextSlot (draft.prepare body) piece (draft.layout body).draft ∧
      (draft.finish body).program.ops = (draft.layout body).draft.prologue ++ piece.ops ++ [Op.ret] ∧
      (draft.finish body).program.backJumps.map Prod.snd = piece.heads ∧
      piece.heads.length = log.countP (Event.startsLoop g) := by
  obtain ⟨hbody, hdraft⟩ := h.forward
  have hreserves := draft.reserves_prepare body
  obtain ⟨piece, hops, hbuilds⟩ := isBuilt_emit (draft.prepare body) body (draft.prepare body).nextSlot
  have hturns := hbuilds.turns (hdraft.of_precedes hreserves.precedes) hbody
  have hprogram : (draft.finish body).program.ops = (draft.layout body).draft.prologue ++ piece.ops ++ [Op.ret] := by
    rw [hops]
    rfl
  refine ⟨piece, hbuilds, hprogram, ?_, ?_⟩
  · -- neither the prologue nor the return has a label
    obtain ⟨hdefines, hreferences⟩ := (draft.layout body).draft.labels_prologue
    rw [Program.map_snd_backJumps, hprogram, Op.jumpsBack_append, Op.jumpsBack_append, Op.jumpsBack_of_none hreferences,
      hdefines, List.append_nil, hturns.back]
    simp [Op.jumpsBack, Op.references?]
  · obtain ⟨_, _, _, _, _, hstarts⟩ := h
    exact hturns.count.trans hstarts.loopCount

/-- A graph that compiles has a program in which each loop jumps back once, to
    its head, and every other jump leads ahead. There is one loop for each time
    that a signal reaches a loop. If none is ever reached, then no run executes
    an operation twice, and with a step for each operation no run lacks one,
    unless the host says so to the last thing that it is asked for. -/
theorem compile_backJumps {compilation : Compilation} (hc : g.compile .standard = .ok compilation) :
    (∃ (body : Code) (draft : Draft) (log : List Event) (piece : Piece), g.Walked body draft log ∧
      Builds (.code body []) (draft.prepare body).nextSlot (draft.prepare body) piece (draft.layout body).draft ∧
      compilation.program.ops = (draft.layout body).draft.prologue ++ piece.ops ++ [Op.ret] ∧
      compilation.program.backJumps.map Prod.snd = piece.heads ∧
      piece.heads.length = log.countP (Event.startsLoop g)) ∧
    (∀ (i : Nat) (o : Op) (l : Label), compilation.program.ops[i]? = some o → o.references? = some l →
      (i, l) ∈ compilation.program.backJumps ∨ ∃ j, compilation.program.position? l = some j ∧ i < j) ∧
    ((∀ id, g.Activated id → g.isLoop id = false) →
      compilation.program.backJumps = [] ∧
      ∀ {σ : Type} (host : Host σ) (limits : Limits) (w : σ),
        (compilation.program.executed limits host w).Nodup ∧
        (compilation.program.executed limits host w).length ≤ compilation.program.ops.length ∧
        (∀ outcome, (compilation.program.run limits host w).1 = .ok outcome →
          outcome.steps ≤ compilation.program.ops.length) ∧
        (compilation.program.ops.length ≤ limits.steps → ∀ n,
          (compilation.program.run limits host w).1 = .error (.stepLimit n) →
          host.Fails (fun _ => True) (compilation.program.asked limits host w) w (.stepLimit n)
            (compilation.program.run limits host w).2)) := by
  obtain ⟨body, draft, log, hwalked, rfl⟩ := exists_walk_of_compile hc
  obtain ⟨piece, hbuilds, hprogram, hback, hcount⟩ := hwalked.exists_piece
  obtain ⟨hbody, hdraft⟩ := hwalked.forward
  have hnumbered := hwalked.complete.fresh.numbered hdraft.ownLabels (Code.ownLabels_of_forward hbody)
  refine ⟨⟨body, draft, log, piece, hwalked, hbuilds, hprogram, hback, hcount⟩,
    fun i o l ho hl => Program.jump_cases hnumbered.toLabelled ho hl, fun hloops => ?_⟩
  -- a loop that the walk comes to would be activated
  have hnone : (draft.finish body).program.backJumps = [] := by
    have hzero := countP_startsLoop fun id hid => hloops id (hwalked.activated hid)
    rw [← List.map_eq_nil_iff, hback, ← List.length_eq_zero_iff, hcount, hzero]
  refine ⟨hnone, fun host limits w => ?_⟩
  obtain ⟨hnodup, hlength⟩ := Program.executed_of_backJumps host hnone limits w
  refine ⟨hnodup, hlength, fun outcome hrun => ?_, fun hsteps n hrun => Program.fails_of_run host hnone hsteps hrun⟩
  rw [Program.steps_eq_length_executed host limits hrun]
  exact hlength

/-- Signals come by wires. -/
theorem Activated.exists_wire {id : NodeId} (h : g.Activated id) : ∃ w ∈ g.wires, w.target.node = id := by
  have hwire {id id' : NodeId} (h : g.Activates id id') : ∃ w ∈ g.wires, w.target.node = id' := by
    obtain ⟨p, -, w, hw, -, htarget⟩ := h
    obtain ⟨⟨w', index⟩, hmem, rfl⟩ := List.mem_map.mp (List.mem_filter.mp hw).1
    exact ⟨w', List.mem_of_getElem? (List.mem_zipIdx_iff_getElem?.mp hmem), htarget⟩
  cases h with
  | entry _ hactivates => exact hwire hactivates
  | next _ hactivates => exact hwire hactivates

/-- Shows a number from a variable, under a branch or in a loop. No signal
    reaches the last node. -/
def showsUnder (control : String) : Graph where
  nodes := [some ⟨"start", [], none⟩, some ⟨control, [], none⟩, some ⟨"emit:number", [], some "show"⟩,
    some ⟨"get_variable:number", [], some "x"⟩, some ⟨"repeat", [], none⟩]
  wires := [⟨⟨0, 0⟩, ⟨1, 0⟩⟩, ⟨⟨1, 0⟩, ⟨2, 0⟩⟩, ⟨⟨3, 0⟩, ⟨2, 1⟩⟩, ⟨⟨4, 0⟩, ⟨2, 0⟩⟩]
  entry := some 0

def showsRepeatedly : Program where
  ops := [.const .null, .store 0 (.ref .object), .const (.number .zero), .store 1 .double, .const (.number .zero),
    .store 2 .double, .label 0, .load 2 .double, .load 1 .double, .compare .lt, .jumpUnless 1, .load 0 (.ref .object),
    .dup, .instanceOf .double, .jumpIf 2, .pop, .const (.number .zero), .jump 3, .label 2, .checkCast .double,
    .unbox .double, .label 3, .invoke "show" 1 .void, .load 2 .double, .const (.number .one), .arith .add,
    .store 2 .double, .jump 0, .label 1, .ret]
  locals := 3

theorem compile_showsUnder_repeat : (showsUnder "repeat").compile .standard = .ok ⟨showsRepeatedly, []⟩ := rfl

/-- Under a branch nothing jumps back. In a loop one jump does, and those of
    the cast do not. -/
theorem compile_backJumps_showsUnder :
    ((showsUnder "if").isLoop 4 = true ∧ (∀ id, (showsUnder "if").Activated id → (showsUnder "if").isLoop id = false) ∧
      ∃ c, (showsUnder "if").compile .standard = .ok c ∧ c.program.backJumps = [] ∧
        ∀ (host : Host Unit) (limits : Limits), (c.program.executed limits host ()).Nodup ∧
          (c.program.executed limits host ()).length ≤ c.program.ops.length) ∧
    (showsUnder "repeat").compile .standard = .ok ⟨showsRepeatedly, []⟩ ∧ showsRepeatedly.backJumps = [(27, 0)] ∧
    ∃ (body : Code) (draft : Draft) (log : List Event) (piece : Piece), (showsUnder "repeat").Walked body draft log ∧
      Builds (.code body []) (draft.prepare body).nextSlot (draft.prepare body) piece (draft.layout body).draft ∧
      piece.heads = [0] ∧ log.countP (Event.startsLoop (showsUnder "repeat")) = 1 := by
  have hloops (id : NodeId) (hid : (showsUnder "if").Activated id) : (showsUnder "if").isLoop id = false := by
    obtain ⟨w, hw, rfl⟩ := hid.exists_wire
    have hall : ((showsUnder "if").wires.all fun w => !(showsUnder "if").isLoop w.target.node) = true := by decide
    simpa using List.all_eq_true.mp hall w hw
  have hback : showsRepeatedly.backJumps = [(27, 0)] := by decide
  obtain ⟨c, hc⟩ : ∃ c, (showsUnder "if").compile .standard = .ok c := ⟨_, rfl⟩
  obtain ⟨hnone, hruns⟩ := (compile_backJumps hc).2.2 hloops
  obtain ⟨body, draft, log, piece, hwalked, hbuilds, -, hheads, hcount⟩ := (compile_backJumps compile_showsUnder_repeat).1
  rw [hback] at hheads
  refine ⟨⟨by decide, hloops, c, hc, hnone, fun host limits => ?_⟩, compile_showsUnder_repeat, hback, body, draft, log,
    piece, hwalked, hbuilds, hheads.symm, ?_⟩
  · obtain ⟨hnodup, hlength, -⟩ := hruns host limits ()
    exact ⟨hnodup, hlength⟩
  · rw [← hcount, ← hheads]
    rfl

end Graph

end FlowGraph
