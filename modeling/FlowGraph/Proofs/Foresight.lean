import Mathlib
import FlowGraph.Proofs.Flow
import FlowGraph.Proofs.Prospect

/-! # Shared values that a run computes

    A shared value is computed on the way to a use of it. Where it is computed
    in place, the value stays on the stack for the first use. Where it is
    computed ahead of a branch or of a loop, a read of it can be reached
    whichever way the test there goes, and the run gets to one unless a later
    test, inside the branch or the loop or behind it, leads it away from all of
    them.

    Main statement: `compile_foresees`.
-/

namespace FlowGraph

/-! ## Traces -/

/-- The test of a branch or of a loop. -/
def Op.isTest : Op → Bool
  | .jumpUnless _ => true
  | _ => false

theorem Op.isTest_of_references? {o : Op} (h : o.references? = none) : o.isTest = false := by
  cases o <;> first | rfl | cases h

namespace Program

variable {p : Program} {slot free pc : Nat} {trace : List Nat}

/-- There is a test at the position. -/
def tests (p : Program) (pc : Nat) : Bool := (p.ops[pc]?).any Op.isTest

/-- The trace gets to a read of the slot, with no store to it before. -/
def Reads (p : Program) (slot : Nat) (trace : List Nat) : Prop :=
  ∃ between read rest, trace = between ++ read :: rest ∧ (∃ ty, p.ops[read]? = some (.load slot ty)) ∧
    ∀ pc ∈ between, ∀ ty, p.ops[pc]? ≠ some (.store slot ty)

/-- A test leads the trace from where a read of the slot lies ahead to where
    there is none. It comes after at least `free` other tests. -/
def Diverted (p : Program) (slot free : Nat) (trace : List Nat) : Prop :=
  ∃ between test next rest, trace = between ++ test :: next :: rest ∧ free ≤ between.countP p.tests ∧
    p.tests test = true ∧ (∀ pc ∈ between, ∀ ty, p.ops[pc]? ≠ some (.store slot ty)) ∧
    Ahead p.ops slot 0 (p.ops.drop test) ∧ ¬Ahead p.ops slot 0 (p.ops.drop next)

theorem ne_store_of_stores {o : Op} (hop : p.ops[pc]? = some o) (ho : o.stores slot = false) (ty : Ty) :
    p.ops[pc]? ≠ some (.store slot ty) := by
  rw [hop]
  rintro ⟨⟩
  simp [Op.stores] at ho

theorem Reads.cons (h : p.Reads slot trace) {o : Op} (hop : p.ops[pc]? = some o) (ho : o.stores slot = false) :
    p.Reads slot (pc :: trace) := by
  obtain ⟨between, read, rest, rfl, hread, hstores⟩ := h
  refine ⟨pc :: between, read, rest, rfl, hread, ?_⟩
  exact List.forall_mem_cons.mpr ⟨ne_store_of_stores hop ho, hstores⟩

theorem Diverted.cons (h : p.Diverted slot free trace) {o : Op} (hop : p.ops[pc]? = some o)
    (ho : o.stores slot = false) : p.Diverted slot (if p.tests pc then free + 1 else free) (pc :: trace) := by
  obtain ⟨between, test, next, rest, rfl, hfree, htest, hstores, hahead⟩ := h
  refine ⟨pc :: between, test, next, rest, rfl, ?_, htest, ?_, hahead⟩
  · rw [List.countP_cons]
    split <;> omega
  · exact List.forall_mem_cons.mpr ⟨ne_store_of_stores hop ho, hstores⟩

end Program

/-! ## Runs -/

/-- A label is found where the program defines it. -/
theorem Machine.drop_of_positions {m : Machine} {limits : Limits} {p : Program} (hload : load limits p = .ok m)
    (honce : (p.ops.filterMap Op.defines?).Nodup) {l : Label} {i : Nat} (hi : m.positions[l]? = some i)
    {target : List Op} (htarget : .label l :: target <:+ p.ops) : p.ops.drop i = .label l :: target := by
  obtain ⟨before, heq⟩ := htarget
  have hbefore : p.ops[before.length]? = some (.label l) := by simp [← heq]
  have hlabel := (Machine.positions_of_load hload).2 l i hi
  have hpos := (Program.position?_eq honce hlabel).symm.trans (Program.position?_eq honce hbefore)
  obtain rfl := Option.some.inj hpos
  simp [← heq]

section

variable {σ : Type} {m : Machine} {host : Host σ} {limits : Limits} {p : Program} {slot free : Nat}

/-- What a step does to a read that lies ahead: it is the read, it keeps the
    read ahead, or it is a test that decides. -/
theorem Ahead.step (hload : Machine.load limits p = .ok m) (honce : (p.ops.filterMap Op.defines?).Nodup)
    {s s' : Machine.State} {w w' : σ} {o : Op} (h : Ahead p.ops slot free (p.ops.drop s.pc))
    (hop : p.ops[s.pc]? = some o) (hstep : m.step host o s w = (.ok (.running s'), w')) :
    (∃ ty, o = .load slot ty) ∨ o.stores slot = false ∧
      (p.tests s.pc = false ∧ Ahead p.ops slot free (p.ops.drop s'.pc) ∨
        p.tests s.pc = true ∧ (free = 0 ∨ ∃ free', free = free' + 1 ∧ Ahead p.ops slot free' (p.ops.drop s'.pc))) := by
  obtain ⟨hlt, hget⟩ := List.getElem?_eq_some_iff.mp hop
  rw [List.drop_eq_getElem_cons hlt, hget] at h
  have htests : p.tests s.pc = o.isTest := by simp [Program.tests, hop]
  -- a step goes on behind the operation, or at the label that the operation names
  have hnext := (Machine.step_running hstep).2
  cases h with
  | load => exact .inl ⟨_, rfl⟩
  | next href hret hstores hrest =>
    refine .inr ⟨hstores, .inl ⟨?_, ?_⟩⟩
    · rw [htests, Op.isTest_of_references? href]
    · rcases hnext with ⟨hpc, -⟩ | ⟨l, hl, -⟩
      · rwa [hpc]
      · simp [href] at hl
  | jump htarget hahead =>
    refine .inr ⟨rfl, .inl ⟨htests, ?_⟩⟩
    rcases hnext with ⟨-, -, hjump⟩ | ⟨l, ⟨⟩, hpos⟩
    · exact absurd rfl (hjump _)
    · rwa [Machine.drop_of_positions hload honce hpos htarget]
  | cast htarget hahead hrest =>
    refine .inr ⟨rfl, .inl ⟨htests, ?_⟩⟩
    rcases hnext with ⟨hpc, -⟩ | ⟨l, ⟨⟩, hpos⟩
    · rwa [hpc]
    · rwa [Machine.drop_of_positions hload honce hpos htarget]
  | enter => exact .inr ⟨rfl, .inr ⟨htests, .inl rfl⟩⟩
  | leave => exact .inr ⟨rfl, .inr ⟨htests, .inl rfl⟩⟩
  | either htarget hahead hrest =>
    refine .inr ⟨rfl, .inr ⟨htests, .inr ⟨_, rfl, ?_⟩⟩⟩
    rcases hnext with ⟨hpc, -⟩ | ⟨l, ⟨⟩, hpos⟩
    · rwa [hpc]
    · rwa [Machine.drop_of_positions hload honce hpos htarget]

theorem Ahead.not_ret {program rest : List Op} : ¬Ahead program slot free (.ret :: rest) := by
  intro h
  cases h with
  | next _ hret => exact hret rfl

/-- An operation that lies ahead of a read is there. -/
theorem Ahead.exists_op {pc : Nat} (h : Ahead p.ops slot free (p.ops.drop pc)) : ∃ o, p.ops[pc]? = some o := by
  rcases Nat.lt_or_ge pc p.ops.length with hlt | hge
  · exact ⟨_, List.getElem?_eq_getElem hlt⟩
  · rw [List.drop_eq_nil_of_le hge] at h
    cases h

/-- Behind a test the program goes on. -/
theorem Program.exists_op_of_tests (hload : Machine.load limits p = .ok m) {ops : List Op}
    (hops : p.ops = ops ++ [Op.ret]) {s s' : Machine.State} {w w' : σ} {o : Op} (hop : p.ops[s.pc]? = some o)
    (htest : p.tests s.pc = true)
    (hstep : m.step host o s w = (.ok (.running s'), w')) : ∃ o', p.ops[s'.pc]? = some o' := by
  rcases (Machine.step_running hstep).2 with ⟨hpc, -⟩ | ⟨l, -, hpos⟩
  · -- the last operation is no test
    have hlt : s.pc < ops.length := by
      by_contra hge
      have hlt := (List.getElem?_eq_some_iff.mp hop).1
      rw [hops, List.length_append, List.length_singleton] at hlt
      have hend : s.pc = ops.length := by omega
      simp [Program.tests, hops, hend, Op.isTest] at htest
    refine ⟨_, List.getElem?_eq_getElem ?_⟩
    rw [hpc, hops, List.length_append, List.length_singleton]
    omega
  · exact ⟨_, (Machine.positions_of_load hload).2 l _ hpos⟩

/-- A run that does not fault gets to a read that lies ahead, or is led away
    from it by a test that is not one of the next `free` ones. -/
theorem Ahead.run (hload : Machine.load limits p = .ok m) (honce : (p.ops.filterMap Op.defines?).Nodup)
    {ops : List Op} (hops : p.ops = ops ++ [Op.ret]) {left : Nat} {s : Machine.State} {w w' : σ} {outcome : Outcome}
    (hrun : m.run host left s w = (.ok outcome, w')) (h : Ahead p.ops slot free (p.ops.drop s.pc)) :
    p.Reads slot (m.executed host left s w) ∨ p.Diverted slot free (m.executed host left s w) := by
  have hcode (i : Nat) : m.code[i]? = p.ops[i]? := by simp [(Machine.positions_of_load hload).1]
  induction left generalizing s w free with
  | zero =>
    obtain ⟨o, hop⟩ := h.exists_op
    simp [Machine.run, hcode, hop] at hrun
  | succ left ih =>
    obtain ⟨o, hop⟩ := h.exists_op
    simp only [Machine.run, hcode, hop] at hrun
    simp only [Machine.executed, hcode, hop]
    rcases hstep : m.step host o s w with ⟨fault | ⟨s₁⟩ | ⟨s₁⟩, w₁⟩
    · simp [hstep] at hrun
    · simp only [hstep] at hrun ⊢
      rcases h.step hload honce hop hstep with ⟨ty, rfl⟩ | ⟨hstores, hnext | ⟨htest, hnext⟩⟩
      · exact .inl ⟨[], s.pc, _, rfl, ⟨ty, hop⟩, by simp⟩
      · obtain ⟨htest, hnext⟩ := hnext
        refine (ih hrun hnext).imp (·.cons hop hstores) fun hdiverted => ?_
        simpa [htest] using hdiverted.cons hop hstores
      · rcases hnext with rfl | ⟨free', rfl, hnext⟩
        · by_cases hahead : Ahead p.ops slot 0 (p.ops.drop s₁.pc)
          · refine (ih hrun hahead).imp (·.cons hop hstores) fun hdiverted => ?_
            obtain ⟨between, test, next, rest, htrace, -, hrest⟩ := hdiverted.cons hop hstores
            exact ⟨between, test, next, rest, htrace, Nat.zero_le _, hrest⟩
          · -- this is the test that decides, and the run goes on behind it
            obtain ⟨o', hop'⟩ := Program.exists_op_of_tests hload hops hop htest hstep
            have hnext : ∃ rest, m.executed host left s₁ w₁ = s₁.pc :: rest := by
              cases left with
              | zero => simp [Machine.run, hcode, hop'] at hrun
              | succ left =>
                simp only [Machine.executed, hcode, hop']
                exact ⟨_, rfl⟩
            obtain ⟨rest, hrest⟩ := hnext
            exact .inr ⟨[], s.pc, s₁.pc, rest, by rw [hrest]; rfl, Nat.zero_le _, htest, by simp, h, hahead⟩
        · refine (ih hrun hnext).imp (·.cons hop hstores) fun hdiverted => ?_
          simpa [htest] using hdiverted.cons hop hstores
    · -- a run ends only at a `return`, and no read lies ahead there
      obtain ⟨hlt, hget⟩ := List.getElem?_eq_some_iff.mp hop
      rw [List.drop_eq_getElem_cons hlt, hget, (Machine.step_halted hstep).1] at h
      exact absurd h not_ret

theorem Machine.pc_eq_of_executed {left pc : Nat} {s : State} {w : σ} {rest : List Nat}
    (h : m.executed host left s w = pc :: rest) : s.pc = pc := by
  cases left with
  | zero => simp [executed] at h
  | succ left =>
    rw [executed] at h
    split at h
    · cases h
    · exact (List.cons.inj h).1

/-- A run can be taken up at each operation that it executes. -/
theorem Machine.exists_run_of_executed {left : Nat} {s : State} {w w' : σ} {outcome : Outcome}
    (hrun : m.run host left s w = (.ok outcome, w')) {past rest : List Nat} {pc : Nat}
    (h : m.executed host left s w = past ++ pc :: rest) : ∃ (left' : Nat) (s' : State) (v : σ), s'.pc = pc ∧
      m.run host (left' + 1) s' v = (.ok outcome, w') ∧ m.executed host (left' + 1) s' v = pc :: rest := by
  induction past generalizing left s w with
  | nil =>
    cases left with
    | zero => simp [executed] at h
    | succ left => exact ⟨left, s, w, pc_eq_of_executed h, hrun, h⟩
  | cons first past ih =>
    cases left with
    | zero => simp [executed] at h
    | succ left =>
      rw [run] at hrun
      rw [executed] at h
      cases hop : m.code[s.pc]? with
      | none => simp [hop] at h
      | some o =>
        simp only [hop] at h hrun
        -- one operation less lies before the place, and the run goes on from the next state
        have h := (List.cons.inj h).2
        rcases hstep : m.step host o s w with ⟨fault | ⟨s₁⟩ | ⟨s₁⟩, w₁⟩
        · simp [hstep] at h
        · simp only [hstep] at h hrun
          exact ih hrun h
        · simp [hstep] at h

/-- Behind an executed store that has a read ahead of it. -/
theorem Program.reads_or_diverted (honce : (p.ops.filterMap Op.defines?).Nodup) {ops : List Op}
    (hops : p.ops = ops ++ [Op.ret]) {w w' : σ} {outcome : Outcome} (hrun : p.run limits host w = (.ok outcome, w'))
    {past rest : List Nat} {pc : Nat} (htrace : p.executed limits host w = past ++ pc :: rest) {ty : Ty}
    (hop : p.ops[pc]? = some (.store slot ty)) (h : Ahead p.ops slot free (p.ops.drop (pc + 1))) :
    p.Reads slot rest ∨ p.Diverted slot free rest := by
  unfold Program.run at hrun
  unfold Program.executed at htrace
  cases hload : Machine.load limits p with
  | error fault => simp [hload] at hrun
  | ok m =>
    simp only [hload] at hrun htrace
    have hcode : m.code[pc]? = p.ops[pc]? := by simp [(Machine.positions_of_load hload).1]
    obtain ⟨left, s, v, rfl, hrun, htrace⟩ := Machine.exists_run_of_executed hrun htrace
    simp only [Machine.run, hcode, hop] at hrun
    simp only [Machine.executed, hcode, hop] at htrace
    rcases hstep : m.step host (.store slot ty) s v with ⟨fault | ⟨s₁⟩ | ⟨s₁⟩, w₁⟩
    · simp [hstep] at hrun
    · simp only [hstep] at hrun htrace
      rw [← (List.cons.inj htrace).2]
      refine Ahead.run hload honce hops hrun ?_
      rcases (Machine.step_running hstep).2 with ⟨hpc, -⟩ | ⟨l, hl, -⟩
      · rwa [hpc]
      · cases hl
    · cases (Machine.step_halted hstep).1

/-- A run comes to an operation from the one in front of it, unless the
    operation is a label. -/
theorem Program.prev_of_executed {w w' : σ} {outcome : Outcome} (hrun : p.run limits host w = (.ok outcome, w'))
    {past rest : List Nat} {i : Nat} {o : Op} (htrace : p.executed limits host w = past ++ (i + 1) :: rest)
    (hop : p.ops[i + 1]? = some o) (ho : o.defines? = none) : ∃ past', past = past' ++ [i] := by
  unfold Program.run at hrun
  unfold Program.executed at htrace
  cases hload : Machine.load limits p with
  | error fault => simp [hload] at hrun
  | ok m =>
    simp only [hload] at hrun htrace
    obtain ⟨hcode, hpositions⟩ := Machine.positions_of_load hload
    rcases List.eq_nil_or_concat past with rfl | ⟨past', j, rfl⟩
    · -- a run starts at the first operation
      cases Machine.pc_eq_of_executed htrace
    · rw [List.concat_eq_append] at htrace ⊢
      rw [List.append_assoc, List.singleton_append] at htrace
      obtain ⟨left, s, v, rfl, hrun, htrace⟩ := Machine.exists_run_of_executed hrun htrace
      rw [Machine.executed] at htrace
      cases hop' : m.code[s.pc]? with
      | none => simp [hop'] at htrace
      | some o' =>
        simp only [hop'] at htrace
        have htrace := (List.cons.inj htrace).2
        rcases hstep : m.step host o' s v with ⟨fault | ⟨s₁⟩ | ⟨s₁⟩, w₁⟩
        · simp [hstep] at htrace
        · simp only [hstep] at htrace
          have hpc₁ := Machine.pc_eq_of_executed htrace
          rcases (Machine.step_running hstep).2 with ⟨hpc, -⟩ | ⟨l, -, hpos⟩
          · exact ⟨past', by rw [show s.pc = i by omega]⟩
          · -- a jump leads to a label
            have hlabel := hpositions l _ hpos
            rw [hpc₁, hop] at hlabel
            cases hlabel
            cases ho
        · simp [hstep] at htrace

end

/-! ## Stores of a program -/

namespace Draft

/-- Where the code of a program stores a shared value, the value stays on the
    stack, or a read of it lies ahead whichever way the next test goes. -/
theorem Complete.dup_or_ahead {d : Draft} {body : Code} (h : d.Complete body) (hbody : body.OnlyCasts)
    (hd : d.OnlyCasts) {id : SharedId} {slot : Nat} (hat : (d.layout body).draft.At (.shared id) slot) {pc : Nat}
    (hpc : (d.layout body).draft.prologue.length ≤ pc) {ty : Ty}
    (hop : (d.finish body).program.ops[pc]? = some (.store slot ty)) :
    (∃ i, pc = i + 1 ∧ (d.finish body).program.ops[i]? = some .dup) ∨
      Ahead (d.finish body).program.ops slot 1 ((d.finish body).program.ops.drop (pc + 1)) := by
  have hforeseen := h.foreseen hbody hd hat
  obtain ⟨i, rfl⟩ := Nat.exists_eq_add_of_le hpc
  rw [finish_ops, List.append_assoc] at hop hforeseen ⊢
  rw [List.getElem?_append_right hpc, Nat.add_sub_cancel_left] at hop
  -- behind the code there is only the return, so the store is in the code
  have hi : i < (d.layout body).ops.length := by
    by_contra hge
    rw [List.getElem?_append_right (Nat.not_lt.mp hge)] at hop
    simpa using List.mem_of_getElem? hop
  rw [List.getElem?_append_left hi] at hop
  obtain ⟨_, hget⟩ := List.getElem?_eq_some_iff.mp hop
  -- the code around this store, as what is foreseen speaks of it
  have hsplit : (d.layout body).ops = (d.layout body).ops.take i ++ .store slot ty :: (d.layout body).ops.drop (i + 1) := by
    rw [← hget, ← List.drop_eq_getElem_cons hi, List.take_append_drop]
  rcases hforeseen _ ty _ hsplit with ⟨front, hfront⟩ | hahead
  · left
    have hlength : front.length + 1 = i := by
      simpa [Nat.min_eq_left (Nat.le_of_lt hi)] using (congrArg List.length hfront).symm
    refine ⟨(d.layout body).draft.prologue.length + front.length, by omega, ?_⟩
    rw [List.getElem?_append_right (Nat.le_add_right _ _), Nat.add_sub_cancel_left, hsplit, hfront]
    simp
  · right
    rw [Nat.add_assoc, ← List.drop_drop, List.drop_left, List.drop_append_of_le_length (by omega)]
    exact hahead

end Draft

namespace Graph

/-- In every run of a compiled graph that ends without a fault, whenever the
    code stores a shared output, the value was copied for the use in place, or
    it was computed ahead. In the second case a read of it can be reached
    whichever way the next test goes, and the run gets to a read before the
    slot is stored again, unless another test after the next one leads it away
    from all reads. -/
theorem compile_foresees {σ : Type} {g : Graph} {c : Compilation} (h : g.compile .standard = .ok c) :
    ∃ body draft, g.walk .standard = .ok (body, draft) ∧ c = draft.finish body ∧
      ∀ (p : Port) (slot : Nat), draft.SharedAt body p slot →
      ∀ (limits : Limits) (host : Host σ) (w : σ) (outcome : Outcome) (w' : σ),
        c.program.run limits host w = (.ok outcome, w') →
      ∀ (past : List Nat) (pc : Nat) (rest : List Nat) (ty : Ty),
        c.program.executed limits host w = past ++ pc :: rest → (draft.layout body).draft.prologue.length ≤ pc →
        c.program.ops[pc]? = some (.store slot ty) →
        (∃ past' i, past = past' ++ [i] ∧ pc = i + 1 ∧ c.program.ops[i]? = some .dup) ∨
        Ahead c.program.ops slot 1 (c.program.ops.drop (pc + 1)) ∧
          (c.program.Reads slot rest ∨ c.program.Diverted slot 1 rest) := by
  obtain ⟨body, draft, hwalk, rfl⟩ := compile_eq_ok h
  obtain ⟨log, hwalked⟩ := exists_walk_of_walk hwalk
  have hcomplete := hwalked.complete
  obtain ⟨hbody, hdraft⟩ := hwalked.onlyCasts
  refine ⟨body, draft, hwalk, rfl, ?_⟩
  rintro p slot ⟨id, -, hat⟩ limits host w outcome w' hrun past pc rest ty htrace hpc hop
  rcases hcomplete.dup_or_ahead hbody hdraft hat hpc hop with ⟨i, rfl, hdup⟩ | hahead
  · obtain ⟨past', rfl⟩ := Program.prev_of_executed hrun htrace hop rfl
    exact .inl ⟨past', i, rfl, rfl, hdup⟩
  · have hlabelled := hcomplete.lays.labelled_program hcomplete.prepared.1.toReserved ⟨_, hcomplete.prepared.2.1⟩
    exact .inr ⟨hahead, Program.reads_or_diverted hlabelled.spread.once rfl hrun htrace hop hahead⟩

/-- A choice inside a choice. A number that the host is asked for is shown by
    one arm of each. -/
def choices : Graph where
  nodes := [some ⟨"start", [], none⟩, some ⟨"if", [], none⟩, some ⟨"emit:number", [], some "first"⟩,
    some ⟨"if", [], none⟩, some ⟨"emit:number", [], some "second"⟩, some ⟨"query:number", [], some "ask"⟩]
  wires := [⟨⟨0, 0⟩, ⟨1, 0⟩⟩, ⟨⟨1, 0⟩, ⟨2, 0⟩⟩, ⟨⟨1, 1⟩, ⟨3, 0⟩⟩, ⟨⟨3, 0⟩, ⟨4, 0⟩⟩, ⟨⟨5, 0⟩, ⟨2, 1⟩⟩,
    ⟨⟨5, 0⟩, ⟨4, 1⟩⟩]
  entry := some 0

/-- The program of the choices. The number is asked for in front of the test
    of the outer one. -/
def choicesProgram : Program where
  ops := [.const (.number .zero), .store 0 .double, .const (.boolean false), .invoke "ask" 0 .double,
    .store 0 .double, .jumpUnless 0, .load 0 .double, .invoke "first" 1 .void, .jump 1, .label 0,
    .const (.boolean false), .jumpUnless 2, .load 0 .double, .invoke "second" 1 .void, .jump 3, .label 2,
    .label 3, .label 1, .ret]
  locals := 1

theorem compile_choices : choices.compile .standard = .ok ⟨choicesProgram, []⟩ := rfl

theorem walk_choices : ∃ body draft, choices.walk .standard = .ok (body, draft) ∧ draft.SharedAt body ⟨5, 0⟩ 0 ∧
    (draft.layout body).draft.prologue.length = 2 :=
  ⟨_, _, rfl, ⟨0, List.mem_cons_self, _, rfl, rfl⟩, rfl⟩

theorem executed_choices : choicesProgram.executed {} Script.host .empty =
    [0, 1, 2, 3] ++ 4 :: [5, 9, 10, 11, 15, 16, 17, 18] := by cbv

theorem run_choices : choicesProgram.run {} Script.host .empty =
    (.ok ⟨[], 13⟩, { Script.empty with calls := #[⟨"ask", []⟩] }) := by cbv

theorem compile_foresees_choices : choices.compile .standard = .ok ⟨choicesProgram, []⟩ ∧
    choicesProgram.run {} Script.host .empty =
      (.ok ⟨[], 13⟩, { Script.empty with calls := #[⟨"ask", []⟩] }) ∧
    Ahead choicesProgram.ops 0 1 (choicesProgram.ops.drop 5) ∧
      (choicesProgram.Reads 0 [5, 9, 10, 11, 15, 16, 17, 18] ∨
        choicesProgram.Diverted 0 1 [5, 9, 10, 11, 15, 16, 17, 18]) := by
  obtain ⟨body, draft, hwalk, -, hall⟩ := compile_foresees (σ := Script) compile_choices
  obtain ⟨body', draft', hwalk', hshared, hprologue⟩ := walk_choices
  cases hwalk.symm.trans hwalk'
  refine ⟨compile_choices, run_choices, ?_⟩
  have hstore : choicesProgram.ops[4]? = some (.store 0 .double) := rfl
  rcases hall ⟨5, 0⟩ 0 hshared {} Script.host .empty _ _ run_choices _ 4 _ .double executed_choices (by omega) hstore
    with ⟨-, i, -, hi, hdup⟩ | hahead
  · cases Nat.succ.inj hi
    cases hdup
  · exact hahead

/-- The number is asked for, and then no operation of the run reads it. -/
theorem choices_ask_in_vain : ∃ c body draft, choices.compile .standard = .ok c ∧
    choices.walk .standard = .ok (body, draft) ∧ c = draft.finish body ∧ draft.SharedAt body ⟨5, 0⟩ 0 ∧
    c.program.run {} Script.host .empty = (.ok ⟨[], 13⟩, { Script.empty with calls := #[⟨"ask", []⟩] }) ∧
    ∃ past rest, c.program.executed {} Script.host .empty = past ++ 4 :: rest ∧
      (draft.layout body).draft.prologue.length ≤ 4 ∧ c.program.ops[4]? = some (.store 0 .double) ∧
      c.program.ops[3]? = some (.invoke "ask" 0 .double) ∧
      ∀ pc ∈ rest, ∀ ty, c.program.ops[pc]? ≠ some (.load 0 ty) := by
  obtain ⟨body, draft, hwalk, hshared, hprologue⟩ := walk_choices
  obtain ⟨body', draft', hwalk', hfinish⟩ := compile_eq_ok compile_choices
  cases hwalk.symm.trans hwalk'
  exact ⟨_, body, draft, compile_choices, hwalk, hfinish, hshared, run_choices, _, _, executed_choices, by omega,
    rfl, rfl, by simp [choicesProgram]⟩

end Graph

end FlowGraph
