import FlowGraph.Proofs.Flow
import FlowGraph.Proofs.Steps
import Mathlib

/-! # States that a run goes through

    A run takes one step after the other until the code ends, it returns, it
    faults, or it has taken as many steps as it may. `Machine.Reaches` and
    `Machine.Finishes` say so step by step, and nothing in them says that there
    is an end.

    * Each step keeps to the limits and to the code (`Machine.State.Keeps.step`),
      so all states that a run goes through do (`Machine.Reaches.keeps`).
    * There is always an end, one only, and it is the one that `Machine.run`
      gives (`Machine.exists_finishes`, `Machine.Finishes.run_eq`).

    Main statement: `Machine.run_invariants`.
-/

namespace FlowGraph

variable {σ : Type}

namespace Machine

/-- A run that starts with the host in the state `w` has executed `n`
    operations, has come so far, and has left the host in this state. -/
inductive Reaches (m : Machine) (host : Host σ) (w : σ) : Nat → Progress → σ → Prop
  | start : Reaches m host w 0 (.running m.start) w
  | step {n : Nat} {s : State} {o : Op} {progress : Progress} {w₁ w₂ : σ} :
    Reaches m host w n (.running s) w₁ → m.code[s.pc]? = some o → s.steps < m.limits.steps →
    m.step host o s w₁ = (.ok progress, w₂) → Reaches m host w (n + 1) progress w₂

/-- A run that starts with the host in the state `w` ends in this way, with
    `n` operations executed. -/
inductive Finishes (m : Machine) (host : Host σ) (w : σ) : Nat → Except Fault Outcome × σ → Prop
  | ended {n : Nat} {s : State} {w₁ : σ} : m.Reaches host w n (.running s) w₁ → m.code[s.pc]? = none →
    Finishes m host w n (.ok s.outcome, w₁)
  | halted {n : Nat} {s : State} {w₁ : σ} : m.Reaches host w n (.halted s) w₁ →
    Finishes m host w n (.ok s.outcome, w₁)
  | cut {n : Nat} {s : State} {o : Op} {w₁ : σ} : m.Reaches host w n (.running s) w₁ → m.code[s.pc]? = some o →
    m.limits.steps ≤ s.steps → Finishes m host w n (.error (.stepLimit m.limits.steps), w₁)
  | fault {n : Nat} {s : State} {o : Op} {fault : Fault} {w₁ w₂ : σ} : m.Reaches host w n (.running s) w₁ →
    m.code[s.pc]? = some o → s.steps < m.limits.steps → m.step host o s w₁ = (.error fault, w₂) →
    Finishes m host w (n + 1) (.error fault, w₂)

/-- The state keeps to the limits and to the code, with `n` operations
    executed. -/
structure State.Keeps (limits : Limits) (p : Program) (n : Nat) (s : State) : Prop where
  depth : s.frame.stack.values.length ≤ limits.stack
  size : s.frame.locals.size = p.locals
  pc : s.pc ≤ p.ops.length
  counted : s.steps = n
  steps : n ≤ limits.steps

variable {m : Machine} {limits : Limits} {p : Program} {host : Host σ} {w w₁ w₂ : σ} {n : Nat} {o : Op} {s : State}
  {progress : Progress}

/-! ## What a step keeps -/

/-- A step counts one. It stays or leads to the next operation, unless it
    leads to where a label is found. -/
theorem step_pc (hstep : m.step host o s w = (.ok progress, w₁)) :
    progress.state.steps = s.steps + 1 ∧
      (progress.state.pc ≤ s.pc + 1 ∨ ∃ l : Label, m.positions[l]? = some progress.state.pc) := by
  cases progress with
  | running s' =>
    obtain ⟨hsteps, ⟨hpc, -⟩ | ⟨l, -, hposition⟩⟩ := step_running hstep
    · exact ⟨hsteps, .inl (Nat.le_of_eq hpc)⟩
    · exact ⟨hsteps, .inr ⟨l, hposition⟩⟩
  | halted s' =>
    obtain ⟨rfl, hsteps⟩ := step_halted hstep
    refine ⟨hsteps, .inl ?_⟩
    cases hstep
    exact Nat.le_succ s.pc

/-- A step keeps to the limits and to the code. -/
theorem State.Keeps.step (h : s.Keeps limits p n) (hload : load limits p = .ok m) (hop : m.code[s.pc]? = some o)
    (hleft : s.steps < m.limits.steps) (hstep : m.step host o s w = (.ok progress, w₁)) :
    progress.state.Keeps limits p (n + 1) := by
  obtain ⟨hlimits, -, hcode, -⟩ := of_load hload
  obtain ⟨-, hlabels⟩ := positions_of_load hload
  have hdepth : s.frame.stack.depth ≤ m.limits.stack := by
    rw [s.frame.stack.depth_eq, hlimits]
    exact h.depth
  obtain ⟨hdepth', hsize⟩ := step_frame hstep hdepth
  obtain ⟨hsteps, hpc⟩ := step_pc hstep
  rw [hlimits] at hdepth' hleft
  constructor
  · rw [← progress.state.frame.stack.depth_eq]
    exact hdepth'
  · rw [hsize, h.size]
  · -- the operation after one of the program, or the definition of a label
    have hat : s.pc < p.ops.length := by
      rw [hcode, List.getElem?_toArray] at hop
      exact (List.getElem?_eq_some_iff.mp hop).1
    rcases hpc with hpc | ⟨l, hposition⟩
    · omega
    · exact Nat.le_of_lt (List.getElem?_eq_some_iff.mp (hlabels l _ hposition)).1
  · rw [hsteps, h.counted]
  · have := h.counted
    omega

/-- A jump leads to the one place where its label is defined. -/
theorem step_goto (hload : load limits p = .ok m) (hop : p.ops[s.pc]? = some o) {l : Label} {f : Frame}
    (heffect : o.effect limits.stack s.frame = .ok (.goto l f)) (host : Host σ) (w : σ) :
    ∃ i, p.ops[i]? = some (.label l) ∧ (∀ j : Nat, p.ops[j]? = some (.label l) → j = i) ∧
      m.step host o s w = (.ok (.running ⟨i, s.steps + 1, f⟩), w) := by
  obtain ⟨hlimits, -, hcode, -⟩ := of_load hload
  obtain ⟨i, hi⟩ := exists_position_of_load hload (List.mem_of_getElem? hop) (Op.effect_goto heffect)
  refine ⟨i, (positions_of_load hload).2 l i hi, ?_, ?_⟩
  · intro j hj
    have hfound : m.positions[l]? = some j := sound_of_load hload j l (by rw [hcode, List.getElem?_toArray, hj])
    rw [hi] at hfound
    exact (Option.some.inj hfound).symm
  · simp only [Machine.step, hlimits, heffect, hi]

/-! ## What a run keeps -/

theorem keeps_start (hload : load limits p = .ok m) : m.start.Keeps limits p 0 := by
  obtain ⟨-, hprogram, -⟩ := of_load hload
  refine ⟨Nat.zero_le _, ?_, Nat.zero_le _, rfl, Nat.zero_le _⟩
  rw [← hprogram]
  exact Array.size_replicate

/-- So does every state that a run goes through. -/
theorem Reaches.keeps (hload : load limits p = .ok m) (h : m.Reaches host w n progress w₁) :
    progress.state.Keeps limits p n := by
  induction h with
  | start => exact keeps_start hload
  | step _ hop hleft hstep ih => exact ih.step hload hop hleft hstep

/-! ## How a run ends -/

/-- What is left of a run. -/
def rest (m : Machine) (host : Host σ) (left : Nat) : Progress → σ → Except Fault Outcome × σ
  | .running s, w => m.run host left s w
  | .halted s, w => (.ok s.outcome, w)

theorem run_eq_rest (hop : m.code[s.pc]? = some o) (hstep : m.step host o s w = (.ok progress, w₁)) (left : Nat) :
    m.run host (left + 1) s w = m.rest host left progress w₁ := by
  rw [run]
  simp only [hop, hstep]
  cases progress <;> rfl

/-- A run goes on from where it has come to. -/
theorem Reaches.run_eq (hload : load limits p = .ok m) (h : m.Reaches host w n progress w₁) :
    m.run host limits.steps m.start w = m.rest host (limits.steps - n) progress w₁ := by
  obtain ⟨hlimits, -⟩ := of_load hload
  induction h with
  | start => rfl
  | @step n s o progress w₁ w₂ h hop hleft hstep ih =>
    have hcounted : s.steps = n := (h.keeps hload).counted
    rw [hlimits] at hleft
    obtain ⟨left, hsucc⟩ : ∃ left, limits.steps - n = left + 1 := ⟨limits.steps - n - 1, by omega⟩
    rw [ih, hsucc, show limits.steps - (n + 1) = left by omega]
    exact run_eq_rest hop hstep left

/-- There is only one end, and it comes in time. -/
theorem Finishes.run_eq (hload : load limits p = .ok m) {r : Except Fault Outcome × σ} (h : m.Finishes host w n r) :
    n ≤ limits.steps ∧ r = m.run host limits.steps m.start w := by
  obtain ⟨hlimits, -⟩ := of_load hload
  cases h with
  | ended h hop =>
    refine ⟨(h.keeps hload).steps, ?_⟩
    rw [h.run_eq hload, rest]
    cases limits.steps - n <;> simp only [run, hop]
  | halted h =>
    refine ⟨(h.keeps hload).steps, ?_⟩
    rw [h.run_eq hload]
    rfl
  | @cut n s o w₁ h hop hleft =>
    -- as many operations are executed as may be
    have hcounted : s.steps = n := (h.keeps hload).counted
    rw [hlimits] at hleft
    refine ⟨(h.keeps hload).steps, ?_⟩
    rw [h.run_eq hload, show limits.steps - n = 0 by omega, rest]
    simp only [run, hop]
  | @fault n s o fault w₁ w₂ h hop hleft hstep =>
    have hcounted : s.steps = n := (h.keeps hload).counted
    rw [hlimits] at hleft
    refine ⟨by omega, ?_⟩
    obtain ⟨left, hsucc⟩ : ∃ left, limits.steps - n = left + 1 := ⟨limits.steps - n - 1, by omega⟩
    rw [h.run_eq hload, hsucc, rest]
    simp only [run, hop, hstep]

/-- There is an end. Each step leaves fewer steps to take, so this goes by
    induction on how many are left. -/
theorem exists_finishes (hload : load limits p = .ok m) (host : Host σ) (w : σ) :
    ∃ n, m.Finishes host w n (m.run host limits.steps m.start w) := by
  obtain ⟨hlimits, -⟩ := of_load hload
  -- the steps taken and the steps left make up the limit at every state on the way
  have hends (left : Nat) : ∀ (n : Nat) (s : State) (w₁ : σ), m.Reaches host w n (.running s) w₁ →
      n + left = limits.steps → ∃ k, m.Finishes host w k (m.run host left s w₁) := by
    induction left with
    | zero =>
      intro n s w₁ h hsum
      have hcounted : s.steps = n := (h.keeps hload).counted
      have hnone : m.limits.steps ≤ s.steps := by
        rw [hlimits]
        omega
      rw [run]
      cases hop : m.code[s.pc]? with
      | none => exact ⟨n, .ended h hop⟩
      | some o => exact ⟨n, .cut h hop hnone⟩
    | succ left ih =>
      intro n s w₁ h hsum
      have hcounted : s.steps = n := (h.keeps hload).counted
      have hleft : s.steps < m.limits.steps := by
        rw [hlimits]
        omega
      rw [run]
      cases hop : m.code[s.pc]? with
      | none => exact ⟨n, .ended h hop⟩
      | some o =>
        rcases hstep : m.step host o s w₁ with ⟨fault | ⟨s₁⟩ | ⟨s₁⟩, w₂⟩ <;> simp only [hstep]
        · exact ⟨n + 1, .fault h hop hleft hstep⟩
        · exact ih (n + 1) s₁ w₂ (.step h hop hleft hstep) (by omega)
        · exact ⟨n + 1, .halted (.step h hop hleft hstep)⟩
  exact hends limits.steps 0 m.start w .start (Nat.zero_add _)

theorem Finishes.outcome_le (hload : load limits p = .ok m) {outcome : Outcome}
    (h : m.Finishes host w n (.ok outcome, w₁)) :
    outcome.steps ≤ limits.steps ∧ outcome.stack.length ≤ limits.stack := by
  -- the outcome tells of the last state
  have hlast {s : State} (hkeeps : s.Keeps limits p n) :
      s.outcome.steps ≤ limits.steps ∧ s.outcome.stack.length ≤ limits.stack := by
    constructor
    · exact Nat.le_trans (Nat.le_of_eq hkeeps.counted) hkeeps.steps
    · simpa [State.outcome] using hkeeps.depth
  cases h with
  | ended h _ => exact hlast (h.keeps hload)
  | halted h => exact hlast (h.keeps hload)

/-- A fault that says that a program cannot be loaded comes from the host. -/
theorem Finishes.raises (hload : load limits p = .ok m) {fault : Fault} (h : m.Finishes host w n (.error fault, w₁))
    (hrefusal : fault.isRefusal = true) :
    host.Raises (fun w' => ∃ k s, m.Reaches host w k (.running s) w') fault w₁ := by
  obtain ⟨-, -, hcode, -⟩ := of_load hload
  cases h with
  | cut => cases hrefusal
  | @fault n s o fault w₂ _ h hop _ hstep =>
    rcases step_error hstep with rfl | hcause
    · cases hrefusal
    · cases hcause with
      | misfit hmisfit => cases fault <;> simp_all [Fault.isMisfit, Fault.isRefusal]
      | label hl hnone _ =>
        -- every label is found
        rw [hcode, List.getElem?_toArray] at hop
        obtain ⟨i, hi⟩ := exists_position_of_load hload (List.mem_of_getElem? hop) hl
        rw [hi] at hnone
        cases hnone
      | host hraises =>
        refine hraises.mono ?_
        rintro _ rfl
        exact ⟨n, s, h⟩

theorem Reaches.recalls {s : σ × List HostOp} (h : m.Reaches host.recorded (w, []) n progress s) :
    host.Recalls w s := by
  induction h with
  | start => rfl
  | @step n s o progress w₁ w₂ _ _ _ hstep ih =>
    have hgoes := m.step_goes host.recorded o s w₁
    rw [hstep] at hgoes
    exact ih.goes hgoes

/-- Without the record, the same states are reached. -/
theorem Reaches.unrecorded {s : σ × List HostOp} (h : m.Reaches host.recorded (w, []) n progress s) :
    m.Reaches host w n progress s.1 := by
  induction h with
  | start => exact .start
  | @step n s o progress w₁ w₂ _ hop hleft hstep ih =>
    have hsame : (m.step host o s w₁.1).1 = (m.step host.recorded o s w₁).1 ∧
        (m.step host.recorded o s w₁).2.1 = (m.step host o s w₁.1).2 :=
      step_related host.related_recorded m o s rfl
    rw [hstep] at hsame
    exact .step ih hop hleft (Prod.ext hsame.1 hsame.2.symm)

/-- A run of a loaded program. Every state that it goes through keeps to the
    limits and to the code, and a jump leads to the one place where its label is
    defined. It comes to an end, one only, before it has executed more
    operations than it may. It leaves no larger stack than it may. It fails like
    a program that cannot be loaded only if the last operation that it asks of
    the host fails so. -/
theorem run_invariants (hload : load limits p = .ok m) (host : Host σ) (w : σ) :
    (∀ n progress w₁, m.Reaches host w n progress w₁ → progress.state.Keeps limits p n) ∧
    (∀ n s w₁ o l f, m.Reaches host w n (.running s) w₁ → p.ops[s.pc]? = some o →
      o.effect limits.stack s.frame = .ok (.goto l f) →
      ∃ i, p.ops[i]? = some (.label l) ∧ (∀ j : Nat, p.ops[j]? = some (.label l) → j = i) ∧
        m.step host o s w₁ = (.ok (.running ⟨i, s.steps + 1, f⟩), w₁)) ∧
    (∃ n, m.Finishes host w n (p.run limits host w)) ∧
    (∀ n r, m.Finishes host w n r → n ≤ limits.steps ∧ r = p.run limits host w) ∧
    (∀ outcome, (p.run limits host w).1 = .ok outcome →
      outcome.steps ≤ limits.steps ∧ outcome.stack.length ≤ limits.stack) ∧
    ∀ fault, (p.run limits host w).1 = .error fault → fault.isRefusal = true →
      host.Fails (fun w₁ => ∃ n s, m.Reaches host w n (.running s) w₁) (p.asked limits host w) w fault
        (p.run limits host w).2 := by
  have hrun {τ : Type} (host : Host τ) (w : τ) : p.run limits host w = m.run host limits.steps m.start w := by
    unfold Program.run
    rw [hload]
  obtain ⟨n, hends⟩ := exists_finishes hload host w
  rw [← hrun] at hends
  refine ⟨?_, ?_, ⟨n, hends⟩, ?_, ?_, ?_⟩
  · intro n progress w₁ h
    exact h.keeps hload
  · intro n s w₁ o l f _ hop heffect
    exact step_goto hload hop heffect host w₁
  · intro n r h
    rw [hrun]
    exact h.run_eq hload
  · intro outcome hok
    have hends : m.Finishes host w n (.ok outcome, (p.run limits host w).2) := by
      rw [← hok]
      exact hends
    exact hends.outcome_le hload
  · -- the record of the host tells which operation it was
    intro fault herror hrefusal
    obtain ⟨k, hends⟩ := exists_finishes hload host.recorded (w, [])
    rw [← hrun, p.run_recorded_eq, herror] at hends
    refine ((hends.raises hload hrefusal).mono ?_).fails
    rintro _ ⟨k, s, hreaches⟩
    exact ⟨⟨k, s, hreaches.unrecorded⟩, hreaches.recalls⟩

/-- Jumps ahead and back, and then calls. -/
def detour : Program where
  ops := [.jump 4, .label 9, .invoke "ask" 0 .void, .ret, .label 4, .jump 9]
  locals := 1

/-- A host that answers every question with a fault about a label. -/
def stubborn : Host Unit where
  invoke _ _ _ w := (.error (.unknownLabel 7), w)
  readStatic _ _ w := (.error (.unknownLabel 7), w)

theorem run_invariants_detour : ∃ m, load ⟨0, 1, 6⟩ detour = .ok m ∧
    m.start.Keeps ⟨0, 1, 6⟩ detour 0 ∧
    (∃ i, detour.ops[i]? = some (.label 4) ∧ (∀ j : Nat, detour.ops[j]? = some (.label 4) → j = i) ∧
      m.step Script.host (.jump 4) m.start .empty = (.ok (.running ⟨i, 1, m.start.frame⟩), .empty)) ∧
    (∃ n ≤ 6, m.Finishes Script.host .empty n (.ok ⟨[], 6⟩, { Script.empty with calls := #[⟨"ask", []⟩] })) ∧
    detour.run ⟨0, 1, 6⟩ stubborn () = (.error (.unknownLabel 7), ()) ∧
    stubborn.Fails (fun w => ∃ n s, m.Reaches stubborn () n (.running s) w) (detour.asked ⟨0, 1, 6⟩ stubborn ()) ()
      (.unknownLabel 7) () := by
  have hrun : detour.run ⟨0, 1, 6⟩ Script.host .empty =
      (.ok ⟨[], 6⟩, { Script.empty with calls := #[⟨"ask", []⟩] }) := by cbv
  have hfails : detour.run ⟨0, 1, 6⟩ stubborn () = (.error (.unknownLabel 7), ()) := by cbv
  obtain ⟨m, hload⟩ := exists_load_of_run (congrArg Prod.fst hrun)
  obtain ⟨hkeeps, hjumps, ⟨n, hends⟩, honly, -, -⟩ := run_invariants hload Script.host .empty
  obtain ⟨-, -, -, -, -, hraises⟩ := run_invariants hload stubborn ()
  rw [hfails] at hraises
  refine ⟨m, hload, hkeeps 0 _ _ .start, hjumps 0 _ _ _ 4 _ .start rfl rfl, ?_, hfails, hraises _ rfl rfl⟩
  rw [hrun] at hends
  exact ⟨n, (honly n _ hends).1, hends⟩

end Machine

end FlowGraph
