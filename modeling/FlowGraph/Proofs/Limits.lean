import FlowGraph.Proofs.Steps
import Mathlib

/-! # Larger limits

    The limits of the machine show only as faults that say so. A run that
    ends otherwise ends in the same way under larger limits, after as many
    steps, and with the same asked of the host. A run that ends because of a
    limit is cut short: what it has asked of the host by then is the first part
    of what is asked under larger limits.

    * `Machine.run_mono`: two machines that differ in their limits take the same
      steps, until the one with the smaller limits reaches one of them.
    * `Host.Goes` says what one step may do to the host. What a run does to it
      is a chain of those (`Machine.run_goes`), so a run that is cut short leaves
      the host where the longer one still comes through.

    Main statement: `Program.run_of_limits_le`.
-/

namespace FlowGraph

variable {σ α : Type}

/-- No limit exceeds its counterpart. -/
instance : LE Limits where
  le c c' := c.stack ≤ c'.stack ∧ c.locals ≤ c'.locals ∧ c.steps ≤ c'.steps

/-! ## Hosts that keep a record -/

/-- The host only adds to the record, whatever is asked of it. -/
def Host.Appends (host : Host σ) (record : σ → List α) : Prop := ∀ w w', host.Goes w w' → record w <+: record w'

theorem Host.Appends.chain {host : Host σ} {record : σ → List α} (h : host.Appends record) {w w' : σ}
    (hchain : Relation.ReflTransGen host.Goes w w') : record w <+: record w' := by
  induction hchain with
  | refl => exact List.prefix_rfl
  | tail _ hgoes ih => exact ih.trans (h _ _ hgoes)

theorem Host.appends_recorded (host : Host σ) : host.recorded.Appends Prod.snd := by
  intro w w' hgoes
  cases hgoes with
  | still => exact List.prefix_rfl
  | invoke target args returns => exact List.prefix_append _ _
  | readStatic owner name => exact List.prefix_append _ _

theorem Script.appends_calls : host.Appends fun s => s.calls.toList := by
  intro s s' hgoes
  cases hgoes with
  | still => exact List.prefix_rfl
  | invoke target args returns =>
    show s.calls.toList <+: (s.calls.push ⟨target, args⟩).toList
    rw [Array.toList_push]
    exact List.prefix_append _ _
  | readStatic owner name => exact List.prefix_rfl

/-! ## Runs -/

namespace Machine

variable {m m' : Machine} {host : Host σ} {o : Op} {s : State}

/-- A run ends with its first step, or goes on from where that leads. -/
theorem run_succ_cases (hop : m.code[s.pc]? = some o) (left : Nat) (w : σ) :
    (m.run host (left + 1) s w).2 = (m.step host o s w).2 ∨
      ∃ s₁, m.run host (left + 1) s w = m.run host left s₁ (m.step host o s w).2 := by
  rw [run]
  simp only [hop]
  rcases m.step host o s w with ⟨fault | ⟨s₁⟩ | ⟨s₁⟩, w₁⟩
  · exact .inl rfl
  · exact .inr ⟨s₁, rfl⟩
  · exact .inl rfl

/-- A run leaves the host where its operations lead. -/
theorem run_goes (m : Machine) (host : Host σ) (left : Nat) (s : State) (w : σ) :
    Relation.ReflTransGen host.Goes w (m.run host left s w).2 := by
  induction left generalizing s w with
  | zero =>
    rw [run]
    split <;> exact .refl
  | succ left ih =>
    cases hop : m.code[s.pc]? with
    | none =>
      rw [run]
      simp only [hop]
      exact .refl
    | some o =>
      have hfirst := m.step_goes host o s w
      rcases run_succ_cases hop left w with hend | ⟨s₁, hrest⟩
      · rw [hend]
        exact .single hfirst
      · rw [hrest]
        exact .head hfirst (ih s₁ _)

/-- Two machines with the same code. The one with larger limits ends as the
    other does, or that one reaches a limit, where the first goes on. -/
theorem run_mono (hcode : m'.code = m.code) (hpositions : m'.positions = m.positions)
    (hstack : m.limits.stack ≤ m'.limits.stack) (host : Host σ) {left left' : Nat} (hleft : left ≤ left') (s : State)
    (w : σ) : m'.run host left' s w = m.run host left s w ∨
      Limited (m.run host left s w) ∧
        Relation.ReflTransGen host.Goes (m.run host left s w).2 (m'.run host left' s w).2 := by
  induction left generalizing left' s w with
  | zero =>
    cases hop : m.code[s.pc]? with
    | none =>
      left
      cases left' <;> simp only [run, hcode, hop]
    | some o =>
      -- no step is left to the first machine
      right
      simp only [run, hop]
      exact ⟨⟨_, rfl, rfl⟩, m'.run_goes host left' s w⟩
  | succ left ih =>
    obtain ⟨left', rfl⟩ : ∃ n, left' = n + 1 := ⟨left' - 1, by omega⟩
    cases hop : m.code[s.pc]? with
    | none =>
      left
      simp only [run, hcode, hop]
    | some o =>
      have hop' : m'.code[s.pc]? = some o := by rw [hcode, hop]
      obtain ⟨hasked, hoverflow | hsame⟩ := step_mono hpositions hstack host o s w
      · -- the host has answered both alike before the stack overflows
        right
        have hstep : m.step host o s w = (.error (.stackOverflow m.limits.stack), (m.step host o s w).2) :=
          Prod.ext hoverflow rfl
        have hrun : m.run host (left + 1) s w = (.error (.stackOverflow m.limits.stack), (m.step host o s w).2) := by
          rw [run]
          simp only [hop]
          rw [hstep]
        rw [hrun, ← hasked]
        refine ⟨⟨_, rfl, rfl⟩, ?_⟩
        rcases run_succ_cases hop' left' w with hend | ⟨s₁, hrest⟩
        · rw [hend]
        · rw [hrest]
          exact m'.run_goes host left' s₁ _
      · have hstep : m'.step host o s w = m.step host o s w := Prod.ext hsame hasked
        simp only [run, hop, hop', hstep]
        rcases m.step host o s w with ⟨fault | ⟨s₁⟩ | ⟨s₁⟩, w₁⟩
        · exact .inl rfl
        · exact ih (by omega) s₁ w₁
        · exact .inl rfl

/-- Larger limits let more programs in, and change nothing else about a
    program that is loaded. -/
theorem load_mono {limits limits' : Limits} (h : limits ≤ limits') (p : Program) :
    load limits p = .error (.tooManyLocals p.locals limits.locals) ∨
      (∃ fault, load limits p = .error fault ∧ load limits' p = .error fault) ∨
      ∃ m m', load limits p = .ok m ∧ load limits' p = .ok m' ∧ m'.code = m.code ∧ m'.positions = m.positions ∧
        m'.start = m.start := by
  have hlocals : limits.locals ≤ limits'.locals := h.2.1
  by_cases hfits : limits.locals < p.locals
  · exact .inl (if_pos hfits)
  · right
    simp only [load, if_neg hfits, if_neg (show ¬limits'.locals < p.locals by omega)]
    cases p.positions with
    | error l => exact .inl ⟨_, rfl, rfl⟩
    | ok positions =>
      dsimp only
      cases p.undefinedLabel? positions with
      | some l => exact .inl ⟨_, rfl, rfl⟩
      | none => exact .inr ⟨_, _, rfl, rfl, rfl, rfl, rfl⟩

end Machine

/-! ## Programs -/

namespace Program

variable {limits limits' : Limits}

/-- A program ends under larger limits as it does under smaller ones, or it
    reaches one of those. -/
theorem run_mono (p : Program) (h : limits ≤ limits') (host : Host σ) (w : σ) :
    p.run limits' host w = p.run limits host w ∨
      Limited (p.run limits host w) ∧
        Relation.ReflTransGen host.Goes (p.run limits host w).2 (p.run limits' host w).2 := by
  unfold run
  rcases Machine.load_mono h p with hmany | ⟨fault, hload, hload'⟩ |
    ⟨m, m', hload, hload', hcode, hpositions, hstart⟩
  · right
    simp only [hmany]
    refine ⟨⟨_, rfl, rfl⟩, ?_⟩
    cases Machine.load limits' p with
    | error fault => exact .refl
    | ok m => exact m.run_goes host limits'.steps m.start w
  · left
    simp only [hload, hload']
  · simp only [hload, hload']
    have hstack : m.limits.stack ≤ m'.limits.stack := by
      rw [(Machine.of_load hload).1, (Machine.of_load hload').1]
      exact h.1
    rw [hstart]
    exact Machine.run_mono hcode hpositions hstack host h.2.2 m.start w

theorem asked_prefix (p : Program) (h : limits ≤ limits') (host : Host σ) (w : σ) :
    p.asked limits host w <+: p.asked limits' host w := by
  unfold asked
  rcases p.run_mono h host.recorded (w, []) with hsame | ⟨-, hchain⟩
  · rw [hsame]
  · exact host.appends_recorded.chain hchain

/-- Limits show only as faults that say so. Under larger limits a run that has
    no such fault has the same result, leaves the host in the same state and
    asks the same of it. Any other run asks for the first part of what is asked
    under larger limits, and a record of the host shows the first part of what
    it shows then. -/
theorem run_of_limits_le (p : Program) (h : limits ≤ limits') (host : Host σ) (w : σ) :
    (¬Limited (p.run limits host w) →
      p.run limits' host w = p.run limits host w ∧ p.asked limits' host w = p.asked limits host w) ∧
    p.asked limits host w <+: p.asked limits' host w ∧
    ∀ (α : Type) (record : σ → List α), host.Appends record →
      record (p.run limits host w).2 <+: record (p.run limits' host w).2 := by
  refine ⟨?_, p.asked_prefix h host w, ?_⟩
  · intro hfree
    constructor
    · rcases p.run_mono h host w with hsame | ⟨hlimited, -⟩
      · exact hsame
      · exact absurd hlimited hfree
    · -- being watched, the host does not change how the run ends
      obtain ⟨ops, hrecorded⟩ := p.run_recorded limits host w
      have hfree' : ¬Limited (p.run limits host.recorded (w, [])) := by
        rw [hrecorded]
        exact hfree
      unfold asked
      rcases p.run_mono h host.recorded (w, []) with hsame | ⟨hlimited, -⟩
      · rw [hsame]
      · exact absurd hlimited hfree'
  · intro α record hrecord
    rcases p.run_mono h host w with hsame | ⟨-, hchain⟩
    · rw [hsame]
    · exact hrecord.chain hchain

/-- Shows a number, then two null references at once. -/
def showing : Program where
  ops := [.const (.number .zero), .invoke "show" 1 .void, .const .null, .const .null, .invoke "show" 2 .void, .ret]
  locals := 0

theorem run_of_limits_le_showing :
    (⟨1, 0, 6⟩ : Limits) ≤ ⟨2, 0, 6⟩ ∧ (⟨2, 0, 6⟩ : Limits) ≤ {} ∧
    -- one value on the stack is too few, and two are enough
    showing.run ⟨1, 0, 6⟩ Script.host .empty =
      (.error (.stackOverflow 1), { Script.empty with calls := #[⟨"show", [.double .zero]⟩] }) ∧
    (showing.run ⟨1, 0, 6⟩ Script.host .empty).2.calls.toList <+:
      (showing.run ⟨2, 0, 6⟩ Script.host .empty).2.calls.toList ∧
    showing.asked ⟨1, 0, 6⟩ Script.host .empty <+: showing.asked ⟨2, 0, 6⟩ Script.host .empty ∧
    ¬Limited (showing.run ⟨2, 0, 6⟩ Script.host .empty) ∧
    showing.run {} Script.host .empty = showing.run ⟨2, 0, 6⟩ Script.host .empty ∧
    showing.asked {} Script.host .empty = showing.asked ⟨2, 0, 6⟩ Script.host .empty := by
  have hnarrow : (⟨1, 0, 6⟩ : Limits) ≤ ⟨2, 0, 6⟩ := ⟨by decide, by decide, by decide⟩
  have hwide : (⟨2, 0, 6⟩ : Limits) ≤ {} := ⟨by decide, by decide, by decide⟩
  have hresult : (showing.run ⟨2, 0, 6⟩ Script.host .empty).1 = .ok ⟨[], 6⟩ := by cbv
  have hfree : ¬Limited (showing.run ⟨2, 0, 6⟩ Script.host .empty) := by
    rintro ⟨fault, herror, -⟩
    rw [hresult] at herror
    cases herror
  obtain ⟨-, hasked, hrecord⟩ := showing.run_of_limits_le hnarrow Script.host .empty
  obtain ⟨hrun, hsame⟩ := (showing.run_of_limits_le hwide Script.host .empty).1 hfree
  exact ⟨hnarrow, hwide, by cbv, hrecord _ _ Script.appends_calls, hasked, hfree, hrun, hsame⟩

end Program

end FlowGraph
