import FlowGraph.Proofs.Flow
import FlowGraph.Proofs.Steps

/-! # Runs that go ahead

    Where every jump leads ahead, so does every step. A run then executes
    operations at positions that grow, so it executes none of them twice, and
    with a step for each operation it never lacks one. No operation has that
    fault by itself, only a host may raise it (`Machine.raises_of_step`).

    Main statements: `Machine.JumpsAhead.executed` and `Machine.JumpsAhead.run`.
-/

namespace FlowGraph

namespace Machine

variable {σ : Type} {m : Machine} {host : Host σ}

/-- A step that fails for lack of steps has asked the host, which says so. -/
theorem raises_of_step {op : Op} {s : State} {w w' : σ} {n : Nat}
    (h : m.step host op s w = (.error (.stepLimit n), w')) : host.Raises (· = w) (.stepLimit n) w' := by
  rcases step_error h with hoverflow | hcause
  · cases hoverflow
  · cases hcause with
    | misfit hmisfit => cases hmisfit
    | label _ _ hlabel => cases hlabel
    | host hraises => exact hraises

/-- Every jump leads ahead. -/
def JumpsAhead (m : Machine) : Prop :=
  ∀ (i : Nat) (o : Op) (l : Label) (j : Nat), m.code[i]? = some o → o.references? = some l →
    m.positions[l]? = some j → i < j

namespace JumpsAhead

/-- So does every step. -/
theorem pc_lt (h : m.JumpsAhead) {op : Op} {s s' : State} {w w' : σ} (hop : m.code[s.pc]? = some op)
    (hstep : m.step host op s w = (.ok (.running s'), w')) : s.pc < s'.pc := by
  rcases (step_running hstep).2 with ⟨hpc, -⟩ | ⟨l, href, hposition⟩
  · rw [hpc]
    exact Nat.lt_succ_self _
  · exact h s.pc op l s'.pc hop href hposition

/-- A run executes operations at positions that grow, from where it stands. -/
theorem executed (h : m.JumpsAhead) (host : Host σ) (left : Nat) (s : State) (w : σ) :
    (m.executed host left s w).Pairwise (· < ·) ∧ ∀ i ∈ m.executed host left s w, s.pc ≤ i ∧ i < m.code.size := by
  induction left generalizing s w with
  | zero => simp [Machine.executed]
  | succ left ih =>
    rw [Machine.executed]
    cases hop : m.code[s.pc]? with
    | none => simp
    | some op =>
      have hlt : s.pc < m.code.size := (Array.getElem?_eq_some_iff.mp hop).1
      rcases hstep : m.step host op s w with ⟨fault | ⟨s₁⟩ | ⟨s₁⟩, w₁⟩
      · simp [hstep, hlt]
      · -- what is executed later is at or behind the next position
        obtain ⟨hsorted, hbounds⟩ := ih s₁ w₁
        have hahead := h.pc_lt hop hstep
        simp only [hstep, List.pairwise_cons, List.forall_mem_cons]
        refine ⟨⟨fun i hi => ?_, hsorted⟩, ⟨Nat.le_refl _, hlt⟩, fun i hi => ?_⟩
        · exact Nat.lt_of_lt_of_le hahead (hbounds i hi).1
        · exact ⟨Nat.le_trans (Nat.le_of_lt hahead) (hbounds i hi).1, (hbounds i hi).2⟩
      · simp [hstep, hlt]

/-- With a step for each operation to come, a run lacks none. `I` is what is
    known of the states of the host on the way. -/
theorem run (h : m.JumpsAhead) {I : σ → Prop} (hI : ∀ w w', I w → host.Goes w w' → I w') {left : Nat} {s : State}
    {w w' : σ} {n : Nat} (hleft : m.code.size ≤ s.pc + left) (hw : I w)
    (hrun : m.run host left s w = (.error (.stepLimit n), w')) : host.Raises I (.stepLimit n) w' := by
  induction left generalizing s w with
  | zero =>
    -- it stands behind the last operation
    have hnone : m.code[s.pc]? = none := Array.getElem?_eq_none hleft
    simp [Machine.run, hnone] at hrun
  | succ left ih =>
    rw [Machine.run] at hrun
    cases hop : m.code[s.pc]? with
    | none => simp [hop] at hrun
    | some op =>
      simp only [hop] at hrun
      rcases hstep : m.step host op s w with ⟨fault | ⟨s₁⟩ | ⟨s₁⟩, w₁⟩
      · simp only [hstep] at hrun
        cases hrun
        refine (raises_of_step hstep).mono ?_
        rintro _ rfl
        exact hw
      · -- one step less is left, and at least one operation less
        simp only [hstep] at hrun
        have hahead := h.pc_lt hop hstep
        have hgoes := m.step_goes host op s w
        rw [hstep] at hgoes
        exact ih (by omega) (hI w w₁ hw hgoes) hrun
      · simp [hstep] at hrun

end JumpsAhead

end Machine

end FlowGraph
