import FlowGraph.Machine.Basic

/-! # Hosts that answer alike

    A program cannot tell two hosts apart that give the same answers, and
    leaves them in states that still answer alike (`Host.Related.run`).

    So a host may be watched: it answers as before, and every operation that
    is asked of it is recorded (`Host.recorded`). The record tells how the host
    got into its state (`Host.Recalls`), and so which operation has failed, if
    a run ends because of it (`Host.Fails`).
-/

namespace FlowGraph

variable {σ τ : Type}

/-- From related states the hosts give the same answers and go on to related
    states. -/
structure Host.Related (host : Host σ) (other : Host τ) (S : σ → τ → Prop) : Prop where
  invoke {w w'} (target : String) (args : List Value) (returns : Ty) : S w w' →
    (host.invoke target args returns w).1 = (other.invoke target args returns w').1 ∧
      S (host.invoke target args returns w).2 (other.invoke target args returns w').2
  readStatic {w w'} (owner name : String) : S w w' →
    (host.readStatic owner name w).1 = (other.readStatic owner name w').1 ∧
      S (host.readStatic owner name w).2 (other.readStatic owner name w').2

section

variable {host : Host σ} {other : Host τ} {S : σ → τ → Prop}

namespace Machine

theorem step_related (h : host.Related other S) (m : Machine) (op : Op) (s : State) {w : σ} {w' : τ}
    (hw : S w w') : (m.step host op s w).1 = (m.step other op s w').1 ∧
      S (m.step host op s w).2 (m.step other op s w').2 := by
  obtain ⟨pc, steps, f⟩ := s
  simp only [step]
  -- only a read and a call ask the host; all other effects leave its state alone
  rcases op.effect m.limits.stack f with fault | f | ⟨l, f⟩ | f | ⟨owner, name, ty, f⟩ |
    ⟨target, args, returns, f⟩
  · exact ⟨rfl, hw⟩
  · exact ⟨rfl, hw⟩
  · dsimp only
    cases m.positions[l]? <;> exact ⟨rfl, hw⟩
  · exact ⟨rfl, hw⟩
  · have hread := h.readStatic owner name hw
    dsimp only
    generalize host.readStatic owner name w = r at hread ⊢
    generalize other.readStatic owner name w' = r' at hread ⊢
    obtain ⟨answer, w⟩ := r
    obtain ⟨answer', w'⟩ := r'
    obtain ⟨rfl, hw⟩ := hread
    rcases answer with fault | v
    · exact ⟨rfl, hw⟩
    · dsimp only
      split <;> exact ⟨rfl, hw⟩
  · have hcall := h.invoke target args returns hw
    dsimp only
    generalize host.invoke target args returns w = r at hcall ⊢
    generalize other.invoke target args returns w' = r' at hcall ⊢
    obtain ⟨answer, w⟩ := r
    obtain ⟨answer', w'⟩ := r'
    obtain ⟨rfl, hw⟩ := hcall
    rcases answer with fault | _ | v
    · exact ⟨rfl, hw⟩
    · dsimp only
      split <;> exact ⟨rfl, hw⟩
    · dsimp only
      split <;> exact ⟨rfl, hw⟩

theorem run_related (h : host.Related other S) (m : Machine) (left : Nat) (s : State) {w : σ} {w' : τ}
    (hw : S w w') : (m.run host left s w).1 = (m.run other left s w').1 ∧
      S (m.run host left s w).2 (m.run other left s w').2 := by
  induction left generalizing s w w' with
  | zero =>
    simp only [run]
    cases m.code[s.pc]? <;> exact ⟨rfl, hw⟩
  | succ left ih =>
    simp only [run]
    cases m.code[s.pc]? with
    | none => exact ⟨rfl, hw⟩
    | some op =>
      have hstep := step_related h m op s hw
      dsimp only
      -- both machines come to the same state, and only the hosts differ
      generalize m.step host op s w = r at hstep ⊢
      generalize m.step other op s w' = r' at hstep ⊢
      obtain ⟨progress, w⟩ := r
      obtain ⟨progress', w'⟩ := r'
      obtain ⟨rfl, hw⟩ := hstep
      rcases progress with fault | s' | s'
      · exact ⟨rfl, hw⟩
      · exact ih s' hw
      · exact ⟨rfl, hw⟩

end Machine

/-- A program does the same with hosts that answer alike. -/
theorem Host.Related.run (h : host.Related other S) (p : Program) (limits : Limits) (w : σ) (w' : τ)
    (hw : S w w') : (p.run limits host w).1 = (p.run limits other w').1 ∧
      S (p.run limits host w).2 (p.run limits other w').2 := by
  simp only [Program.run]
  cases Machine.load limits p with
  | error fault => exact ⟨rfl, hw⟩
  | ok m => exact Machine.run_related h m limits.steps m.start hw

end

/-! ## Recording -/

/-- Something that is asked of a host. -/
inductive HostOp where
  | invoke (target : String) (args : List Value) (returns : Ty)
  | readStatic (owner name : String)
  deriving DecidableEq, Repr

/-- The operation is a call that expects nothing back. -/
def HostOp.isCommand : HostOp → Bool
  | .invoke _ _ returns => returns = .void
  | .readStatic _ _ => false

/-- The host with a record of its operations, the latest last. -/
def Host.recorded (host : Host σ) : Host (σ × List HostOp) where
  invoke target args returns s :=
    let (result, w) := host.invoke target args returns s.1
    (result, w, s.2 ++ [.invoke target args returns])
  readStatic owner name s :=
    let (result, w) := host.readStatic owner name s.1
    (result, w, s.2 ++ [.readStatic owner name])

theorem Host.related_recorded (host : Host σ) : host.Related host.recorded fun w s => s.1 = w where
  invoke {_ _} _ _ _ heq := by subst heq; exact ⟨rfl, rfl⟩
  readStatic {_ _} _ _ heq := by subst heq; exact ⟨rfl, rfl⟩

/-- Hosts that answer alike are asked for the same operations. -/
theorem Host.Related.recorded {host : Host σ} {other : Host τ} {S : σ → τ → Prop}
    (h : host.Related other S) :
    host.recorded.Related other.recorded fun s t => S s.1 t.1 ∧ s.2 = t.2 where
  invoke target args returns hs := by
    obtain ⟨hanswer, hstate⟩ := h.invoke target args returns hs.1
    exact ⟨hanswer, hstate, by simp only [Host.recorded, hs.2]⟩
  readStatic owner name hs := by
    obtain ⟨hanswer, hstate⟩ := h.readStatic owner name hs.1
    exact ⟨hanswer, hstate, by simp only [Host.recorded, hs.2]⟩

/-- Watching the host does not change a run. -/
theorem Program.run_recorded (p : Program) (limits : Limits) (host : Host σ) (w : σ) :
    ∃ ops, p.run limits host.recorded (w, []) =
      ((p.run limits host w).1, (p.run limits host w).2, ops) := by
  have hrelated : _ ∧ (p.run limits host.recorded (w, [])).2.1 = (p.run limits host w).2 :=
    host.related_recorded.run p limits w (w, []) rfl
  obtain ⟨hresult, hstate⟩ := hrelated
  rcases hrun : p.run limits host.recorded (w, []) with ⟨result, w', ops⟩
  rw [hrun] at hresult hstate
  exact ⟨ops, by rw [hresult, ← hstate]⟩

/-- What a run of the program asks of the host, in order. -/
def Program.asked (p : Program) (limits : Limits) (host : Host σ) (w : σ) : List HostOp :=
  (p.run limits host.recorded (w, [])).2.2

theorem Program.run_recorded_eq (p : Program) (limits : Limits) (host : Host σ) (w : σ) :
    p.run limits host.recorded (w, []) =
      ((p.run limits host w).1, (p.run limits host w).2, p.asked limits host w) := by
  obtain ⟨ops, hrun⟩ := p.run_recorded limits host w
  rw [asked, hrun]

/-! ## Operations in a row -/

namespace Host

/-- Whether an operation fails, and the state of the host after it. -/
def perform (host : Host σ) : HostOp → σ → Except Fault Unit × σ
  | .invoke target args returns, w =>
    ((host.invoke target args returns w).1.map fun _ => (), (host.invoke target args returns w).2)
  | .readStatic owner name, w => ((host.readStatic owner name w).1.map fun _ => (), (host.readStatic owner name w).2)

/-- The state of the host after operations. -/
def after (host : Host σ) (ops : List HostOp) (w : σ) : σ := ops.foldl (fun w op => (host.perform op w).2) w

/-- Of the operations in a row the last one fails in this way, in a state with
    `I`, and leaves the host in this state. -/
def Fails (host : Host σ) (I : σ → Prop) (ops : List HostOp) (w : σ) (fault : Fault) (w' : σ) : Prop :=
  ∃ earlier last, ops = earlier ++ [last] ∧ I (host.after earlier w) ∧
    host.perform last (host.after earlier w) = (.error fault, w')

/-- The operations that are recorded have led from the state `w` to the state
    of the host. -/
def Recalls (host : Host σ) (w : σ) (s : σ × List HostOp) : Prop := s.1 = host.after s.2 w

variable {host : Host σ} {w : σ} {s : σ × List HostOp}

theorem after_concat (host : Host σ) (ops : List HostOp) (op : HostOp) (w : σ) :
    host.after (ops ++ [op]) w = (host.perform op (host.after ops w)).2 := by
  simp [after]

theorem Recalls.invoke (h : host.Recalls w s) (target : String) (args : List Value) (returns : Ty) :
    host.Recalls w (host.recorded.invoke target args returns s).2 := by
  have hafter := host.after_concat s.2 (.invoke target args returns) w
  rw [← h] at hafter
  exact hafter.symm

theorem Recalls.readStatic (h : host.Recalls w s) (owner name : String) :
    host.Recalls w (host.recorded.readStatic owner name s).2 := by
  have hafter := host.after_concat s.2 (.readStatic owner name) w
  rw [← h] at hafter
  exact hafter.symm

end Host

/-! ## Scripted hosts -/

theorem Value.zero?_conforms {ty : Ty} {v : Value} (h : Value.zero? ty = some v) :
    v.conforms ty = true := by
  rcases ty with _ | _ | _ | c
  all_goals simp only [Value.zero?, Const.zero?, Option.map_some, Option.map_none, Option.some.injEq,
    reduceCtorEq] at h
  all_goals subst h
  all_goals rfl

namespace Script

/-- The same answers and fields are prepared in both. -/
def Like (s t : Script) : Prop := t.answers = s.answers ∧ t.statics = s.statics

theorem Like.invoke {s t : Script} (h : s.Like t) (target : String) (args : List Value) (returns : Ty) :
    s.Like (host.invoke target args returns t).2 := h

/-- What the host answers to a question. -/
theorem Like.invoke_eq {s t : Script} (h : s.Like t) (target : String) (args : List Value) {returns : Ty}
    (hreturns : returns ≠ .void) :
    (host.invoke target args returns t).1 =
      .ok ((s.answers.lookup target).or (Value.zero? returns)) := by
  rw [← h.1]
  cases returns with
  | void => exact absurd rfl hreturns
  | double | boolean | ref => rfl

theorem Like.readStatic_eq {s t : Script} (h : s.Like t) {owner name : String} {v : Value}
    (hv : s.statics.lookup (owner, name) = some v) : (host.readStatic owner name t).1 = .ok v := by
  simp [host, readStatic, h.2, hv]

/-- Prepared answers that conform are all that a question can get. -/
theorem exists_answer {s : Script} {target : String} {returns : Ty} (hreturns : returns ≠ .void)
    (h : ∀ v, s.answers.lookup target = some v → v.conforms returns = true) :
    ∃ v, v.conforms returns = true ∧ (s.answers.lookup target).or (Value.zero? returns) = some v := by
  cases hlookup : s.answers.lookup target with
  | some v => exact ⟨v, h v hlookup, rfl⟩
  | none =>
    obtain ⟨v, hv⟩ : ∃ v, Value.zero? returns = some v := by
      cases returns with
      | void => exact absurd rfl hreturns
      | double | boolean | ref => exact ⟨_, rfl⟩
    exact ⟨v, Value.zero?_conforms hv, hv⟩

end Script

end FlowGraph
