import FlowGraph.Proofs.Execution
import FlowGraph.Proofs.Recording
import FlowGraph.Proofs.Recursion

/-! # Code that shares nothing

    What a code tree that names no shared computation does, as a function:
    `Code.eval` goes through the tree with a stack, the variables and the host.
    A loop computes its number of times once, and then runs its body with a
    counter from zero in steps of one while the counter is below the number
    (`Act.countUp_eq`).
-/

namespace FlowGraph

variable {σ α β : Type}

namespace Act

/-! ## Acts that rise -/

/-- What ends stays as it is further on. -/
def Rising (acts : Nat → Act σ α) : Prop :=
  ∀ n vars w r, acts n vars w = some r → acts (n + 1) vars w = some r

namespace Rising

variable {acts : Nat → Act σ α}

theorem of_le (h : Rising acts) {n n' : Nat} (hle : n ≤ n') {vars : Variables} {w : σ}
    {r : Except Fault (α × Variables) × σ} (hr : acts n vars w = some r) : acts n' vars w = some r := by
  induction hle with
  | refl => exact hr
  | step _ ih => exact h _ _ _ _ ih

theorem limit_eq_some_iff (h : Rising acts) {vars : Variables} {w : σ} {r : Except Fault (α × Variables) × σ} :
    limit acts vars w = some r ↔ ∃ n, acts n vars w = some r := by
  rw [Act.limit_eq_some_iff]
  constructor
  · rintro ⟨n, hn⟩
    exact ⟨n, hn n (Nat.le_refl n)⟩
  · rintro ⟨n, hn⟩
    exact ⟨n, fun _ hle => h.of_le hle hn⟩

/-- The limit has the ends that there are on the way. -/
theorem ends_limit (h : Rising acts) : (limit acts).ends = Ends.anyOf fun n => (acts n).ends := by
  funext vars w r
  exact propext h.limit_eq_some_iff

end Rising

/-! ## Counting -/

/-- Repeats at most so many times with a counter, while the counter is below
    the bound. -/
def iterate (body : α → Act σ α) (bound : Double) : Nat → Double → α → Act σ α
  | 0, counter, a => if counter.lt bound then never else return a
  | turns + 1, counter, a =>
    if counter.lt bound then do
      let a ← body a
      iterate body bound turns (counter.add .one) a
    else return a

theorem rising_iterate (body : α → Act σ α) (bound counter : Double) (a : α) :
    Rising fun turns => iterate body bound turns counter a := by
  intro turns vars w r hr
  dsimp only at hr ⊢
  induction turns generalizing counter a vars w with
  | zero =>
    simp only [iterate] at hr ⊢
    split at hr
    · cases hr
    · next hcounter => rwa [if_neg hcounter]
  | succ turns ih =>
    rw [iterate] at hr ⊢
    split at hr
    · next hcounter =>
      rw [if_pos hcounter]
      rcases bind_eq_some hr with ⟨fault, w', hfault, rfl⟩ | ⟨a', vars', w', hok, hrest⟩
      · exact bind_of_error hfault
      · exact (bind_of_ok hok).trans (ih _ _ _ _ hrest)
    · next hcounter => rwa [if_neg hcounter]

/-- Repeats while the counter is below the bound. -/
noncomputable def countUp (body : α → Act σ α) (bound counter : Double) (a : α) : Act σ α :=
  limit fun turns => iterate body bound turns counter a

/-- A counter that is not below the bound ends the loop, else there is a turn
    and the counter goes up by one. -/
theorem countUp_eq (body : α → Act σ α) (bound counter : Double) (a : α) :
    countUp body bound counter a =
      if counter.lt bound then do
        let a ← body a
        countUp body bound (counter.add .one) a
      else return a := by
  have hlimit {counter : Double} {a : α} {vars : Variables} {w : σ} {r : Except Fault (α × Variables) × σ} :
      countUp body bound counter a vars w = some r ↔ ∃ turns, iterate body bound turns counter a vars w = some r :=
    (rising_iterate body bound counter a).limit_eq_some_iff
  by_cases hcounter : counter.lt bound = true
  · rw [if_pos hcounter]
    funext vars w
    refine Option.ext fun r => ⟨fun hr => ?_, fun hr => ?_⟩
    · -- one turn more is allowed, so that the first of them can be taken off
      obtain ⟨turns, hturns⟩ := hlimit.mp hr
      have hturn := rising_iterate body bound counter a _ _ _ _ hturns
      dsimp only at hturn
      rw [iterate, if_pos hcounter] at hturn
      rcases bind_eq_some hturn with ⟨fault, w', hfault, rfl⟩ | ⟨a', vars', w', hok, hrest⟩
      · exact bind_of_error hfault
      · exact (bind_of_ok hok).trans (hlimit.mpr ⟨turns, hrest⟩)
    · rcases bind_eq_some hr with ⟨fault, w', hfault, rfl⟩ | ⟨a', vars', w', hok, hrest⟩
      · refine hlimit.mpr ⟨1, ?_⟩
        rw [iterate, if_pos hcounter]
        exact bind_of_error hfault
      · -- the first turn, and as many as the rest takes
        obtain ⟨turns, hturns⟩ := hlimit.mp hrest
        refine hlimit.mpr ⟨turns + 1, ?_⟩
        rw [iterate, if_pos hcounter]
        exact (bind_of_ok hok).trans hturns
  · rw [if_neg hcounter]
    funext vars w
    refine hlimit.mpr ⟨0, ?_⟩
    rw [iterate, if_neg hcounter]
    rfl

theorem ends_iterate {body : α → Act σ α} {body' : α → Ends σ α} (h : ∀ a, (body a).ends = body' a) (bound : Double)
    (turns : Nat) (counter : Double) (a : α) :
    (iterate body bound turns counter a).ends = Ends.iterate body' bound turns counter a := by
  induction turns generalizing counter a with
  | zero =>
    rw [iterate, Ends.iterate]
    split
    · exact ends_never
    · exact ends_pure a
  | succ turns ih =>
    rw [iterate, Ends.iterate]
    split
    · rw [ends_bind, h]
      congr
      funext a
      exact ih _ a
    · exact ends_pure a

@[simp] theorem ends_throw (fault : Fault) : (throw fault : Act σ α).ends = Ends.fault fault := by
  funext vars w r
  simp only [ends, throw_apply, Option.some.injEq]
  exact propext eq_comm

end Act

/-- Nothing is shared, and nothing is computed ahead. -/
def Sharing.nothing : Sharing σ where
  value _ := Ends.never
  ahead := pure ()

namespace Code

/-- What code that shares nothing does to a stack. -/
noncomputable def eval (host : Host σ) : Code → List Value → Act σ (List Value)
  | .op o _, stack => do
    match ← o.act host stack with
    | (none, stack) => return stack
    | (some _, _) => Act.never
  | .done _, stack => return stack
  | .andThen first rest, stack => do
    let stack ← first.eval host stack
    rest.eval host stack
  | .raw _ ops, stack => Act.limit fun turns => actFrom host ops turns 0 stack
  | .shared _ _, _ => Act.never
  | .getVariable name, stack => do
    let v ← Act.fetch name
    return v :: stack
  | .setVariable name value, stack => do
    match ← value.eval host stack with
    | .ref object :: stack => do
      Act.store name object
      return stack
    | v :: _ => throw (.typeMismatch "store" (.ref .object) v.describe)
    | [] => throw .stackUnderflow
  | .loop times body, stack => do
    match ← times.eval host stack with
    | .double bound :: stack => Act.countUp (body.eval host) bound .zero stack
    | v :: _ => throw (.typeMismatch "store" .double v.describe)
    | [] => throw .stackUnderflow
  | .branch condition yes no, stack => do
    match ← condition.eval host stack with
    | .boolean true :: stack => yes.eval host stack
    | .boolean false :: stack => no.eval host stack
    | v :: _ => throw (.typeMismatch "jumpunless" .boolean v.describe)
    | [] => throw .stackUnderflow

theorem rising_actFrom (host : Host σ) (ops : List Op) (pc : Nat) (stack : List Value) :
    Act.Rising fun turns => actFrom host ops turns pc stack :=
  fun turns vars w r hr => actFrom_within_succ host ops turns pc stack vars w r hr

/-- The ends of code in which nothing is shared. -/
theorem ends_eval (host : Host σ) (c : Code) (stack : List Value) :
    (c.eval host stack).ends = c.ends host .nothing stack := by
  induction c generalizing stack with
  | op o ty =>
    rw [eval, ends, Act.ends_bind]
    congr
    funext r
    obtain ⟨_ | l, stack⟩ := r
    · exact Act.ends_pure _
    · exact Act.ends_never
  | done ty => exact Act.ends_pure _
  | andThen first rest ihf ihr =>
    rw [eval, ends, Act.ends_bind, ihf]
    congr
    funext stack
    exact ihr stack
  | raw ty ops =>
    rw [eval, ends, (rising_actFrom host ops 0 stack).ends_limit]
  | shared id ty =>
    -- no value is known of what is not shared, so neither side ends
    rw [eval, ends, Act.ends_never]
    funext vars w r
    refine propext ⟨fun h => h.elim, ?_⟩
    rintro (⟨fault, w', hnever, -⟩ | ⟨v, vars', w', hnever, -⟩) <;> exact hnever
  | getVariable name =>
    rw [eval, ends, Act.ends_bind]
    congr
    funext v
    exact Act.ends_pure _
  | setVariable name value ih =>
    rw [eval, ends, Act.ends_bind, ih]
    congr
    funext stack
    rcases stack with _ | ⟨_ | _ | object, stack⟩
    · exact Act.ends_throw _
    · exact Act.ends_throw _
    · exact Act.ends_throw _
    · dsimp only
      rw [Act.ends_bind]
      congr
      funext u
      exact Act.ends_pure stack
  | loop times body iht ihb =>
    rw [eval, ends, Act.ends_bind, iht]
    congr
    funext stack
    rcases stack with _ | ⟨bound | _ | _, stack⟩
    · exact Act.ends_throw _
    · -- nothing is computed ahead, and some number of turns is enough
      have hturns := (Act.rising_iterate (body.eval host) bound .zero stack).ends_limit
      simp only [Sharing.nothing, pure_bind, Act.countUp, hturns, Act.ends_iterate ihb]
    · exact Act.ends_throw _
    · exact Act.ends_throw _
  | branch condition yes no ihc ihy ihn =>
    rw [eval, ends, Act.ends_bind, ihc]
    congr
    funext stack
    simp only [Sharing.nothing, pure_bind]
    rcases stack with _ | ⟨_ | (_ | _) | _, stack⟩
    · exact Act.ends_throw _
    · exact Act.ends_throw _
    · exact ihn stack
    · exact ihy stack
    · exact Act.ends_throw _

end Code

/-! ## Runs -/

theorem Sharing.valid_nothing (host : Host σ) : (Sharing.nothing : Sharing σ).Valid host {} where
  computes _ _ hentry := by cases hentry
  typed _ _ hentry := by cases hentry
  settled _ _ _ _ _ _ h := h.elim
  idle := Ends.Within.refl _
  ahead _ := by
    rintro vars w r (⟨fault, w', hnever, -⟩ | ⟨v, vars', w', hnever, -⟩) <;> exact hnever.elim

/-- Code that fits an empty draft names nothing shared. -/
theorem Code.Fits.complete {c : Code} (h : c.Fits [] 0) : ({} : Draft).Complete c where
  fresh := Draft.fresh_empty
  ordered _ _ hentry := by cases hentry
  fits := h
  reaches _ hlt := by cases hlt
  defaults _ hentry := by cases hentry

/-- A run that reaches no limit ends as the tree does. -/
theorem Code.Fits.exists_eval {c : Code} (h : c.Fits [] 0) (host : Host σ) (limits : Limits) (w : σ)
    (hlimit : ∀ fault, ((({} : Draft).finish c).program.run limits host w).1 = .error fault → fault.isLimit = false) :
    ∃ r, c.eval host [] Variables.unset w = some (r, ((({} : Draft).finish c).program.run limits host w).2) ∧
      r.map (fun e => e.1.reverse) = ((({} : Draft).finish c).program.run limits host w).1.map Outcome.stack := by
  have hrun := h.complete.runs (Sharing.valid_nothing host) limits w
  rw [← c.ends_eval] at hrun
  rcases hresult : (({} : Draft).finish c).program.run limits host w with ⟨fault | outcome, w'⟩
  · rw [hresult] at hrun hlimit
    rcases hrun with hfault | heval
    · rw [hlimit fault rfl] at hfault
      cases hfault
    · exact ⟨_, heval, rfl⟩
  · rw [hresult] at hrun
    obtain ⟨vars, heval⟩ := hrun
    exact ⟨_, heval, by simp [Except.map]⟩

end FlowGraph
