import FlowGraph.Proofs.Act

/-! # Acts that call each other

    A family of acts that call each other is given by a body for all of them:
    what each does if calls are answered by other acts. The family does what
    this comes to when calls are answered to a greater and greater depth:
    it has the end that there is at every depth from some on.

    Main statement: if an end of the body needs only the ends of finitely
    many calls, the family is its body with calls of the family itself
    (`Act.fix_eq`).
-/

namespace FlowGraph

namespace Act

variable {σ α β ι : Type}

/-! ## Limits -/

open Classical in
/-- The end that acts have from some number on. -/
noncomputable def limit (acts : Nat → Act σ α) : Act σ α := fun vars w =>
  if h : ∃ r m, ∀ n, m ≤ n → acts n vars w = some r then some h.choose else none

theorem limit_eq_some_iff {acts : Nat → Act σ α} {vars : Variables} {w : σ}
    {r : Except Fault (α × Variables) × σ} :
    limit acts vars w = some r ↔ ∃ m, ∀ n, m ≤ n → acts n vars w = some r := by
  unfold limit
  split
  · next h =>
    obtain ⟨m, hm⟩ := h.choose_spec
    constructor
    · intro heq
      rw [← heq]
      exact ⟨m, hm⟩
    · rintro ⟨m', hm'⟩
      rw [← hm (max m m') (Nat.le_max_left _ _), hm' (max m m') (Nat.le_max_right _ _)]
  · next h =>
    constructor
    · intro heq
      cases heq
    · rintro ⟨m, hm⟩
      exact absurd ⟨r, m, hm⟩ h

/-- Every end of the act is one that the others have from some number on. -/
def Approach (acts : Nat → Act σ α) (x : Act σ α) : Prop :=
  ∀ vars w r, x vars w = some r → ∃ m, ∀ n, m ≤ n → acts n vars w = some r

namespace Approach

theorem limit (acts : Nat → Act σ α) : Approach acts (limit acts) := fun _ _ _ h => limit_eq_some_iff.mp h

theorem same (x : Act σ α) : Approach (fun _ => x) x := fun _ _ _ h => ⟨0, fun _ _ => h⟩

theorem never (acts : Nat → Act σ α) : Approach acts never := fun _ _ _ h => by cases h

/-- What one act does, another does as well. -/
theorem apply {x y : Act σ α} (h : Approach (fun _ => y) x) {vars : Variables} {w : σ}
    {r : Except Fault (α × Variables) × σ} (hx : x vars w = some r) : y vars w = some r := by
  obtain ⟨m, hm⟩ := h vars w r hx
  exact hm m (Nat.le_refl m)

theorem bind {acts : Nat → Act σ α} {x : Act σ α} {nexts : Nat → α → Act σ β} {next : α → Act σ β}
    (hx : Approach acts x) (hnext : ∀ a, Approach (fun n => nexts n a) (next a)) :
    Approach (fun n => acts n >>= nexts n) (x >>= next) := by
  intro vars w r h
  rcases bind_eq_some h with ⟨fault, w', hfault, rfl⟩ | ⟨a, vars', w', hok, hrest⟩
  · obtain ⟨m, hm⟩ := hx _ _ _ hfault
    exact ⟨m, fun n hn => bind_of_error (hm n hn)⟩
  · obtain ⟨m, hm⟩ := hx _ _ _ hok
    obtain ⟨m', hm'⟩ := hnext a _ _ _ hrest
    refine ⟨max m m', fun n hn => ?_⟩
    have hfirst := hm n (Nat.le_trans (Nat.le_max_left m m') hn)
    exact (bind_of_ok hfirst).trans (hm' n (Nat.le_trans (Nat.le_max_right m m') hn))

end Approach

/-! ## Bodies -/

/-- With calls that approach others, the bodies approach the body with these. -/
def BodyApproach (bodies : Nat → (ι → Act σ α) → ι → Act σ α)
    (body : (ι → Act σ α) → ι → Act σ α) : Prop :=
  ∀ {calls : Nat → ι → Act σ α} {call : ι → Act σ α}, (∀ i, Approach (fun n => calls n i) (call i)) →
    ∀ i, Approach (fun n => bodies n (calls n) i) (body call i)

/-- An end of the body needs only the ends of finitely many calls. -/
abbrev Finitary (body : (ι → Act σ α) → ι → Act σ α) : Prop := BodyApproach (fun _ => body) body

/-- The body with calls answered to a depth. -/
def stage (body : (ι → Act σ α) → ι → Act σ α) : Nat → ι → Act σ α
  | 0 => fun _ => never
  | depth + 1 => body (stage body depth)

/-- The acts with the body. -/
noncomputable def fix (body : (ι → Act σ α) → ι → Act σ α) (i : ι) : Act σ α :=
  limit fun depth => stage body depth i

section

variable {body : (ι → Act σ α) → ι → Act σ α}

/-- What ends stays as it is when calls are answered deeper. -/
theorem stage_succ (h : Finitary body) (depth : Nat) (i : ι) :
    Approach (fun _ => stage body (depth + 1) i) (stage body depth i) := by
  induction depth generalizing i with
  | zero => exact .never _
  | succ depth ih => exact h ih i

theorem stage_of_le (h : Finitary body) {i : ι} {vars : Variables} {w : σ}
    {r : Except Fault (α × Variables) × σ} {depth depth' : Nat} (hle : depth ≤ depth')
    (hr : stage body depth i vars w = some r) : stage body depth' i vars w = some r := by
  induction hle with
  | refl => exact hr
  | step _ ih => exact (stage_succ h _ i).apply ih

theorem fix_approach_stage (h : Finitary body) (depth : Nat) (i : ι) :
    Approach (fun _ => fix body i) (stage body depth i) := by
  intro vars w r hr
  exact ⟨0, fun _ _ => limit_eq_some_iff.mpr ⟨depth, fun _ hle => stage_of_le h hle hr⟩⟩

/-- The acts do what their body does with calls of themselves. -/
theorem fix_eq (h : Finitary body) (i : ι) : fix body i = body (fix body) i := by
  funext vars w
  refine Option.ext fun r => ⟨fun hr => ?_, fun hr => ?_⟩
  · obtain ⟨m, hm⟩ := limit_eq_some_iff.mp hr
    exact (h (fix_approach_stage h m) i).apply (hm (m + 1) (Nat.le_succ m))
  · obtain ⟨m, hm⟩ := h (fun i => .limit fun depth => stage body depth i) i vars w r hr
    refine limit_eq_some_iff.mpr ⟨m + 1, fun n hn => ?_⟩
    obtain ⟨n, rfl⟩ : ∃ n', n = n' + 1 := ⟨n - 1, by omega⟩
    exact hm n (by omega)

/-- Acts with a body that others approach are approached by the acts with
    those. -/
theorem fix_approach {bodies : Nat → (ι → Act σ α) → ι → Act σ α} (h : BodyApproach bodies body)
    (hbodies : ∀ n, Finitary (bodies n)) (i : ι) :
    Approach (fun n => fix (bodies n) i) (fix body i) := by
  have hstage : ∀ depth i, Approach (fun n => stage (bodies n) depth i) (stage body depth i) := by
    intro depth
    induction depth with
    | zero => exact fun _ => .never _
    | succ depth ih => exact h ih
  intro vars w r hr
  obtain ⟨depth, hdepth⟩ := limit_eq_some_iff.mp hr
  obtain ⟨m, hm⟩ := hstage depth i vars w r (hdepth depth (Nat.le_refl depth))
  exact ⟨m, fun n hn => (fix_approach_stage (hbodies n) depth i).apply (hm n hn)⟩

end

/-! ## Loops -/

/-- One turn and then the others, if the counter is below the limit. -/
def turnBelow (limit : Double) (turn : Act σ Unit) (others : Double → Act σ Unit) (counter : Double) :
    Act σ Unit :=
  if counter.lt limit then do
    turn
    others (counter.add .one)
  else return ()

/-- Repeats an act while the counter is below the limit. -/
noncomputable def repeatBelow (limit : Double) (turn : Act σ Unit) : Double → Act σ Unit :=
  fix (turnBelow limit turn)

theorem turnBelow_approach (limit : Double) {turns : Nat → Act σ Unit} {turn : Act σ Unit}
    (h : Approach turns turn) : BodyApproach (fun n => turnBelow limit (turns n)) (turnBelow limit turn) := by
  intro calls call hcalls counter
  dsimp only [turnBelow]
  cases counter.lt limit with
  | true => exact h.bind fun _ => hcalls _
  | false => exact .same _

theorem repeatBelow_eq (limit : Double) (turn : Act σ Unit) (counter : Double) :
    repeatBelow limit turn counter = turnBelow limit turn (repeatBelow limit turn) counter :=
  fix_eq (turnBelow_approach limit (.same turn)) counter

theorem repeatBelow_approach (limit : Double) {turns : Nat → Act σ Unit} {turn : Act σ Unit}
    (h : Approach turns turn) (counter : Double) :
    Approach (fun n => repeatBelow limit (turns n) counter) (repeatBelow limit turn counter) :=
  fix_approach (turnBelow_approach limit h) (fun n => turnBelow_approach limit (.same (turns n))) counter

end Act

end FlowGraph
