import FlowGraph.Proofs.Soundness

/-! # What one step comes to

    The limit on the stack matters to an operation in one place only: at the
    end it may push a value. Up to there it faults or goes on whatever the
    limit is (`PushesLast`), and the same holds of a step of the machine, with
    what it asks of the host (`Machine.step_pushesLast`).

    What a step keeps and how it fails is read off from that:

    * the stack stays within the limit, and there are as many slots as before
      (`Machine.step_frame`);
    * a fault is an overflow or has a cause of its own (`Machine.step_error`);
    * a larger limit changes nothing but an overflow (`Machine.step_mono`).
-/

namespace FlowGraph

variable {σ α β : Type}

/-- The fault says that values or slots are not what an operation needs. -/
def Fault.isMisfit : Fault → Bool
  | .stackUnderflow => true
  | .slotOutOfRange _ => true
  | .uninitializedLocal _ => true
  | .typeMismatch _ _ _ => true
  | .nullReference => true
  | .classCast _ _ => true
  | .badHostResult _ _ _ => true
  | _ => false

/-- The fault says that a program cannot be loaded. -/
def Fault.isRefusal : Fault → Bool
  | .tooManyLocals _ _ => true
  | .unknownLabel _ => true
  | .duplicateLabel _ => true
  | _ => false

/-- At most one operation of the host leads from the first state to the
    second. -/
inductive Host.Goes (host : Host σ) (w : σ) : σ → Prop
  | still : Goes host w w
  | invoke (target : String) (args : List Value) (returns : Ty) : Goes host w (host.invoke target args returns w).2
  | readStatic (owner name : String) : Goes host w (host.readStatic owner name w).2

theorem Host.Recalls.goes {host : Host σ} {w : σ} {s s' : σ × List HostOp} (h : host.Recalls w s)
    (hgoes : host.recorded.Goes s s') : host.Recalls w s' := by
  cases hgoes with
  | still => exact h
  | invoke target args returns => exact h.invoke target args returns
  | readStatic owner name => exact h.readStatic owner name

/-! ## Frames that are left behind -/

namespace Frame

/-- At most as many values, and just as many slots. -/
structure Below (f' f : Frame) : Prop where
  depth : f'.stack.depth ≤ f.stack.depth
  size : f'.locals.size = f.locals.size

variable {f f' f'' : Frame} {v : Value} {fault : Fault}

theorem Below.refl (f : Frame) : f.Below f := ⟨Nat.le_refl _, rfl⟩

theorem Below.trans (h : f''.Below f') (h' : f'.Below f) : f''.Below f :=
  ⟨Nat.le_trans h.depth h'.depth, h.size.trans h'.size⟩

theorem below_of_pop (h : f.pop = .ok (v, f')) : f'.Below f := by
  obtain ⟨⟨_ | ⟨u, values⟩, depth, hdepth⟩, locals⟩ := f
  · cases h
  · cases h
    exact ⟨Nat.sub_le depth 1, rfl⟩

theorem isMisfit_of_pop (h : f.pop = .error fault) : fault.isMisfit = true := by
  unfold pop at h
  split at h
  · cases h
  · cases h
    rfl

theorem isMisfit_of_top (h : f.top = .error fault) : fault.isMisfit = true := by
  unfold top at h
  split at h
  · cases h
  · cases h
    rfl

theorem isMisfit_of_load {slot : Nat} (h : f.load slot = .error fault) : fault.isMisfit = true := by
  unfold load at h
  split at h
  · cases h
  · cases h
    rfl
  · cases h
    rfl

theorem below_of_store {slot : Nat} (h : f.store slot v = .ok f') : f'.Below f := by
  unfold store at h
  split at h
  · cases h
    exact ⟨Nat.le_refl _, Array.size_setIfInBounds⟩
  · cases h

theorem isMisfit_of_store {slot : Nat} (h : f.store slot v = .error fault) : fault.isMisfit = true := by
  unfold store at h
  split at h
  · cases h
  · cases h
    rfl

theorem below_of_popDouble {op : String} {x : Double} (h : f.popDouble op = .ok (x, f')) : f'.Below f := by
  unfold popDouble at h
  rcases hpop : f.pop with fault | ⟨_ | _ | _, f₁⟩ <;> rw [hpop] at h <;> cases h
  exact below_of_pop hpop

theorem isMisfit_of_popDouble {op : String} (h : f.popDouble op = .error fault) : fault.isMisfit = true := by
  unfold popDouble at h
  rcases hpop : f.pop with fault | ⟨_ | _ | _, f₁⟩ <;> rw [hpop] at h <;> cases h
  · exact isMisfit_of_pop hpop
  · rfl
  · rfl

theorem below_of_popBoolean {op : String} {b : Bool} (h : f.popBoolean op = .ok (b, f')) : f'.Below f := by
  unfold popBoolean at h
  rcases hpop : f.pop with fault | ⟨_ | _ | _, f₁⟩ <;> rw [hpop] at h <;> cases h
  exact below_of_pop hpop

theorem isMisfit_of_popBoolean {op : String} (h : f.popBoolean op = .error fault) : fault.isMisfit = true := by
  unfold popBoolean at h
  rcases hpop : f.pop with fault | ⟨_ | _ | _, f₁⟩ <;> rw [hpop] at h <;> cases h
  · exact isMisfit_of_pop hpop
  · rfl
  · rfl

end Frame

/-! ## A push at the end -/

/-- The results for all limits on the stack. Whatever the limit is, it is the
    same fault, or the same push with `k` behind it, or the same result without
    a push. But for that push, no frame in it has more values than `f`. -/
inductive PushesLast (f : Frame) (k : Frame → α) (frame : α → Frame) (faults : Fault → Prop) :
    (Nat → Except Fault α) → Prop
  | fault {fault : Fault} : faults fault → PushesLast f k frame faults fun _ => .error fault
  | push {f' : Frame} {v : Value} : f'.Below f → PushesLast f k frame faults fun limit => k <$> f'.push limit v
  | done {a : α} : (frame a).Below f → PushesLast f k frame faults fun _ => .ok a

namespace PushesLast

variable {f : Frame} {k : Frame → α} {frame : α → Frame} {faults : Fault → Prop} {run : Nat → Except Fault α}
  {limit limit' : Nat}

/-- What comes ahead of the push does not know the limit. -/
theorem bind {x : Except Fault β} {g : β → Nat → Except Fault α} (hx : ∀ fault, x = .error fault → faults fault)
    (hg : ∀ b, x = .ok b → PushesLast f k frame faults (g b)) :
    PushesLast f k frame faults fun limit => x >>= fun b => g b limit := by
  cases x with
  | error fault => exact .fault (hx fault rfl)
  | ok b => exact hg b rfl

/-- A larger limit changes nothing but an overflow. -/
theorem mono (h : PushesLast f k frame faults run) (hle : limit ≤ limit') :
    run limit = .error (.stackOverflow limit) ∨ run limit' = run limit := by
  cases h with
  | fault _ => exact .inr rfl
  | @push f' v _ =>
    by_cases hroom : f'.stack.depth < limit
    · right
      simp only [Frame.push, if_pos hroom, if_pos (Nat.lt_of_lt_of_le hroom hle)]
    · left
      simp only [Frame.push, if_neg hroom]
      rfl
  | done _ => exact .inr rfl

/-- The stack stays within the limit. -/
theorem frame_of_ok (h : PushesLast f k frame faults run) (hk : ∀ f, frame (k f) = f) (hf : f.stack.depth ≤ limit)
    {a : α} (ha : run limit = .ok a) :
    (frame a).stack.depth ≤ limit ∧ (frame a).locals.size = f.locals.size := by
  cases h with
  | fault _ => cases ha
  | @push f' v hbelow =>
    by_cases hroom : f'.stack.depth < limit
    · simp only [Frame.push, if_pos hroom] at ha
      cases ha
      rw [hk]
      exact ⟨hroom, hbelow.size⟩
    · simp only [Frame.push, if_neg hroom] at ha
      cases ha
  | done hbelow =>
    cases ha
    exact ⟨Nat.le_trans hbelow.depth hf, hbelow.size⟩

theorem of_error (h : PushesLast f k frame faults run) {fault : Fault} (hfault : run limit = .error fault) :
    fault = .stackOverflow limit ∨ faults fault := by
  cases h with
  | fault hcause =>
    cases hfault
    exact .inr hcause
  | @push f' v _ =>
    by_cases hroom : f'.stack.depth < limit
    · simp only [Frame.push, if_pos hroom] at hfault
      cases hfault
    · simp only [Frame.push, if_neg hroom] at hfault
      cases hfault
      exact .inl rfl
  | done _ => cases hfault

end PushesLast

/-! ## Operations -/

/-- The frame that an operation leaves. -/
def Effect.frame : Effect → Frame
  | .next f => f
  | .goto _ f => f
  | .halt f => f
  | .readStatic _ _ _ f => f
  | .invoke _ _ _ f => f

/-- An operation pushes at most one value, at its end. -/
theorem Op.pushesLast (o : Op) (f : Frame) :
    PushesLast f Effect.next Effect.frame (fun fault => fault.isMisfit = true) (o.effect · f) := by
  cases o with
  | const c => exact .push (.refl f)
  | pop => exact .bind (fun _ => Frame.isMisfit_of_pop) fun _ h => .done (Frame.below_of_pop h)
  | dup => exact .bind (fun _ => Frame.isMisfit_of_top) fun _ _ => .push (.refl f)
  | load slot ty => exact .bind (fun _ => Frame.isMisfit_of_load) fun _ _ => .push (.refl f)
  | store slot ty =>
    refine .bind (fun _ => Frame.isMisfit_of_pop) ?_
    rintro ⟨v, f₁⟩ hpop
    dsimp only
    split
    · cases hstore : f₁.store slot v with
      | error fault => exact .fault (Frame.isMisfit_of_store hstore)
      | ok f₂ => exact .done ((Frame.below_of_store hstore).trans (Frame.below_of_pop hpop))
    · exact .fault rfl
  | instanceOf c =>
    refine .bind (fun _ => Frame.isMisfit_of_pop) ?_
    rintro ⟨_ | _ | _ | object, f₁⟩ hpop
    · exact .fault rfl
    · exact .fault rfl
    · exact .push (Frame.below_of_pop hpop)
    · exact .push (Frame.below_of_pop hpop)
  | checkCast c =>
    refine .bind (fun _ => Frame.isMisfit_of_top) fun v _ => ?_
    split
    · exact .done (.refl f)
    · exact .fault rfl
  | box c =>
    refine .bind (fun _ => Frame.isMisfit_of_pop) ?_
    rintro ⟨v, f₁⟩ hpop
    have hbelow := Frame.below_of_pop hpop
    cases c with
    | double =>
      cases v with
      | double x => exact .push hbelow
      | boolean | ref => exact .fault rfl
    | boolean =>
      cases v with
      | boolean b => exact .push hbelow
      | double | ref => exact .fault rfl
    | object | text => exact .fault rfl
  | unbox c =>
    refine .bind (fun _ => Frame.isMisfit_of_pop) ?_
    rintro ⟨v, f₁⟩ hpop
    have hbelow := Frame.below_of_pop hpop
    rcases v with _ | _ | _ | object
    · exact .fault rfl
    · exact .fault rfl
    · exact .fault rfl
    · cases c with
      | double =>
        cases object with
        | double x => exact .push hbelow
        | boolean | text => exact .fault rfl
      | boolean =>
        cases object with
        | boolean b => exact .push hbelow
        | double | text => exact .fault rfl
      | object | text => cases object <;> exact .fault rfl
  | arith op =>
    refine .bind (fun _ => Frame.isMisfit_of_popDouble) fun _ hy => ?_
    refine .bind (fun _ => Frame.isMisfit_of_popDouble) fun _ hx => ?_
    exact .push ((Frame.below_of_popDouble hx).trans (Frame.below_of_popDouble hy))
  | compare op =>
    refine .bind (fun _ => Frame.isMisfit_of_popDouble) fun _ hy => ?_
    refine .bind (fun _ => Frame.isMisfit_of_popDouble) fun _ hx => ?_
    exact .push ((Frame.below_of_popDouble hx).trans (Frame.below_of_popDouble hy))
  | not => exact .bind (fun _ => Frame.isMisfit_of_popBoolean) fun _ h => .push (Frame.below_of_popBoolean h)
  | label l => exact .done (.refl f)
  | jump l => exact .done (.refl f)
  | jumpIf l =>
    refine .bind (fun _ => Frame.isMisfit_of_popBoolean) ?_
    rintro ⟨b, f₁⟩ h
    refine .done ?_
    cases b <;> exact Frame.below_of_popBoolean h
  | jumpUnless l =>
    refine .bind (fun _ => Frame.isMisfit_of_popBoolean) ?_
    rintro ⟨b, f₁⟩ h
    refine .done ?_
    cases b <;> exact Frame.below_of_popBoolean h
  | getStatic owner name ty => exact .done (.refl f)
  | invoke target argc returns =>
    simp only [effect, Stack.take?]
    -- the host is not asked yet, so that nothing is pushed here
    by_cases henough : argc ≤ f.stack.depth
    · simp only [if_pos henough]
      exact .done ⟨Nat.sub_le _ _, rfl⟩
    · simp only [if_neg henough]
      exact .fault rfl
  | ret => exact .done (.refl f)

/-! ## Steps -/

namespace Machine

variable {m m' : Machine} {host : Host σ} {o : Op} {s : State} {w w' : σ} {fault : Fault}

/-- The state that a step leads to. -/
def Progress.state : Progress → State
  | .running s => s
  | .halted s => s

/-- Where the fault of a step comes from, if it is no overflow: a value or a
    slot, a label that is defined nowhere, or the host. -/
inductive Causes (m : Machine) (host : Host σ) (o : Op) (w w' : σ) (fault : Fault) : Prop
  | misfit : fault.isMisfit = true → Causes m host o w w' fault
  | label {l : Label} : o.references? = some l → m.positions[l]? = none → fault = .unknownLabel l →
    Causes m host o w w' fault
  | host : host.Raises (· = w) fault w' → Causes m host o w w' fault

/-- The results of a step for all limits on the stack. -/
def StepPushesLast (m : Machine) (host : Host σ) (o : Op) (s : State) (w w' : σ) (run : Nat → Except Fault Progress) :
    Prop :=
  PushesLast s.frame (fun f => .running ⟨s.pc + 1, s.steps + 1, f⟩) (fun progress => progress.state.frame)
    (m.Causes host o w w') run

/-- A step pushes at most one value, at its end. What it asks of the host, at
    most one operation, does not depend on the limit. -/
theorem step_pushesLast (m : Machine) (host : Host σ) (o : Op) (s : State) (w : σ) :
    ∃ run w', m.StepPushesLast host o s w w' run ∧ host.Goes w w' ∧
      ∀ m' : Machine, m'.positions = m.positions → m'.step host o s w = (run m'.limits.stack, w') := by
  obtain ⟨pc, steps, f⟩ := s
  have hlast := o.pushesLast f
  -- the effects for all limits at once: which case it is does not depend on one
  generalize hrun : (o.effect · f) = run at hlast
  have heffect (limit : Nat) : o.effect limit f = run limit := congrFun hrun limit
  cases hlast with
  | fault h => exact ⟨_, w, .fault (.misfit h), .still, fun m' _ => by simp only [step, heffect]⟩
  | @push f₁ v hbelow =>
    refine ⟨_, w, .push (v := v) hbelow, .still, fun m' _ => ?_⟩
    simp only [step, heffect]
    cases f₁.push m'.limits.stack v <;> rfl
  | @done effect hbelow =>
    cases effect with
    | next f₁ =>
      refine ⟨fun _ => .ok (.running ⟨pc + 1, steps + 1, f₁⟩), w, .done hbelow, .still, fun m' _ => ?_⟩
      simp only [step, heffect]
    | goto l f₁ =>
      cases hposition : m.positions[l]? with
      | none =>
        refine ⟨_, w, .fault (.label (Op.effect_goto (heffect 0)) hposition rfl), .still, fun m' hm' => ?_⟩
        simp only [step, heffect, hm', hposition]
      | some target =>
        refine ⟨fun _ => .ok (.running ⟨target, steps + 1, f₁⟩), w, .done hbelow, .still, fun m' hm' => ?_⟩
        simp only [step, heffect, hm', hposition]
    | halt f₁ =>
      refine ⟨fun _ => .ok (.halted ⟨pc, steps + 1, f₁⟩), w, .done hbelow, .still, fun m' _ => ?_⟩
      simp only [step, heffect]
    | readStatic owner name ty f₁ =>
      have hbelow : f₁.Below f := hbelow
      have hgoes : host.Goes w (host.readStatic owner name w).2 := .readStatic owner name
      rcases hread : host.readStatic owner name w with ⟨fault | v, w₁⟩ <;> rw [hread] at hgoes
      · refine ⟨_, w₁, .fault (.host (.readStatic rfl hread)), hgoes, fun m' _ => ?_⟩
        simp only [step, heffect, hread]
      · -- the host has answered by the time that the value is looked at
        by_cases hty : v.conforms ty = true
        · refine ⟨_, w₁, .push (v := v) hbelow, hgoes, fun m' _ => ?_⟩
          simp only [step, heffect, hread, if_pos hty]
        · refine ⟨fun _ => .error (.typeMismatch "getstatic" ty v.describe), w₁, .fault (.misfit rfl), hgoes,
            fun m' _ => ?_⟩
          simp only [step, heffect, hread, if_neg hty]
    | invoke target args returns f₁ =>
      have hbelow : f₁.Below f := hbelow
      have hgoes : host.Goes w (host.invoke target args returns w).2 := .invoke target args returns
      rcases hinvoke : host.invoke target args returns w with ⟨fault | _ | v, w₁⟩ <;> rw [hinvoke] at hgoes
      · refine ⟨_, w₁, .fault (.host (.invoke rfl hinvoke)), hgoes, fun m' _ => ?_⟩
        simp only [step, heffect, hinvoke]
      · by_cases hvoid : returns = .void
        · refine ⟨fun _ => .ok (.running ⟨pc + 1, steps + 1, f₁⟩), w₁, .done hbelow, hgoes, fun m' _ => ?_⟩
          simp only [step, heffect, hinvoke, if_pos hvoid]
        · refine ⟨fun _ => .error (.badHostResult target returns "nothing"), w₁, .fault (.misfit rfl), hgoes,
            fun m' _ => ?_⟩
          simp only [step, heffect, hinvoke, if_neg hvoid]
      · by_cases hty : v.conforms returns = true
        · refine ⟨_, w₁, .push (v := v) hbelow, hgoes, fun m' _ => ?_⟩
          simp only [step, heffect, hinvoke, if_pos hty]
        · refine ⟨fun _ => .error (.badHostResult target returns v.describe), w₁, .fault (.misfit rfl), hgoes,
            fun m' _ => ?_⟩
          simp only [step, heffect, hinvoke, if_neg hty]

theorem step_goes (m : Machine) (host : Host σ) (o : Op) (s : State) (w : σ) : host.Goes w (m.step host o s w).2 := by
  obtain ⟨run, w', -, hgoes, hstep⟩ := m.step_pushesLast host o s w
  rw [hstep m rfl]
  exact hgoes

/-- A larger limit on the stack changes nothing but an overflow; the host is
    asked for the same in any case. -/
theorem step_mono (hpositions : m'.positions = m.positions) (hle : m.limits.stack ≤ m'.limits.stack) (host : Host σ)
    (o : Op) (s : State) (w : σ) :
    (m'.step host o s w).2 = (m.step host o s w).2 ∧
      ((m.step host o s w).1 = .error (.stackOverflow m.limits.stack) ∨
        (m'.step host o s w).1 = (m.step host o s w).1) := by
  obtain ⟨run, w', hlast, -, hstep⟩ := m.step_pushesLast host o s w
  rw [hstep m rfl, hstep m' hpositions]
  exact ⟨rfl, hlast.mono hle⟩

/-- The stack stays within the limit, and the number of slots is kept. -/
theorem step_frame {progress : Progress} (hstep : m.step host o s w = (.ok progress, w'))
    (hdepth : s.frame.stack.depth ≤ m.limits.stack) :
    progress.state.frame.stack.depth ≤ m.limits.stack ∧
      progress.state.frame.locals.size = s.frame.locals.size := by
  obtain ⟨run, w₁, hlast, -, heq⟩ := m.step_pushesLast host o s w
  rw [heq m rfl] at hstep
  exact hlast.frame_of_ok (fun _ => rfl) hdepth (congrArg Prod.fst hstep)

/-- A step overflows the stack, or its fault has a cause of its own. -/
theorem step_error (hstep : m.step host o s w = (.error fault, w')) :
    fault = .stackOverflow m.limits.stack ∨ m.Causes host o w w' fault := by
  obtain ⟨run, w₁, hlast, -, heq⟩ := m.step_pushesLast host o s w
  rw [heq m rfl] at hstep
  obtain ⟨hfault, rfl⟩ := Prod.mk.inj hstep
  exact hlast.of_error hfault

/-! ## Loading -/

theorem isRefusal_of_load {limits : Limits} {p : Program} (h : load limits p = .error fault) :
    fault.isRefusal = true := by
  unfold load at h
  split at h
  · cases h
    rfl
  · split at h
    · cases h
      rfl
    · split at h
      · cases h
        rfl
      · cases h

/-- What has run to its end was loaded. -/
theorem exists_load_of_run {limits : Limits} {p : Program} {outcome : Outcome}
    (h : (p.run limits host w).1 = .ok outcome) : ∃ m, load limits p = .ok m := by
  cases hload : load limits p with
  | ok m => exact ⟨m, rfl⟩
  | error fault =>
    rw [Program.run, hload] at h
    cases h

/-- In a program that is loaded every label is found. -/
theorem sound_of_load {limits : Limits} {p : Program} (h : load limits p = .ok m) : m.Sound := by
  obtain ⟨-, -, hcode, hpositions⟩ := of_load h
  have honce := (Positions.nodup_of_enter hpositions).2
  rw [Program.definitions_labels] at honce
  intro i l hl
  rw [hcode, List.getElem?_toArray] at hl
  rw [Program.positions_get? hpositions, Program.position?_eq honce hl]

/-- Every label that a loaded program jumps to is found. -/
theorem exists_position_of_load {limits : Limits} {p : Program} (h : load limits p = .ok m) (ho : o ∈ p.ops) {l : Label}
    (hl : o.references? = some l) : ∃ i, m.positions[l]? = some i := by
  unfold load at h
  split at h
  · cases h
  · split at h
    · cases h
    · next positions hpositions =>
      split at h
      · cases h
      · next hundefined =>
        cases h
        have hfound := List.find?_eq_none.mp hundefined l (List.mem_filterMap.mpr ⟨o, ho, hl⟩)
        rw [Std.HashMap.contains_eq_isSome_getElem?] at hfound
        exact Option.isSome_iff_exists.mp (by simpa using hfound)

end Machine

end FlowGraph
