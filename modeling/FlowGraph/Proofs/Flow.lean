import Mathlib.Data.Set.Insert
import FlowGraph.Proofs.Labels
import FlowGraph.Proofs.Segments

/-! # What is stored on every path

    Whether a slot is stored where a program reads it is a question about all
    paths that lead there. It is answered here without paths, in the manner
    of a type system: each label promises that some slots are stored, and
    every operation that leads to the label has to keep the promise.

    * `Flows` checks operations one after the other, `Secures` does so for
      code with labels of its own. There is one rule for each way to put code
      together.
    * `Program.executed` are the positions that a run goes through.

    Main statement: a run of code that passes the check reads a watched slot
    only after it has stored to it (`GuardedCode.loadsStored`).
-/

namespace FlowGraph

/-! ## Operations -/

namespace Op

/-- The slots that are stored where a program goes on behind an operation.
    Behind one that never goes on, anything is true. -/
def known (promised : Label → Set Nat) (before : Set Nat) : Op → Set Nat
  | .label l => promised l
  | .store slot _ => insert slot before
  | .jump _ => Set.univ
  | .ret => Set.univ
  | _ => before

/-- The operation reads no watched slot that may not be stored, and breaks no
    promise. -/
structure Allowed (watched : Set Nat) (promised : Label → Set Nat) (before : Set Nat) (o : Op) :
    Prop where
  load : ∀ slot ty, o = .load slot ty → slot ∈ watched → slot ∈ before
  label : ∀ l, o.label? = some l → promised l ⊆ before

variable {watched : Set Nat} {promised promised' : Label → Set Nat} {before before' : Set Nat} {o : Op}

theorem known_mono (h : before ⊆ before') : o.known promised before ⊆ o.known promised before' := by
  cases o with
  | store slot ty => exact Set.insert_subset_insert h
  | label l => exact subset_rfl
  | jump l => exact subset_rfl
  | ret => exact subset_rfl
  | _ => exact h

/-- Only a label can forget. -/
theorem subset_known (h : o.label? = none) : before ⊆ o.known promised before := by
  cases o with
  | label l => cases h
  | store slot ty => exact Set.subset_insert slot before
  | jump l => cases h
  | ret => exact Set.subset_univ before
  | _ => exact subset_rfl

theorem known_congr (h : ∀ l, o.label? = some l → promised l = promised' l) :
    o.known promised before = o.known promised' before := by
  cases o with
  | label l => exact h l rfl
  | _ => rfl

theorem Allowed.mono (h : o.Allowed watched promised before) (hsub : before ⊆ before') :
    o.Allowed watched promised before' :=
  ⟨fun slot ty ho hslot => hsub (h.load slot ty ho hslot), fun l hl => (h.label l hl).trans hsub⟩

theorem Allowed.congr (h : o.Allowed watched promised before)
    (heq : ∀ l, o.label? = some l → promised l = promised' l) : o.Allowed watched promised' before :=
  ⟨h.load, fun l hl => heq l hl ▸ h.label l hl⟩

end Op

/-! ## Operations one after the other -/

/-- From slots that are stored before the operations to slots that are stored
    behind them. -/
inductive Flows (watched : Set Nat) (promised : Label → Set Nat) : Set Nat → List Op → Set Nat → Prop
  | nil {before after} : after ⊆ before → Flows watched promised before [] after
  | cons {o ops before after} : o.Allowed watched promised before →
    Flows watched promised (o.known promised before) ops after →
    Flows watched promised before (o :: ops) after

namespace Flows

variable {watched : Set Nat} {promised promised' : Label → Set Nat}
  {before before' between after after' : Set Nat} {ops ops' : List Op}

theorem mono (h : Flows watched promised before ops after) (hbefore : before ⊆ before')
    (hafter : after' ⊆ after) : Flows watched promised before' ops after' := by
  induction h generalizing before' with
  | nil hsub => exact .nil (hafter.trans (hsub.trans hbefore))
  | cons hallowed _ ih => exact .cons (hallowed.mono hbefore) (ih (Op.known_mono hbefore) hafter)

theorem append (h : Flows watched promised before ops between)
    (h' : Flows watched promised between ops' after) : Flows watched promised before (ops ++ ops') after := by
  induction h with
  | nil hsub => exact h'.mono hsub subset_rfl
  | cons hallowed _ ih => exact .cons hallowed (ih h')

/-- Only the promises of labels that occur matter. -/
theorem congr (h : Flows watched promised before ops after)
    (heq : ∀ o ∈ ops, ∀ l, o.label? = some l → promised l = promised' l) :
    Flows watched promised' before ops after := by
  induction h with
  | nil hsub => exact .nil hsub
  | @cons o ops before after hallowed _ ih =>
    have ho := heq o List.mem_cons_self
    refine .cons (hallowed.congr ho) ?_
    rw [← Op.known_congr ho]
    exact ih fun o' ho' => heq o' (List.mem_cons_of_mem _ ho')

theorem label {l : Label} (h : promised l ⊆ before) (hops : Flows watched promised (promised l) ops after) :
    Flows watched promised before (.label l :: ops) after :=
  .cons ⟨nofun, fun _ hl => Option.some.inj hl ▸ h⟩ hops

theorem jump {l : Label} (h : promised l ⊆ before) (hops : Flows watched promised Set.univ ops after) :
    Flows watched promised before (.jump l :: ops) after :=
  .cons ⟨nofun, fun _ hl => Option.some.inj hl ▸ h⟩ hops

theorem jumpUnless {l : Label} (h : promised l ⊆ before)
    (hops : Flows watched promised before ops after) :
    Flows watched promised before (.jumpUnless l :: ops) after :=
  .cons ⟨nofun, fun _ hl => Option.some.inj hl ▸ h⟩ hops

theorem store (slot : Nat) (ty : Ty) :
    Flows watched promised before [.store slot ty] (insert slot before) :=
  .cons ⟨nofun, nofun⟩ (.nil subset_rfl)

/-- What is stored stays stored where there is no label. -/
theorem skip {o : Op} (hlabel : o.label? = none)
    (hload : ∀ slot ty, o = .load slot ty → slot ∈ watched → slot ∈ before)
    (hops : Flows watched promised before ops after) : Flows watched promised before (o :: ops) after := by
  refine .cons ⟨hload, fun l hl => ?_⟩ (hops.mono (Op.subset_known hlabel) subset_rfl)
  rw [hlabel] at hl
  cases hl

theorem load {slot : Nat} {ty : Ty} (h : slot ∉ watched) (hops : Flows watched promised before ops after) :
    Flows watched promised before (.load slot ty :: ops) after := by
  refine .skip rfl ?_ hops
  rintro _ _ ⟨⟩ hslot
  exact absurd hslot h

theorem straight (hlabel : ∀ o ∈ ops, o.label? = none)
    (hload : ∀ slot ty, .load slot ty ∈ ops → slot ∈ watched → slot ∈ before) :
    Flows watched promised before ops before := by
  induction ops with
  | nil => exact .nil subset_rfl
  | cons o ops ih =>
    refine .skip (hlabel o List.mem_cons_self) ?_ (ih ?_ ?_)
    · rintro slot ty rfl
      exact hload slot ty List.mem_cons_self
    · exact fun o' ho' => hlabel o' (List.mem_cons_of_mem _ ho')
    · exact fun slot ty hmem => hload slot ty (List.mem_cons_of_mem _ hmem)

/-- Code that touches no slot may jump around as it likes. -/
theorem untouched (hslot : ∀ o ∈ ops, o.touchesSlot = false) :
    Flows watched (fun _ => before) before ops before := by
  induction ops with
  | nil => exact .nil subset_rfl
  | cons o ops ih =>
    have ho := hslot o List.mem_cons_self
    have hknown : before ⊆ o.known (fun _ => before) before := by
      cases hl : o.label? with
      | none => exact Op.subset_known hl
      | some l =>
        cases o with
        | jump l => exact Set.subset_univ before
        | _ => first | exact subset_rfl | cases hl
    refine .cons ⟨?_, fun _ _ => subset_rfl⟩ ((ih ?_).mono hknown subset_rfl)
    · rintro slot ty rfl
      cases ho
    · exact fun o' ho' => hslot o' (List.mem_cons_of_mem _ ho')

/-- The check goes on from every position. -/
theorem drop (h : Flows watched promised before ops after) (i : Nat) :
    ∃ before', Flows watched promised before' (ops.drop i) after := by
  induction h generalizing i with
  | nil _ =>
    rw [List.drop_nil]
    exact ⟨_, .nil subset_rfl⟩
  | @cons o ops before after hallowed hrest ih =>
    cases i with
    | zero => exact ⟨before, .cons hallowed hrest⟩
    | succ i => exact ih i

/-- From a label it goes on with what the label promises. -/
theorem drop_label (h : Flows watched promised before ops after) {i : Nat} {l : Label}
    (hl : ops[i]? = some (.label l)) : Flows watched promised (promised l) (ops.drop i) after := by
  obtain ⟨before', hdrop⟩ := h.drop i
  obtain ⟨hi, hop⟩ := List.getElem?_eq_some_iff.mp hl
  rw [List.drop_eq_getElem_cons hi, hop] at hdrop ⊢
  cases hdrop with
  | cons _ hrest => exact .label subset_rfl hrest

end Flows

/-! ## Code with labels of its own -/

/-- The operations name only labels between the bounds. -/
def LabelsWithin (low high : Nat) (ops : List Op) : Prop :=
  ∀ o ∈ ops, ∀ l : Nat, o.label? = some l → low ≤ l ∧ l < high

/-- Code with labels between the bounds: if some slots are stored before it,
    others are behind it. -/
def Secures (watched : Set Nat) (low high : Nat) (before : Set Nat) (ops : List Op) (after : Set Nat) :
    Prop :=
  LabelsWithin low high ops ∧ ∃ promised, Flows watched promised before ops after

namespace LabelsWithin

variable {low low' high high' : Nat} {ops ops' : List Op}

theorem mono (h : LabelsWithin low high ops) (hlow : low' ≤ low) (hhigh : high ≤ high') :
    LabelsWithin low' high' ops := fun o ho l hl =>
  ⟨Nat.le_trans hlow (h o ho l hl).1, Nat.lt_of_lt_of_le (h o ho l hl).2 hhigh⟩

theorem append (h : LabelsWithin low high ops) (h' : LabelsWithin low high ops') :
    LabelsWithin low high (ops ++ ops') := by
  intro o ho
  rcases List.mem_append.mp ho with ho | ho
  · exact h o ho
  · exact h' o ho

theorem of_none (h : ∀ o ∈ ops, o.label? = none) : LabelsWithin low high ops := by
  intro o ho l hl
  rw [h o ho] at hl
  cases hl

end LabelsWithin

namespace Secures

variable {watched before between between' after : Set Nat} {low mid high : Nat} {ops ops' : List Op}

theorem straight (hlabel : ∀ o ∈ ops, o.label? = none)
    (hload : ∀ slot ty, .load slot ty ∈ ops → slot ∈ watched → slot ∈ before) :
    Secures watched low high before ops before :=
  ⟨.of_none hlabel, fun _ => ∅, .straight hlabel hload⟩

theorem store (slot : Nat) (ty : Ty) :
    Secures watched low high before [.store slot ty] (insert slot before) :=
  ⟨.of_none (by simp [Op.label?, Op.defines?, Op.references?]), fun _ => ∅, .store slot ty⟩

theorem append (h : Secures watched low mid before ops between)
    (h' : Secures watched mid high between ops' after) (hlow : low ≤ mid) (hhigh : mid ≤ high) :
    Secures watched low high before (ops ++ ops') after := by
  obtain ⟨hlabels, promised, hflows⟩ := h
  obtain ⟨hlabels', promised', hflows'⟩ := h'
  refine ⟨(hlabels.mono (Nat.le_refl _) hhigh).append (hlabels'.mono hlow (Nat.le_refl _)),
    fun l : Nat => if l < mid then promised l else promised' l, ?_⟩
  refine (hflows.congr fun o ho l hl => ?_).append (hflows'.congr fun o ho l hl => ?_)
  · rw [if_pos (hlabels o ho l hl).2]
  · rw [if_neg (Nat.not_lt.mpr (hlabels' o ho l hl).1)]

/-- Renamed labels are those behind the ones in use. -/
theorem raw (hslot : ∀ o ∈ ops, o.touchesSlot = false) (d : Draft) :
    Secures watched d.nextLabel (d.emitRaw ops).draft.nextLabel before (d.emitRaw ops).ops before := by
  simp only [Draft.emitRaw, Emission.ops, Block.toList_ops]
  refine ⟨fun o ho l hl => ?_, fun _ => before, .untouched fun o ho => ?_⟩
  · obtain ⟨o', ho', rfl⟩ := List.mem_map.mp ho
    rw [Op.label?_relabel] at hl
    obtain ⟨l', hl', rfl⟩ := Option.map_eq_some_iff.mp hl
    have hmem : l' ∈ Draft.localLabels ops :=
      List.mem_eraseDups.mpr (List.mem_filterMap.mpr ⟨o', ho', hl'⟩)
    exact ⟨Nat.le_add_right _ _, Nat.add_lt_add_left (List.idxOf_lt_length_of_mem hmem) _⟩
  · obtain ⟨o', ho', rfl⟩ := List.mem_map.mp ho
    rw [Op.touchesSlot_relabel]
    exact hslot o' ho'

/-- For two pieces of code with labels of their own there is one set of
    promises, and two labels below theirs are free to promise anything. -/
theorem exists_promised {first : Nat} {before' after' : Set Nat} (held : Set Nat)
    (h : Secures watched (first + 2) mid before ops after)
    (h' : Secures watched mid high before' ops' after') (hmid : first + 2 ≤ mid) :
    ∃ promised, promised first = held ∧ promised (first + 1) = held ∧
      Flows watched promised before ops after ∧ Flows watched promised before' ops' after' := by
  obtain ⟨hlabels, promised, hflows⟩ := h
  obtain ⟨hlabels', promised', hflows'⟩ := h'
  refine ⟨fun l : Nat => if l < first + 2 then held else if l < mid then promised l else promised' l,
    if_pos (by omega), if_pos (by omega), hflows.congr fun o ho l hl => ?_, hflows'.congr fun o ho l hl => ?_⟩
  · have hbounds := hlabels o ho l hl
    rw [if_neg (by omega), if_pos hbounds.2]
  · have hbounds := hlabels' o ho l hl
    rw [if_neg (by omega), if_neg (by omega)]

/-- What is stored ahead of the arms of a branch is stored behind it,
    whichever arm runs. -/
theorem branch {otherwise : Nat} {yes no : List Op}
    (hyes : Secures watched (otherwise + 2) mid before yes between) (hyesSub : before ⊆ between)
    (hno : Secures watched mid high before no between') (hnoSub : before ⊆ between')
    (hmid : otherwise + 2 ≤ mid) (hhigh : mid ≤ high) :
    Secures watched otherwise high before
      ([Op.jumpUnless otherwise] ++ yes ++ [Op.jump (otherwise + 1), .label otherwise] ++ no ++
        [Op.label (otherwise + 1)]) before := by
  constructor
  · have hyes := hyes.1.mono (by omega : otherwise ≤ otherwise + 2) hhigh
    have hno := hno.1.mono (by omega : otherwise ≤ mid) (Nat.le_refl high)
    refine ((LabelsWithin.append ?_ hyes).append ?_ |>.append hno).append ?_
    all_goals
      simp [LabelsWithin, Op.label?, Op.defines?, Op.references?]
      omega
  · -- both labels of the branch promise what is stored ahead of it, as either arm may be the one that runs
    obtain ⟨promised, hotherwise, hlast, hyes, hno⟩ := exists_promised before hyes hno hmid
    have htest : Flows watched promised before [.jumpUnless otherwise] before :=
      .jumpUnless hotherwise.subset (.nil subset_rfl)
    have hbetween : Flows watched promised between [.jump (otherwise + 1), .label otherwise] before :=
      .jump (hlast.subset.trans hyesSub) (.label (Set.subset_univ _) (.nil hotherwise.superset))
    have hend : Flows watched promised between' [.label (otherwise + 1)] before :=
      .label (hlast.subset.trans hnoSub) (.nil hlast.superset)
    exact ⟨promised, (((htest.append hyes).append hbetween).append hno).append hend⟩

/-- What is stored ahead of the body of a loop is stored behind the loop,
    whether or not the body runs, and each time that it does. -/
theorem loop {slot head : Nat} {ahead body : List Op} (hlimit : slot ∉ watched)
    (hcounter : slot + 1 ∉ watched) (hahead : Secures watched (head + 2) mid before ahead between)
    (hbody : Secures watched mid high between body between') (hsub : between ⊆ between')
    (hmid : head + 2 ≤ mid) (hhigh : mid ≤ high) :
    Secures watched head high before
      (loopStart slot ++ ahead ++ loopTest slot head ++ body ++ loopEnd slot head) between := by
  constructor
  · have hahead := hahead.1.mono (by omega : head ≤ head + 2) hhigh
    have hbody := hbody.1.mono (by omega : head ≤ mid) (Nat.le_refl high)
    refine ((LabelsWithin.append ?_ hahead).append ?_ |>.append hbody).append ?_
    all_goals
      simp [LabelsWithin, loopStart, loopTest, loopEnd, Op.label?, Op.defines?, Op.references?]
    all_goals omega
  · -- both labels of the loop promise what is stored ahead of its body
    obtain ⟨promised, hhead, hexit, hahead, hbody⟩ := exists_promised between hahead hbody hmid
    have hstart : Flows watched promised before (loopStart slot) before :=
      .straight (by simp [loopStart, Op.label?, Op.defines?, Op.references?]) (by simp [loopStart])
    have htest : Flows watched promised between (loopTest slot head) between := by
      refine .label hhead.subset (.load hcounter (.load hlimit ?_))
      refine .skip rfl (by simp) (.jumpUnless ?_ (.nil ?_))
      · exact (hexit.trans hhead.symm).subset
      · exact hhead.superset
    have hend : Flows watched promised between' (loopEnd slot head) between := by
      -- the counter is read, goes up and is stored, before the jump back to the test
      refine .load hcounter (.skip rfl (by simp) (.skip rfl (by simp) (.skip rfl (by simp) ?_)))
      refine .jump ?_ (.label ?_ (.nil ?_))
      · exact hhead.subset.trans hsub
      · exact Set.subset_univ _
      · exact hexit.superset
    exact ⟨promised, (((hstart.append hahead).append htest).append hbody).append hend⟩

end Secures

/-! ## Runs -/

section

variable {σ : Type} {m : Machine} {host : Host σ}

namespace Machine

/-- The positions of the operations that a run executes, in order. One that
    faults is the last. -/
def executed (m : Machine) (host : Host σ) : Nat → State → σ → List Nat
  | 0, _, _ => []
  | left + 1, s, w =>
    match m.code[s.pc]? with
    | none => []
    | some op =>
      s.pc :: match m.step host op s w with
        | (.ok (.running s), w) => m.executed host left s w
        | _ => []

/-- Pushing what the host gives, a run goes on at the next operation. -/
theorem running_of_push {limit pc steps : Nat} {f : Frame} {v : Value} {s : State}
    (h : (fun f => Progress.running ⟨pc, steps, f⟩) <$> f.push limit v = .ok (.running s)) :
    s.pc = pc ∧ s.steps = steps := by
  cases hpush : f.push limit v with
  | error fault =>
    rw [hpush] at h
    cases h
  | ok f' =>
    rw [hpush] at h
    cases h
    exact ⟨rfl, rfl⟩

/-- A run goes on at the next operation, unless it jumps to a label. -/
theorem step_running {op : Op} {s s' : State} {w w' : σ}
    (h : m.step host op s w = (.ok (.running s'), w')) :
    s'.steps = s.steps + 1 ∧ (s'.pc = s.pc + 1 ∧ op ≠ .ret ∧ (∀ l, op ≠ .jump l) ∨
      ∃ l, op.references? = some l ∧ m.positions[l]? = some s'.pc) := by
  obtain ⟨pc, steps, frame⟩ := s
  simp only [step] at h
  -- neither a jump nor a return has another effect than its own
  have hnext {effect : Effect} (heffect : op.effect m.limits.stack frame = .ok effect)
      (hgoto : ∀ l f, effect ≠ .goto l f) (hhalt : ∀ f, effect ≠ .halt f) :
      op ≠ .ret ∧ ∀ l, op ≠ .jump l := by
    constructor
    · rintro rfl
      cases heffect
      exact hhalt _ rfl
    · rintro l rfl
      cases heffect
      exact hgoto _ _ rfl
  split at h
  · cases h
  · next f heffect =>
    cases h
    exact ⟨rfl, .inl ⟨rfl, hnext heffect (by simp) (by simp)⟩⟩
  · next l f heffect =>
    split at h
    · next hposition =>
      cases h
      exact ⟨rfl, .inr ⟨l, Op.effect_goto heffect, hposition⟩⟩
    · cases h
  · cases h
  · next owner name ty f heffect =>
    split at h
    · cases h
    · split at h
      · obtain ⟨hpc, hsteps⟩ := running_of_push (Prod.mk.inj h).1
        exact ⟨hsteps, .inl ⟨hpc, hnext heffect (by simp) (by simp)⟩⟩
      · cases h
  · next target args returns f heffect =>
    split at h
    · cases h
    · split at h
      · cases h
        exact ⟨rfl, .inl ⟨rfl, hnext heffect (by simp) (by simp)⟩⟩
      · cases h
    · split at h
      · obtain ⟨hpc, hsteps⟩ := running_of_push (Prod.mk.inj h).1
        exact ⟨hsteps, .inl ⟨hpc, hnext heffect (by simp) (by simp)⟩⟩
      · cases h

/-- A run ends only where it returns. -/
theorem step_halted {op : Op} {s s' : State} {w w' : σ}
    (h : m.step host op s w = (.ok (.halted s'), w')) : op = .ret ∧ s'.steps = s.steps + 1 := by
  have hpush {limit pc steps : Nat} {f : Frame} {v : Value} :
      (fun f => Progress.running ⟨pc, steps, f⟩) <$> f.push limit v ≠ .ok (.halted s') := by
    cases f.push limit v <;> nofun
  obtain ⟨pc, steps, frame⟩ := s
  simp only [step] at h
  split at h
  · cases h
  · cases h
  · split at h <;> cases h
  · next heffect =>
    -- only a return has an effect that halts
    cases h
    exact ⟨Op.effect_halt heffect, rfl⟩
  · split at h
    · cases h
    · split at h
      · exact absurd (Prod.mk.inj h).1 hpush
      · cases h
  · split at h
    · cases h
    · split at h <;> cases h
    · split at h
      · exact absurd (Prod.mk.inj h).1 hpush
      · cases h

/-- A run counts what it executes. -/
theorem length_executed {left : Nat} {s : State} {w w' : σ} {outcome : Outcome}
    (h : m.run host left s w = (.ok outcome, w')) :
    outcome.steps = s.steps + (m.executed host left s w).length := by
  induction left generalizing s w with
  | zero =>
    rw [run] at h
    split at h
    · cases h
      rfl
    · cases h
  | succ left ih =>
    rw [run] at h
    rw [executed]
    cases hop : m.code[s.pc]? with
    | none =>
      simp only [hop] at h
      cases h
      rfl
    | some op =>
      simp only [hop] at h ⊢
      rcases hstep : m.step host op s w with ⟨fault | ⟨s₁⟩ | ⟨s₁⟩, w₁⟩
      · simp [hstep] at h
      · simp only [hstep] at h ⊢
        rw [ih h, (step_running hstep).1, List.length_cons]
        omega
      · simp only [hstep] at h
        cases h
        exact (step_halted hstep).2

end Machine

/-- The table of a loaded program leads to labels. -/
theorem Machine.positions_of_load {limits : Limits} {p : Program} (h : load limits p = .ok m) :
    m.code = p.ops.toArray ∧
      ∀ (l : Label) (i : Nat), m.positions[l]? = some i → p.ops[i]? = some (.label l) := by
  obtain ⟨-, -, hcode, hpositions⟩ := of_load h
  refine ⟨hcode, fun l i hi => ?_⟩
  -- the table agrees with a search for the label from the start of the program
  rw [Program.positions_get? hpositions, Program.position?, List.findIdx?_eq_some_iff_getElem] at hi
  obtain ⟨hlt, hdefines, -⟩ := hi
  rw [List.getElem?_eq_getElem hlt]
  cases hop : p.ops[i] <;> simp_all [Op.defines?]

/-- The positions of the operations that a run of the program executes, in
    order. -/
def Program.executed (p : Program) (limits : Limits) (host : Host σ) (w : σ) : List Nat :=
  match Machine.load limits p with
  | .error _ => []
  | .ok m => m.executed host limits.steps m.start w

/-! ## Runs of code that passes the check -/

/-- Code that passes the check, behind a prologue that reads no slot. -/
structure GuardedCode where
  watched : Set Nat
  prologue : List Op
  code : List Op
  promised : Label → Set Nat
  after : Set Nat
  labels : ∀ o ∈ prologue, o.label? = none
  loads : ∀ slot ty, .load slot ty ∉ prologue
  flows : Flows watched promised ∅ code after

namespace GuardedCode

variable {g : GuardedCode} {past : List Nat} {pc : Nat}

def ops (g : GuardedCode) : List Op := g.prologue ++ g.code

/-- The slots that the code stores at these positions. What the prologue
    stores does not count. -/
def storedBy (g : GuardedCode) (past : List Nat) : Set Nat :=
  { slot | ∃ pc ∈ past, g.prologue.length ≤ pc ∧ ∃ ty, g.ops[pc]? = some (.store slot ty) }

theorem storedBy_snoc (g : GuardedCode) (past : List Nat) (pc : Nat) :
    g.storedBy past ⊆ g.storedBy (past ++ [pc]) := by
  rintro slot ⟨pc', hpc', h⟩
  exact ⟨pc', List.mem_append_left _ hpc', h⟩

/-- Watched slots are read only after the code has stored to them. -/
def LoadsStored (g : GuardedCode) (trace : List Nat) : Prop :=
  ∀ (past : List Nat) (pc : Nat) (rest : List Nat), trace = past ++ pc :: rest →
    ∀ slot ty, g.ops[pc]? = some (.load slot ty) → slot ∈ g.watched → slot ∈ g.storedBy past

theorem LoadsStored.snoc (h : g.LoadsStored past)
    (hload : ∀ slot ty, g.ops[pc]? = some (.load slot ty) → slot ∈ g.watched → slot ∈ g.storedBy past) :
    g.LoadsStored (past ++ [pc]) := by
  intro past' pc' rest heq
  rcases List.eq_nil_or_concat rest with rfl | ⟨rest, last, rfl⟩
  · obtain ⟨rfl, hpc⟩ := List.append_inj' heq rfl
    cases hpc
    exact hload
  · rw [List.concat_eq_append, ← List.cons_append, ← List.append_assoc] at heq
    exact h past' pc' rest (List.append_inj' heq rfl).1

/-- Where a run stands: in the prologue, or at a position from which the check
    goes on with slots that have been stored. -/
def Stands (g : GuardedCode) (past : List Nat) (pc : Nat) : Prop :=
  pc < g.prologue.length ∨ g.prologue.length ≤ pc ∧
    ∃ before ⊆ g.storedBy past, Flows g.watched g.promised before (g.code.drop (pc - g.prologue.length)) g.after

/-- The code starts with nothing stored. -/
theorem stands_start (g : GuardedCode) (past : List Nat) : g.Stands past g.prologue.length := by
  refine .inr ⟨Nat.le_refl _, ∅, Set.empty_subset _, ?_⟩
  rw [Nat.sub_self]
  exact g.flows

/-- An operation of the code passes the check. -/
theorem flows_at {before : Set Nat} {o : Op} (hpc : g.prologue.length ≤ pc) (hop : g.ops[pc]? = some o)
    (h : Flows g.watched g.promised before (g.code.drop (pc - g.prologue.length)) g.after) :
    o.Allowed g.watched g.promised before ∧
      Flows g.watched g.promised (o.known g.promised before) (g.code.drop (pc + 1 - g.prologue.length)) g.after := by
  rw [ops, List.getElem?_append_right hpc] at hop
  obtain ⟨hi, hop⟩ := List.getElem?_eq_some_iff.mp hop
  rw [List.drop_eq_getElem_cons hi, hop] at h
  cases h with
  | cons hallowed hrest =>
    rw [show pc + 1 - g.prologue.length = pc - g.prologue.length + 1 by omega]
    exact ⟨hallowed, hrest⟩

/-- A run that reads a watched slot has stored to it. -/
theorem Stands.load (h : g.Stands past pc) {slot : Nat} {ty : Ty} (hop : g.ops[pc]? = some (.load slot ty))
    (hslot : slot ∈ g.watched) : slot ∈ g.storedBy past := by
  rcases h with hpc | ⟨hpc, before, hbefore, hflows⟩
  · rw [ops, List.getElem?_append_left hpc] at hop
    exact absurd (List.mem_of_getElem? hop) (g.loads slot ty)
  · exact hbefore ((flows_at hpc hop hflows).1.load slot ty rfl hslot)

/-- What is known behind an operation that goes on has been stored. -/
theorem known_subset {before : Set Nat} {o : Op} (hpc : g.prologue.length ≤ pc)
    (hop : g.ops[pc]? = some o) (hbefore : before ⊆ g.storedBy past)
    (hallowed : o.Allowed g.watched g.promised before) (hret : o ≠ .ret) (hjump : ∀ l, o ≠ .jump l) :
    o.known g.promised before ⊆ g.storedBy (past ++ [pc]) := by
  have hsub := hbefore.trans (g.storedBy_snoc past pc)
  -- a label forgets all but its promise, only a store adds to what is known
  cases o with
  | label l => exact (hallowed.label l rfl).trans hsub
  | store slot ty =>
    refine Set.insert_subset ?_ hsub
    exact ⟨pc, List.mem_append_right _ List.mem_cons_self, hpc, ty, hop⟩
  | jump l => exact absurd rfl (hjump l)
  | ret => exact absurd rfl hret
  | _ => exact hsub

theorem Stands.next (h : g.Stands past pc) {o : Op} (hop : g.ops[pc]? = some o) (hret : o ≠ .ret)
    (hjump : ∀ l, o ≠ .jump l) : g.Stands (past ++ [pc]) (pc + 1) := by
  rcases h with hpc | ⟨hpc, before, hbefore, hflows⟩
  · by_cases hend : pc + 1 < g.prologue.length
    · exact .inl hend
    · rw [show pc + 1 = g.prologue.length by omega]
      exact g.stands_start _
  · obtain ⟨hallowed, hrest⟩ := flows_at hpc hop hflows
    exact .inr ⟨by omega, _, known_subset hpc hop hbefore hallowed hret hjump, hrest⟩

theorem Stands.jump (h : g.Stands past pc) {target : Nat} {o : Op} {l : Label} (hop : g.ops[pc]? = some o)
    (hlabel : o.label? = some l) (htarget : g.ops[target]? = some (.label l)) :
    g.Stands (past ++ [pc]) target := by
  -- there are no labels in the prologue, so the target is in the code
  have hle : g.prologue.length ≤ target := by
    by_contra hlt
    rw [ops, List.getElem?_append_left (Nat.not_le.mp hlt)] at htarget
    cases g.labels _ (List.mem_of_getElem? htarget)
  rw [ops, List.getElem?_append_right hle] at htarget
  rcases h with hpc | ⟨hpc, before, hbefore, hflows⟩
  · rw [ops, List.getElem?_append_left hpc] at hop
    rw [g.labels o (List.mem_of_getElem? hop)] at hlabel
    cases hlabel
  · have hpromise := (flows_at hpc hop hflows).1.label l hlabel
    exact .inr ⟨hle, _, hpromise.trans (hbefore.trans (g.storedBy_snoc past pc)), g.flows.drop_label htarget⟩

/-- A step of the machine leads from one such position to another. -/
theorem Stands.step (hpositions : ∀ (l : Label) (i : Nat), m.positions[l]? = some i → g.ops[i]? = some (.label l))
    {s s' : Machine.State} {w w' : σ} {op : Op} (h : g.Stands past s.pc) (hop : g.ops[s.pc]? = some op)
    (hstep : m.step host op s w = (.ok (.running s'), w')) : g.Stands (past ++ [s.pc]) s'.pc := by
  rcases (Machine.step_running hstep).2 with ⟨hpc, hret, hjump⟩ | ⟨l, href, hposition⟩
  · rw [hpc]
    exact h.next hop hret hjump
  · exact h.jump hop (Op.label?_of_references? href) (hpositions l _ hposition)

/-- So does a run, and it reads on the way only what has been stored. -/
theorem Stands.run (hcode : m.code = g.ops.toArray)
    (hpositions : ∀ (l : Label) (i : Nat), m.positions[l]? = some i → g.ops[i]? = some (.label l))
    {left : Nat} {s : Machine.State} {w : σ} (h : g.Stands past s.pc) (hpast : g.LoadsStored past) :
    g.LoadsStored (past ++ m.executed host left s w) := by
  induction left generalizing past s w with
  | zero => simpa [Machine.executed] using hpast
  | succ left ih =>
    rw [Machine.executed]
    cases hop : m.code[s.pc]? with
    | none => simpa using hpast
    | some op =>
      rw [hcode, List.getElem?_toArray] at hop
      -- the operation is on record from here on, however it ends
      have hpast' : g.LoadsStored (past ++ [s.pc]) := hpast.snoc fun slot ty => h.load
      rcases hstep : m.step host op s w with ⟨fault | ⟨s₁⟩ | ⟨s₁⟩, w₁⟩
      · simpa [hstep] using hpast'
      · have hrest := ih (h.step hpositions hop hstep) hpast' (w := w₁)
        simpa [hstep] using hrest
      · simpa [hstep] using hpast'

/-- No run reads a watched slot before the code has stored to it. -/
theorem loadsStored (g : GuardedCode) (locals : Nat) (limits : Limits) (host : Host σ) (w : σ) :
    g.LoadsStored ((Program.mk g.ops locals).executed limits host w) := by
  have hnil : g.LoadsStored [] := by
    intro past pc rest heq
    simp at heq
  unfold Program.executed
  cases hload : Machine.load limits ⟨g.ops, locals⟩ with
  | error fault => exact hnil
  | ok m =>
    obtain ⟨hcode, hpositions⟩ := Machine.positions_of_load hload
    have hstart : g.Stands [] m.start.pc := by
      rcases Nat.eq_zero_or_pos g.prologue.length with hzero | hpos
      · have hstart := g.stands_start []
        rwa [hzero] at hstart
      · exact .inl hpos
    exact hstart.run hcode hpositions hnil

end GuardedCode

end

end FlowGraph
