import FlowGraph.Proofs.Steps
import Mathlib

/-! # Other names for labels

    What labels are called does not matter. A program whose labels get other
    names, different ones for different labels, is loaded under the same limits
    and does the same with every host. A program that is refused is refused for
    the same reason, which tells the new name.

    * `Positions.Renamed` compares the tables of positions; entering definitions
      under other names keeps to it (`Positions.enter_relabel`).
    * `Machine.Relabelled` compares the machines. They take the same steps.

    Main statement: `Program.run_relabel`.
-/

namespace FlowGraph

variable {σ : Type} {f : Label → Label} {names : Set Label}

/-- The fault with another name for its label. -/
def Fault.relabel (f : Label → Label) : Fault → Fault
  | .unknownLabel l => .unknownLabel (f l)
  | .duplicateLabel l => .duplicateLabel (f l)
  | fault => fault

namespace Program

/-- The program with other names for its labels. -/
def relabel (f : Label → Label) (p : Program) : Program := { p with ops := p.ops.map (Op.relabel f) }

/-- The labels that occur in the program, defined or jumped to. -/
def labels (p : Program) : Set Label := {l | ∃ o ∈ p.ops, o.label? = some l}

theorem definitions_relabel (f : Label → Label) (p : Program) :
    (p.relabel f).definitions = p.definitions.map (Prod.map f id) := by
  unfold definitions relabel
  rw [List.zipIdx_map, List.filterMap_map, List.map_filterMap]
  refine congrArg (List.filterMap · _) (funext fun entry => ?_)
  simp only [Function.comp_apply, Prod.map_fst, Prod.map_snd, Op.defines?_relabel, Option.map_map]
  rfl

theorem mem_labels_of_definitions {p : Program} {l : Label} {position : Nat} (h : (l, position) ∈ p.definitions) :
    l ∈ p.labels := by
  have hdefined : l ∈ p.ops.filterMap Op.defines? := by
    rw [← definitions_labels]
    exact List.mem_map_of_mem h
  obtain ⟨o, ho, hdefines⟩ := List.mem_filterMap.mp hdefined
  exact ⟨o, ho, Op.label?_of_defines? hdefines⟩

end Program

/-! ## Tables of positions -/

namespace Positions

/-- The second table has under the new names what the first has under the old
    ones. -/
def Renamed (f : Label → Label) (names : Set Label) (table table' : Positions) : Prop :=
  ∀ l ∈ names, table'[f l]? = table[l]?

variable {table table' : Positions} {l : Label}

theorem Renamed.contains (h : Renamed f names table table') (hl : l ∈ names) :
    table'.contains (f l) = table.contains l := by
  rw [Std.HashMap.contains_eq_isSome_getElem?, Std.HashMap.contains_eq_isSome_getElem?, h l hl]

theorem Renamed.insert (hinj : Set.InjOn f names) (h : Renamed f names table table') (hl : l ∈ names) (position : Nat) :
    Renamed f names (table.insert l position) (table'.insert (f l) position) := by
  intro l' hl'
  rw [Std.HashMap.getElem?_insert, Std.HashMap.getElem?_insert]
  by_cases hsame : l = l'
  · simp [hsame]
  · have hother : f l ≠ f l' := by
      intro heq
      exact hsame (hinj hl hl' heq)
    simp [hsame, hother, h l' hl']

/-- Definitions are entered under the new names as they are under the old
    ones, up to the first label that is there already. -/
theorem enter_relabel (hinj : Set.InjOn f names) {definitions : List (Label × Nat)}
    (hnames : ∀ entry ∈ definitions, entry.1 ∈ names) (h : Renamed f names table table') :
    (∃ l, enter definitions table = .error l ∧ enter (definitions.map (Prod.map f id)) table' = .error (f l)) ∨
      ∃ result result', enter definitions table = .ok result ∧
        enter (definitions.map (Prod.map f id)) table' = .ok result' ∧ Renamed f names result result' := by
  induction definitions generalizing table table' with
  | nil => exact .inr ⟨table, table', rfl, rfl, h⟩
  | cons head rest ih =>
    obtain ⟨l, position⟩ := head
    have hl : l ∈ names := hnames (l, position) List.mem_cons_self
    simp only [List.map_cons, Prod.map_apply, id_eq, enter, h.contains hl]
    by_cases hthere : table.contains l = true
    · left
      exact ⟨l, if_pos hthere, if_pos hthere⟩
    · rw [if_neg hthere, if_neg hthere]
      exact ih (fun entry hentry => hnames entry (List.mem_cons_of_mem _ hentry)) (h.insert hinj hl position)

end Positions

namespace Program

/-- The first label that is not defined is the same one. -/
theorem undefinedLabel?_relabel {p : Program} {table table' : Positions}
    (h : Positions.Renamed f p.labels table table') :
    (p.relabel f).undefinedLabel? table' = (p.undefinedLabel? table).map f := by
  unfold undefinedLabel? relabel
  rw [Op.filterMap_references?_relabel, List.find?_map]
  refine congrArg (Option.map f) (List.find?_congr fun l hl => ?_)
  obtain ⟨o, ho, hreferences⟩ := List.mem_filterMap.mp hl
  simp only [Function.comp_apply, h.contains ⟨o, ho, Op.label?_of_references? hreferences⟩]

end Program

/-! ## Machines -/

namespace Machine

variable {m m' : Machine} {limits : Limits} {p : Program}

/-- The second machine has the code of the first under other names, and finds
    the labels where the first does. -/
structure Relabelled (f : Label → Label) (m m' : Machine) : Prop where
  limits : m'.limits = m.limits
  code : m'.code = m.code.map (Op.relabel f)
  start : m'.start = m.start
  /-- Every jump has a target, the same one in both. -/
  target : ∀ o ∈ m.code, ∀ l, o.references? = some l → ∃ i, m.positions[l]? = some i ∧ m'.positions[f l]? = some i

/-- Programs are loaded or refused alike. -/
theorem load_relabel (hinj : Set.InjOn f p.labels) (limits : Limits) :
    (∃ fault, load limits p = .error fault ∧ load limits (p.relabel f) = .error (fault.relabel f)) ∨
      ∃ m m', load limits p = .ok m ∧ load limits (p.relabel f) = .ok m' ∧ Relabelled f m m' := by
  have hlocals : (p.relabel f).locals = p.locals := rfl
  -- the checks in their order: locals, labels defined twice, labels not defined
  by_cases hfits : limits.locals < p.locals
  · left
    refine ⟨_, if_pos hfits, ?_⟩
    unfold load
    rw [hlocals, if_pos hfits]
    rfl
  have henter := Positions.enter_relabel hinj (fun entry hentry => Program.mem_labels_of_definitions hentry)
    (fun l _ => by simp : Positions.Renamed f p.labels {} {})
  rw [← Program.definitions_relabel] at henter
  rcases henter with ⟨l, hl, hl'⟩ | ⟨table, table', htable, htable', hrenamed⟩
  · left
    refine ⟨.duplicateLabel l, ?_, ?_⟩
    · simp only [load, if_neg hfits, Program.positions, hl]
    · simp only [load, hlocals, if_neg hfits, Program.positions, hl', Fault.relabel]
  · have hundefined := Program.undefinedLabel?_relabel hrenamed
    cases hsome : p.undefinedLabel? table with
    | some l =>
      left
      rw [hsome] at hundefined
      refine ⟨.unknownLabel l, ?_, ?_⟩
      · simp only [load, if_neg hfits, Program.positions, htable, hsome]
      · simp only [load, hlocals, if_neg hfits, Program.positions, htable', hundefined, Option.map_some, Fault.relabel]
    | none =>
      right
      rw [hsome] at hundefined
      have hload : load limits p = .ok ⟨limits, p, p.ops.toArray, table⟩ := by
        simp only [load, if_neg hfits, Program.positions, htable, hsome]
      refine ⟨_, ⟨limits, p.relabel f, (p.relabel f).ops.toArray, table'⟩, hload, ?_, rfl, ?_, rfl, ?_⟩
      · simp only [load, hlocals, if_neg hfits, Program.positions, htable', hundefined, Option.map_none]
      · exact (List.map_toArray).symm
      · intro o ho l hl
        have hop : o ∈ p.ops := List.mem_toArray.mp ho
        obtain ⟨i, hi⟩ := exists_position_of_load hload hop hl
        refine ⟨i, hi, ?_⟩
        rw [← hi]
        exact hrenamed l ⟨o, hop, Op.label?_of_references? hl⟩

namespace Relabelled

/-- The machines take the same steps. -/
theorem step_eq (h : Relabelled f m m') (host : Host σ) {o : Op} (ho : o ∈ m.code) (s : State) (w : σ) :
    m'.step host (o.relabel f) s w = m.step host o s w := by
  simp only [step, h.limits, Op.effect_relabel]
  rcases heffect : o.effect m.limits.stack s.frame with fault | _ | ⟨l, f₁⟩ | _ | _ | _
  · rfl
  · rfl
  · -- only a jump looks a label up
    obtain ⟨i, hi, hi'⟩ := h.target o ho l (Op.effect_goto heffect)
    simp only [Except.map, Effect.relabel, hi, hi']
  · rfl
  · rfl
  · rfl

/-- So they run alike, from every state. -/
theorem run_eq (h : Relabelled f m m') (host : Host σ) (left : Nat) (s : State) (w : σ) :
    m'.run host left s w = m.run host left s w := by
  have hcode (pc : Nat) : m'.code[pc]? = m.code[pc]?.map (Op.relabel f) := by rw [h.code, Array.getElem?_map]
  induction left generalizing s w with
  | zero =>
    simp only [run, h.limits, hcode]
    cases m.code[s.pc]? <;> rfl
  | succ left ih =>
    simp only [run, hcode]
    cases hop : m.code[s.pc]? with
    | none => rfl
    | some o =>
      simp only [Option.map_some, h.step_eq host (Array.mem_of_getElem? hop)]
      rcases m.step host o s w with ⟨fault | ⟨s₁⟩ | ⟨s₁⟩, w₁⟩
      · rfl
      · exact ih s₁ w₁
      · rfl

end Relabelled

end Machine

/-! ## Programs -/

namespace Program

/-- With other names for its labels, a program is loaded under the same limits
    or refused for the same reason, and it does the same with every host. -/
theorem run_relabel {p : Program} (hinj : Set.InjOn f p.labels) (limits : Limits) :
    (∀ fault, Machine.load limits p = .error fault →
      Machine.load limits (p.relabel f) = .error (fault.relabel f)) ∧
    ∀ m, Machine.load limits p = .ok m →
      (∃ m', Machine.load limits (p.relabel f) = .ok m') ∧
      ∀ (σ : Type) (host : Host σ) (w : σ), (p.relabel f).run limits host w = p.run limits host w ∧
        (p.relabel f).asked limits host w = p.asked limits host w := by
  constructor
  · intro fault hload
    rcases Machine.load_relabel hinj limits with ⟨fault', herror, herror'⟩ | ⟨m, -, hok, -⟩
    · rw [hload] at herror
      cases herror
      exact herror'
    · rw [hload] at hok
      cases hok
  · intro m hload
    rcases Machine.load_relabel hinj limits with ⟨fault, herror, -⟩ | ⟨m₁, m', hok, hok', hrelabelled⟩
    · rw [hload] at herror
      cases herror
    · rw [hload] at hok
      cases hok
      have hrun {τ : Type} (host : Host τ) (w : τ) : (p.relabel f).run limits host w = p.run limits host w := by
        simp only [run, hload, hok', hrelabelled.start]
        exact hrelabelled.run_eq host limits.steps m.start w
      refine ⟨⟨m', hok'⟩, fun σ host w => ⟨hrun host w, ?_⟩⟩
      unfold asked
      rw [hrun]

/-- Shows once, and leaves the loop in the second turn. -/
def turning : Program where
  ops := [.const (.boolean true), .label 3, .jumpUnless 10, .invoke "show" 0 .void, .const (.boolean false), .jump 3,
    .label 10, .ret]
  locals := 0

/-- Jumps to a label that is not there. -/
def astray : Program where
  ops := [.label 10, .jump 3]
  locals := 0

/-- Labels up to ten keep apart if they are counted from there. -/
theorem injOn_labels {p : Program} (h : (p.ops.all fun o => o.label?.all fun l => decide (l ≤ 10)) = true) :
    Set.InjOn (10 - ·) p.labels := by
  have hle : ∀ l ∈ p.labels, l ≤ 10 := by
    rintro l ⟨o, ho, hl⟩
    have hop := List.all_eq_true.mp h o ho
    rw [hl] at hop
    exact of_decide_eq_true hop
  intro l hl l' hl' heq
  exact (tsub_right_inj (hle l hl) (hle l' hl')).mp heq

theorem run_relabel_turning :
    Set.InjOn (10 - ·) turning.labels ∧ Set.InjOn (10 - ·) astray.labels ∧
    (∃ m', Machine.load {} (turning.relabel (10 - ·)) = .ok m') ∧
    (turning.relabel (10 - ·)).run {} Script.host .empty =
      (.ok ⟨[], 10⟩, { Script.empty with calls := #[⟨"show", []⟩] }) ∧
    (turning.relabel (10 - ·)).asked {} Script.host .empty = turning.asked {} Script.host .empty ∧
    Machine.load {} astray = .error (.unknownLabel 3) ∧
    Machine.load {} (astray.relabel (10 - ·)) = .error (.unknownLabel 7) := by
  have hturning : Set.InjOn (10 - ·) turning.labels := injOn_labels rfl
  have hastray : Set.InjOn (10 - ·) astray.labels := injOn_labels rfl
  have hresult : turning.run {} Script.host .empty =
      (.ok ⟨[], 10⟩, { Script.empty with calls := #[⟨"show", []⟩] }) := by cbv
  have hlost : Machine.load {} astray = .error (.unknownLabel 3) := by cbv
  obtain ⟨m, hload⟩ := Machine.exists_load_of_run (congrArg Prod.fst hresult)
  obtain ⟨hloads, hruns⟩ := (run_relabel hturning {}).2 m hload
  obtain ⟨hrun, hasked⟩ := hruns Script Script.host .empty
  exact ⟨hturning, hastray, hloads, hrun.trans hresult, hasked, hlost, (run_relabel hastray {}).1 _ hlost⟩

end Program

end FlowGraph
