import FlowGraph.Proofs.Execution
import FlowGraph.Proofs.Recording

/-! # Programs of graphs do not go wrong

    A program that comes from a graph faults only for a reason outside of
    it: a limit of the machine, or a failure of the host. It never takes a
    value from an empty stack, reads a slot that was not written, meets a
    value of the wrong type, dereferences null or jumps to a label that is
    not there, and it ends with an empty stack (`Graph.run_sound`).

    That nothing else fails is an account like any other. It holds nothing
    against a value that is computed ahead or only once.
-/

namespace FlowGraph

variable {σ α β : Type}

/-- The fault says that the program, or an answer to it, is not as it should be. -/
def Fault.isDefect : Fault → Bool
  | .stackUnderflow => true
  | .slotOutOfRange _ => true
  | .uninitializedLocal _ => true
  | .typeMismatch _ _ _ => true
  | .nullReference => true
  | .classCast _ _ => true
  | .unknownLabel _ => true
  | .duplicateLabel _ => true
  | .badHostResult _ _ _ => true
  | _ => false

theorem Fault.isDefect_of_isLimit {fault : Fault} (h : fault.isLimit = true) : fault.isDefect = false := by
  cases fault <;> simp_all [isLimit, isDefect]

/-! ## Conforming hosts -/

/-- From the states of `I` the host leads to no others, and what it gives to
    those who ask is of the expected type. It may fail. -/
structure Host.Conforming (host : Host σ) (asks : String → Ty → Prop) (reads : String → String → Prop)
    (I : σ → Prop) : Prop where
  invoke (target args returns w) : I w → I (host.invoke target args returns w).2
  readStatic (owner name w) : I w → I (host.readStatic owner name w).2
  answer {target args returns w result} : asks target returns → I w →
    (host.invoke target args returns w).1 = .ok result → ∃ v, result = some v ∧ v.conforms returns = true
  command {target args w result} : I w → (host.invoke target args .void w).1 = .ok result → result = none
  field {owner name w v} : reads owner name → I w → (host.readStatic owner name w).1 = .ok v →
    v.conforms .double = true

/-- From a state of `I` an operation of the host fails in this way, and leaves
    it in this state. -/
inductive Host.Raises (host : Host σ) (I : σ → Prop) (fault : Fault) (w' : σ) : Prop
  | invoke {target args returns w} : I w → host.invoke target args returns w = (.error fault, w') →
    Raises host I fault w'
  | readStatic {owner name w} : I w → host.readStatic owner name w = (.error fault, w') →
    Raises host I fault w'

theorem Host.Raises.mono {host : Host σ} {I J : σ → Prop} {fault : Fault} {w' : σ} (h : host.Raises I fault w')
    (hIJ : ∀ w, I w → J w) : host.Raises J fault w' := by
  cases h with
  | invoke hI hinvoke => exact .invoke (hIJ _ hI) hinvoke
  | readStatic hI hread => exact .readStatic (hIJ _ hI) hread

/-- What raises the fault in a recorded host is the last operation of the
    record. -/
theorem Host.Raises.fails {host : Host σ} {I : σ → Prop} {w : σ} {fault : Fault} {s : σ × List HostOp}
    (h : host.recorded.Raises (fun s => I s.1 ∧ host.Recalls w s) fault s) : host.Fails I s.2 w fault s.1 := by
  cases h with
  | @invoke target args returns t ht hinvoke =>
    obtain ⟨hI, hrecalls⟩ := ht
    have hlast := congrArg (fun r => (r.1.map fun _ => (), r.2.1)) hinvoke
    cases congrArg Prod.snd hinvoke
    refine ⟨t.2, .invoke target args returns, rfl, hrecalls ▸ hI, ?_⟩
    rw [← hrecalls]
    exact hlast
  | @readStatic owner name t ht hread =>
    obtain ⟨hI, hrecalls⟩ := ht
    have hlast := congrArg (fun r => (r.1.map fun _ => (), r.2.1)) hread
    cases congrArg Prod.snd hread
    refine ⟨t.2, .readStatic owner name, rfl, hrecalls ▸ hI, ?_⟩
    rw [← hrecalls]
    exact hlast

/-- The operation that fails raises the fault. -/
theorem Host.Fails.raises {host : Host σ} {I : σ → Prop} {ops : List HostOp} {w w' : σ} {fault : Fault}
    (h : host.Fails I ops w fault w') : host.Raises I fault w' := by
  obtain ⟨earlier, last, -, hI, hlast⟩ := h
  cases last with
  | invoke target args returns =>
    rcases hinvoke : host.invoke target args returns (host.after earlier w) with ⟨fault' | result, w₁⟩
    · simp only [Host.perform, hinvoke] at hlast
      cases hlast
      exact .invoke hI hinvoke
    · simp only [Host.perform, hinvoke] at hlast
      cases hlast
  | readStatic owner name =>
    rcases hread : host.readStatic owner name (host.after earlier w) with ⟨fault' | v, w₁⟩
    · simp only [Host.perform, hread] at hlast
      cases hlast
      exact .readStatic hI hread
    · simp only [Host.perform, hread] at hlast
      cases hlast

theorem Host.Conforming.recorded {host : Host σ} {asks : String → Ty → Prop} {reads : String → String → Prop}
    {I : σ → Prop} (h : host.Conforming asks reads I) (w : σ) :
    host.recorded.Conforming asks reads fun s => I s.1 ∧ host.Recalls w s where
  invoke target args returns s hs := ⟨h.invoke target args returns s.1 hs.1, hs.2.invoke target args returns⟩
  readStatic owner name s hs := ⟨h.readStatic owner name s.1 hs.1, hs.2.readStatic owner name⟩
  answer hasks hs hresult := h.answer hasks hs.1 hresult
  command hs hresult := h.command hs.1 hresult
  field hreads hs hv := h.field hreads hs.1 hv

namespace Script

variable {s : Script} {asks : String → Ty → Prop} {reads : String → String → Prop}

/-- A scripted host is conforming if what it has prepared is of the types that
    are expected. -/
theorem conforming
    (hasks : ∀ target returns, asks target returns → returns ≠ .void ∧
      ∀ v, s.answers.lookup target = some v → v.conforms returns = true)
    (hreads : ∀ owner name v, reads owner name → s.statics.lookup (owner, name) = some v →
      v.conforms .double = true) :
    Script.host.Conforming asks reads s.Like where
  invoke target args returns _ h := h.invoke target args returns
  readStatic _ _ _ h := h
  answer h hlike hresult := by
    obtain ⟨hreturns, hconforms⟩ := hasks _ _ h
    obtain ⟨v, hty, hv⟩ := exists_answer hreturns hconforms
    rw [hlike.invoke_eq _ _ hreturns, hv] at hresult
    exact ⟨v, (Except.ok.inj hresult).symm, hty⟩
  command _ hresult := (Except.ok.inj hresult).symm
  field {owner name t v} h hlike hv := by
    refine hreads owner name v h ?_
    cases hlookup : s.statics.lookup (owner, name) with
    | none => simp [host, readStatic, hlike.2, hlookup] at hv
    | some v' => simpa [host, readStatic, hlike.2, hlookup] using hv

/-- A scripted host fails only for a field that is not there. -/
theorem isDefect_of_raises {I : Script → Prop} {fault : Fault} {t : Script}
    (h : Script.host.Raises I fault t) : fault.isDefect = false := by
  cases h with
  | invoke _ hinvoke => cases hinvoke
  | @readStatic owner name t hI hread =>
    cases hlookup : t.statics.lookup (owner, name) with
    | some v => simp [host, Script.readStatic, hlookup] at hread
    | none =>
      simp only [host, Script.readStatic, hlookup, Prod.mk.injEq, Except.error.injEq] at hread
      rw [← hread.1]
      rfl

end Script

/-! ## Orderly ends -/

namespace Ends

/-- From the states of `I` to others, with no faults but those that are
    raised. -/
def orderly (I : σ → Prop) (raised : Fault → σ → Prop) : Ends σ α := fun _ w r =>
  I w → I r.2 ∧ ∀ fault, r.1 = .error fault → raised fault r.2

/-- The ends that leave the variables as they are. -/
def still (x : Ends σ α) : Ends σ α := fun vars w r =>
  x vars w r ∧ ∀ a vars', r.1 = .ok (a, vars') → vars' = vars

variable {I : σ → Prop} {raised : Fault → σ → Prop}

theorem still_within (x : Ends σ α) : x.still.Within x := fun _ _ _ h => h.1

theorem pure_within_orderly (a : α) : (pure a : Ends σ α).Within (orderly I raised) := by
  rintro vars w r rfl hw
  exact ⟨hw, by simp⟩

theorem bind_within_orderly {x : Ends σ α} {f : α → Ends σ β} (hx : x.Within (orderly I raised))
    (hf : ∀ a, (f a).Within (orderly I raised)) : (x >>= f).Within (orderly I raised) := by
  rintro vars w r (⟨fault, w', hxr, rfl⟩ | ⟨a, vars', w', hxr, hfr⟩) hw
  · obtain ⟨hw', hraised⟩ := hx _ _ _ hxr hw
    refine ⟨hw', ?_⟩
    rintro _ ⟨⟩
    exact hraised fault rfl
  · exact hf a _ _ _ hfr (hx _ _ _ hxr hw).1

theorem pure_within_still (a : α) : (pure a : Ends σ α).Within (orderly I raised).still := by
  intro vars w r hr
  refine ⟨pure_within_orderly a _ _ _ hr, ?_⟩
  cases hr
  rintro b vars' ⟨⟩
  rfl

theorem bind_within_still {x : Ends σ α} {f : α → Ends σ β} (hx : x.Within (orderly I raised).still)
    (hf : ∀ a, (f a).Within (orderly I raised).still) :
    (x >>= f).Within (orderly I raised).still := by
  have horderly := bind_within_orderly (hx.trans (still_within _)) fun a =>
    (hf a).trans (still_within _)
  intro vars w r hr
  refine ⟨horderly _ _ _ hr, ?_⟩
  rintro b vars' hok
  rcases hr with ⟨fault, w', -, rfl⟩ | ⟨a, vars₁, w', hxr, hfr⟩
  · cases hok
  · rw [(hf a _ _ _ hfr).2 b vars' hok, (hx _ _ _ hxr).2 a vars₁ rfl]

/-- A question that keeps to the states, and fails as it may. -/
theorem ask_within_still {question : σ → Except Fault α × σ} (hkeeps : ∀ w, I w → I (question w).2)
    (hraised : ∀ w fault, I w → (question w).1 = .error fault → raised fault (question w).2) :
    (Act.ask question).ends.Within (orderly I raised).still := by
  rintro vars w r heq
  cases heq
  refine ⟨fun hw => ⟨hkeeps w hw, fun fault hfault => ?_⟩, fun a vars' hok => ?_⟩
  · refine hraised w fault hw ?_
    cases hanswer : (question w).1 with
    | error fault' => simpa [hanswer, Except.map] using hfault
    | ok a => simp [hanswer, Except.map] at hfault
  · cases hanswer : (question w).1 with
    | error fault' => simp [hanswer, Except.map] at hok
    | ok a =>
      simp only [hanswer, Except.map, Except.ok.injEq, Prod.mk.injEq] at hok
      exact hok.2.symm

theorem iterate_within_orderly {body : α → Ends σ α} (h : ∀ a, (body a).Within (orderly I raised))
    (limit : Double) (turns : Nat) (counter : Double) (a : α) :
    (iterate body limit turns counter a).Within (orderly I raised) := by
  induction turns generalizing counter a with
  | zero =>
    rw [iterate]
    split
    · exact Within.never _
    · exact pure_within_orderly a
  | succ turns ih =>
    rw [iterate]
    split
    · exact bind_within_orderly (h a) fun a => ih _ a
    · exact pure_within_orderly a

end Ends

namespace Host.Conforming

variable {host : Host σ} {asks : String → Ty → Prop} {reads : String → String → Prop} {I : σ → Prop}

/-- A call whose result passes fails only if the host does. -/
theorem call_within_of_check (h : host.Conforming asks reads I) {target : String} {args : List Value}
    {returns : Ty} (hcheck : ∀ w result, I w → (host.invoke target args returns w).1 = .ok result →
      checkResult target returns result = .ok result) :
    (host.call target args returns).ends.Within (Ends.orderly I (host.Raises I)).still := by
  refine Ends.ask_within_still (h.invoke target args returns) fun w fault hw hfault => ?_
  dsimp only at hfault ⊢
  rcases hinvoke : host.invoke target args returns w with ⟨fault' | result, w'⟩
  · rw [hinvoke] at hfault
    cases hfault
    exact .invoke hw hinvoke
  · have hpasses := hcheck w result hw (congrArg Prod.fst hinvoke)
    rw [hinvoke] at hfault
    cases hpasses.symm.trans hfault

theorem query_within (h : host.Conforming asks reads I) {target : String} {returns : Ty}
    (hasks : asks target returns) (args : List Value) :
    (host.call target args returns).ends.Within (Ends.orderly I (host.Raises I)).still := by
  refine h.call_within_of_check fun w result hw hresult => ?_
  obtain ⟨v, rfl, hty⟩ := h.answer hasks hw hresult
  simp [checkResult, hty]

theorem command_within (h : host.Conforming asks reads I) (target : String) (args : List Value) :
    (host.call target args .void).ends.Within (Ends.orderly I (host.Raises I)).still := by
  refine h.call_within_of_check fun w result hw hresult => ?_
  obtain rfl := h.command hw hresult
  rfl

theorem field_within (h : host.Conforming asks reads I) {owner name : String} (hreads : reads owner name) :
    (host.field owner name .double).ends.Within (Ends.orderly I (host.Raises I)).still := by
  refine Ends.ask_within_still (h.readStatic owner name) fun w fault hw hfault => ?_
  dsimp only at hfault ⊢
  rcases hread : host.readStatic owner name w with ⟨fault' | v, w'⟩
  · rw [hread] at hfault
    cases hfault
    exact .readStatic hw hread
  · have hty := h.field hreads hw (congrArg Prod.fst hread)
    rw [hread] at hfault
    simp [checkField, hty, Bind.bind, Except.bind] at hfault

end Host.Conforming

/-! ## The account -/

namespace Graph

/-- Nothing fails but what is raised, and values leave the variables alone. -/
def soundness (I : σ → Prop) (raised : Fault → σ → Prop) : Account σ where
  input _ := (Ends.orderly I raised).still
  output _ := (Ends.orderly I raised).still
  node _ := Ends.orderly I raised
  wires _ := Ends.orderly I raised

variable {g : Graph} {host : Host σ} {I : σ → Prop}

open Ends in
theorem soundness_admits (h : host.Conforming g.Asks g.Reads I) :
    (soundness I (host.Raises I)).Admits g host (orderly I (host.Raises I)).still where
  own _ _ _ := pure_within_still _
  driven _ _ _ := bind_within_still (Within.refl _) fun _ => pure_within_still _
  constant _ := Within.refl _
  getVariable _ _ := by
    rintro vars w r heq
    cases heq
    exact pure_within_still _ _ _ _ rfl
  query hrole := by
    refine bind_within_still (h.query_within ⟨_, _, _, hrole, rfl, rfl⟩ _) ?_
    -- a query that gives no value has no end, so there is nothing to show of it
    rintro (_ | v)
    · exact Within.never _
    · exact pure_within_still v
  arith _ := bind_within_still (Within.refl _) fun _ =>
    bind_within_still (Within.refl _) fun _ => pure_within_still _
  compare _ := bind_within_still (Within.refl _) fun _ =>
    bind_within_still (Within.refl _) fun _ => pure_within_still _
  not _ := bind_within_still (Within.refl _) fun _ => pure_within_still _
  mathConstant hrole := h.field_within ⟨_, _, hrole, rfl, rfl⟩
  branch _ := by
    refine bind_within_orderly (still_within _) fun condition =>
      bind_within_orderly (still_within _) fun _ => ?_
    split
    · exact Within.refl _
    · exact Within.refl _
  loop _ := by
    refine bind_within_orderly (still_within _) fun times =>
      bind_within_orderly (still_within _) fun _ => bind_within_orderly ?_ fun _ => Within.refl _
    exact Within.anyOf fun turns => iterate_within_orderly (fun _ => Within.refl _) _ turns _ _
  setVariable _ _ := by
    refine bind_within_orderly (still_within _) fun v => bind_within_orderly ?_ fun _ => Within.refl _
    rintro vars w r heq hw
    cases heq
    exact ⟨hw, nofun⟩
  emit _ := bind_within_orderly (still_within _) fun v =>
    bind_within_orderly ((h.command_within _ _).trans (still_within _)) fun _ => Within.refl _
  nil := pure_within_orderly ()
  skip _ := Within.refl _
  cons _ := bind_within_orderly (Within.refl _) fun _ => Within.refl _

/-- Computing a value once, or ahead, fails no more. -/
theorem soundness_settles {raised : Fault → σ → Prop} {d : Draft} :
    (soundness I raised).Settles g d (Ends.orderly I raised).still where
  again {p id decl} _ _ {vars w v vars' w'} hv := by
    refine ⟨hv.1.2 v vars' rfl, fun vars w => ⟨Ends.pure_within_still v _ _ _ rfl, ?_⟩⟩
    rintro a vars' ⟨⟩
    exact hv.2 v _ rfl
  idle := Ends.pure_within_still ()
  early _ _ := Ends.bind_within_still (Ends.having_within _ _) fun _ => Ends.Within.refl _

theorem ports_soundness_within {raised : Fault → σ → Prop} (ports : List Port) :
    ((soundness I raised).ports g ports).Within (Ends.orderly I raised) := by
  induction ports with
  | nil => exact Ends.pure_within_orderly ()
  | cons p rest ih => exact Ends.bind_within_orderly (Ends.Within.refl _) fun _ => ih

/-- The program of a graph leaves nothing on the stack, and fails for a limit
    or with the host. -/
theorem run_orderly {g : Graph} {c : Compilation} (hc : g.compile .standard = .ok c) {host : Host σ}
    {I : σ → Prop} (hhost : host.Conforming g.Asks g.Reads I) (limits : Limits) {w : σ} (hw : I w) :
    (∀ outcome, (c.program.run limits host w).1 = .ok outcome → outcome.stack = []) ∧
    ∀ fault, (c.program.run limits host w).1 = .error fault →
      fault.isLimit = true ∨ host.Raises I fault (c.program.run limits host w).2 := by
  obtain ⟨body, draft, log, hwalked, rfl⟩ := exists_walk_of_compile hc
  obtain ⟨id, -, hkeeps⟩ := hwalked.keeps (soundness_admits hhost) soundness_settles limits w
  rcases hrun : (draft.finish body).program.run limits host w with ⟨fault | outcome, w'⟩
  · rw [hrun] at hkeeps
    refine ⟨nofun, ?_⟩
    rintro _ ⟨⟩
    exact hkeeps.imp_right fun hports => (ports_soundness_within _ _ _ _ hports hw).2 fault rfl
  · rw [hrun] at hkeeps
    refine ⟨?_, nofun⟩
    rintro _ ⟨⟩
    exact hkeeps.1

/-- The program of a graph, with a host that gives what is expected of it,
    ends with an empty stack, reaches a limit of the machine, or stops because
    the last operation that it has asked of the host fails. So it has no defect
    of its own. -/
theorem run_sound {g : Graph} {c : Compilation} (hc : g.compile .standard = .ok c) {host : Host σ}
    {I : σ → Prop} (hhost : host.Conforming g.Asks g.Reads I) (limits : Limits) {w : σ} (hw : I w) :
    (∀ outcome, (c.program.run limits host w).1 = .ok outcome → outcome.stack = []) ∧
    (∀ fault, (c.program.run limits host w).1 = .error fault → fault.isLimit = true ∨
      host.Fails I (c.program.asked limits host w) w fault (c.program.run limits host w).2) ∧
    ((∀ fault w', host.Raises I fault w' → fault.isDefect = false) →
      ∀ fault, (c.program.run limits host w).1 = .error fault → fault.isDefect = false) := by
  -- the record of the host tells which operation it was
  obtain ⟨hok, herror⟩ := run_orderly hc (hhost.recorded w) limits (w := (w, [])) ⟨hw, rfl⟩
  rw [Program.run_recorded_eq] at hok herror
  refine ⟨hok, fun fault hfault => (herror fault hfault).imp_right Host.Raises.fails, fun hhonest fault hfault => ?_⟩
  exact (herror fault hfault).elim Fault.isDefect_of_isLimit fun hraises => hhonest fault _ hraises.fails.raises

/-- A loop that sets a variable to an answer of the host, and a command with
    the variable behind it. -/
def latest : Graph where
  nodes := [some ⟨"start", [], none⟩, some ⟨"repeat", [], none⟩, some ⟨"query:number", [], some "count"⟩,
    some ⟨"set_variable:text", [], some "last"⟩, some ⟨"query:text", [], some "name"⟩,
    some ⟨"emit:text", [], some "show"⟩, some ⟨"get_variable:text", [], some "last"⟩]
  wires := [⟨⟨0, 0⟩, ⟨1, 0⟩⟩, ⟨⟨2, 0⟩, ⟨1, 1⟩⟩, ⟨⟨1, 0⟩, ⟨3, 0⟩⟩, ⟨⟨4, 0⟩, ⟨3, 1⟩⟩, ⟨⟨1, 1⟩, ⟨5, 0⟩⟩,
    ⟨⟨6, 0⟩, ⟨5, 1⟩⟩]
  entry := some 0

/-- A host that answers with null. -/
def nameless : Script := Script.empty.answer "name" .null

theorem asks_latest {target : String} {returns : Ty} (h : latest.Asks target returns) :
    target = "count" ∧ returns = .double ∨ target = "name" ∧ returns = .ref .text := by
  obtain ⟨id, node, c, hrole, rfl, rfl⟩ := h
  obtain _ | _ | _ | _ | _ | _ | _ | id := id
  all_goals cases hrole
  · exact .inl ⟨rfl, rfl⟩
  · exact .inr ⟨rfl, rfl⟩

theorem run_sound_latest :
    Script.host.Conforming latest.Asks latest.Reads nameless.Like ∧ ∃ c, latest.compile .standard = .ok c ∧
      (∀ outcome, (c.program.run {} Script.host nameless).1 = .ok outcome → outcome.stack = []) ∧
      (∀ fault, (c.program.run {} Script.host nameless).1 = .error fault → fault.isLimit = true ∨
        Script.host.Fails nameless.Like (c.program.asked {} Script.host nameless) nameless fault
          (c.program.run {} Script.host nameless).2) ∧
      ∀ fault, (c.program.run {} Script.host nameless).1 = .error fault → fault.isDefect = false := by
  obtain ⟨c, hc⟩ : ∃ c, latest.compile .standard = .ok c := ⟨_, rfl⟩
  have hhost : Script.host.Conforming latest.Asks latest.Reads nameless.Like := by
    refine Script.conforming ?_ ?_
    · intro target returns hasks
      rcases asks_latest hasks with ⟨rfl, rfl⟩ | ⟨rfl, rfl⟩
      · exact ⟨nofun, nofun⟩
      · exact ⟨nofun, by rintro v ⟨⟩; rfl⟩
    · rintro owner name v ⟨id, node, hrole, -, -⟩
      obtain _ | _ | _ | _ | _ | _ | _ | id := id
      all_goals cases hrole
  obtain ⟨hok, herror, hdefect⟩ := run_sound hc hhost {} (w := nameless) ⟨rfl, rfl⟩
  exact ⟨hhost, c, hc, hok, herror, hdefect fun _ _ hraises => Script.isDefect_of_raises hraises⟩

end Graph

end FlowGraph
