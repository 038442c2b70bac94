import Mathlib
import FlowGraph.Proofs.Meaning
import FlowGraph.Proofs.Recording

/-! # Sharing does not show

    A shared value is computed once, perhaps ahead of the branch or the loop
    that needs it. If it depends on no variable, and the host always gives
    the same answers, nothing that reads it can tell: the program gives the
    host the same commands, with the same arguments, as the graph does when
    it computes every value anew (`Graph.commands_eq_interpret`).

    On the states of such a host a value that depends on no variable is a
    constant, and asking for it changes no command. Constant answers alone do
    not suffice: a host may refuse a command because it was asked too often
    before (`Graph.errands_tire_host`).
-/

namespace FlowGraph

variable {σ : Type}

/-! ## Steady hosts -/

/-- States that `S` relates cannot be told apart by commands, and a question
    leads to none that could. Every question that is asked has an answer of
    its own, of the expected type. -/
structure Host.Steady (host : Host σ) (asks : String → Ty → Prop) (reads : String → String → Prop)
    (S : σ → σ → Prop) : Prop where
  symm {w w'} : S w w' → S w' w
  trans {w w' w''} : S w w' → S w' w'' → S w w''
  answer {target returns} : asks target returns → ∃ v, v.conforms returns = true ∧
    ∀ args w, S w w → (host.invoke target args returns w).1 = .ok (some v)
  field {owner name} : reads owner name → ∃ v, v.conforms .double = true ∧
    ∀ w, S w w → (host.readStatic owner name w).1 = .ok v
  question (target args) {returns} : returns ≠ .void →
    ∀ w, S w w → S w (host.invoke target args returns w).2
  readStatic (owner name w) : S w w → S w (host.readStatic owner name w).2
  command (target args) {w w'} : S w w' →
    (host.invoke target args .void w).1 = (host.invoke target args .void w').1 ∧
      S (host.invoke target args .void w).2 (host.invoke target args .void w').2

/-- Every question and every read has an answer of its own, of the expected
    type. Commands may depend on everything that happened before. -/
structure Host.Constant (host : Host σ) : Prop where
  answer (target : String) {returns : Ty} : returns ≠ .void → ∃ v, v.conforms returns = true ∧
    ∀ args w, (host.invoke target args returns w).1 = .ok (some v)
  field (owner name : String) : ∃ v, v.conforms .double = true ∧ ∀ w, (host.readStatic owner name w).1 = .ok v

/-- A scripted host is steady if what it has prepared is of the types that are
    expected. -/
theorem Script.steady {s : Script} {asks : String → Ty → Prop} {reads : String → String → Prop}
    (hasks : ∀ target returns, asks target returns → returns ≠ .void ∧
      ∀ v, s.answers.lookup target = some v → v.conforms returns = true)
    (hreads : ∀ owner name, reads owner name →
      ∃ v, s.statics.lookup (owner, name) = some v ∧ v.conforms .double = true) :
    Script.host.Steady asks reads fun t t' => s.Like t ∧ s.Like t' where
  symm h := h.symm
  trans h h' := ⟨h.1, h'.2⟩
  answer h := by
    obtain ⟨hreturns, hconforms⟩ := hasks _ _ h
    obtain ⟨v, hty, hv⟩ := exists_answer hreturns hconforms
    exact ⟨v, hty, fun args w hw => by rw [hw.1.invoke_eq _ args hreturns, hv]⟩
  field h := by
    obtain ⟨v, hv, hty⟩ := hreads _ _ h
    exact ⟨v, hty, fun w hw => hw.1.readStatic_eq hv⟩
  question _ _ _ _ _ h := ⟨h.1, h.1.invoke _ _ _⟩
  readStatic _ _ _ h := h
  command _ _ _ _ h := ⟨rfl, h.1.invoke _ _ _, h.2.invoke _ _ _⟩

/-- The commands among the operations of a host. -/
def HostOp.commands (ops : List HostOp) : List HostOp := ops.filter HostOp.isCommand

namespace Host.Steady

variable {host : Host σ} {asks : String → Ty → Prop} {reads : String → String → Prop} {S : σ → σ → Prop}

theorem right (h : host.Steady asks reads S) {w w' : σ} (hw : S w w') : S w' w' := h.trans (h.symm hw) hw

theorem invoke (h : host.Steady asks reads S) (target : String) (args : List Value) (returns : Ty) {w : σ}
    (hw : S w w) : S (host.invoke target args returns w).2 (host.invoke target args returns w).2 := by
  by_cases hreturns : returns = .void
  · subst hreturns
    exact (h.command target args hw).2
  · exact h.right (h.question target args hreturns w hw)

/-- Related states have led to related ones. -/
theorem step (h : host.Steady asks reads S) {w w' w₁ w₁' : σ} (hw : S w w') (h₁ : S w w₁)
    (h₁' : S w' w₁') : S w₁ w₁' :=
  h.trans (h.symm h₁) (h.trans hw h₁')

/-- The host on the states that are related to themselves. -/
def restrict (h : host.Steady asks reads S) : Host { w // S w w } where
  invoke target args returns s :=
    ((host.invoke target args returns s.1).1, ⟨_, h.invoke target args returns s.2⟩)
  readStatic owner name s :=
    ((host.readStatic owner name s.1).1, ⟨_, h.right (h.readStatic owner name s.1 s.2)⟩)

theorem related_restrict (h : host.Steady asks reads S) :
    host.Related h.restrict fun w s => s.1 = w where
  invoke _ _ _ heq := by subst heq; exact ⟨rfl, rfl⟩
  readStatic _ _ heq := by subst heq; exact ⟨rfl, rfl⟩

end Host.Steady

/-! ## States that cannot be told apart -/

/-- The hosts of the program and of the graph are in related states, and have
    been given the same commands. -/
def Alike (S : σ → σ → Prop) (s : { w // S w w } × List HostOp) (t : σ × List HostOp) : Prop :=
  S s.1.1 t.1 ∧ HostOp.commands s.2 = HostOp.commands t.2

section

variable {host : Host σ} {asks : String → Ty → Prop} {reads : String → String → Prop} {S : σ → σ → Prop}

theorem Alike.append {s : { w // S w w } × List HostOp} {t : σ × List HostOp} (h : Alike S s t)
    {s' : { w // S w w }} {t' : σ} (hs : S s'.1 t') (op : HostOp) :
    Alike S (s', s.2 ++ [op]) (t', t.2 ++ [op]) := by
  refine ⟨hs, ?_⟩
  have hcommands := h.2
  simp only [HostOp.commands] at hcommands ⊢
  rw [List.filter_append, List.filter_append, hcommands]

theorem command_within_upTo (h : host.Steady asks reads S) (target : String) (args : List Value) :
    (h.restrict.recorded.call target args .void).ends.Within
      ((host.recorded.call target args .void).upTo (Alike S)) := by
  refine Act.ask_within_upTo fun s t halike => ?_
  obtain ⟨hanswer, hstate⟩ := h.command target args halike.1
  refine ⟨?_, halike.append hstate _⟩
  have hrecorded : (h.restrict.recorded.invoke target args .void s).1 =
      (host.recorded.invoke target args .void t).1 := hanswer
  rw [hrecorded]

theorem query_within_upTo (h : host.Steady asks reads S) {target : String} {returns : Ty}
    (hasks : asks target returns) (args : List Value) :
    (h.restrict.recorded.call target args returns).ends.Within
      ((host.recorded.call target args returns).upTo (Alike S)) := by
  obtain ⟨v, hty, hv⟩ := h.answer hasks
  refine Act.ask_within_upTo fun s t halike => ⟨?_, ?_⟩
  · have hs : (h.restrict.recorded.invoke target args returns s).1 = .ok (some v) := hv args _ s.1.2
    have ht : (host.recorded.invoke target args returns t).1 = .ok (some v) :=
      hv args _ (h.right halike.1)
    rw [hs, ht]
  · have hvoid : returns ≠ .void := Value.ne_void_of_conforms hty
    exact halike.append (h.step halike.1 (h.question target args hvoid _ s.1.2)
      (h.question target args hvoid _ (h.right halike.1))) _

theorem field_within_upTo (h : host.Steady asks reads S) {owner name : String} (hreads : reads owner name)
    (ty : Ty) :
    (h.restrict.recorded.field owner name ty).ends.Within
      ((host.recorded.field owner name ty).upTo (Alike S)) := by
  obtain ⟨v, -, hv⟩ := h.field hreads
  refine Act.ask_within_upTo fun s t halike => ⟨?_, ?_⟩
  · have hs : (h.restrict.recorded.readStatic owner name s).1 = .ok v := hv _ s.1.2
    have ht : (host.recorded.readStatic owner name t).1 = .ok v := hv _ (h.right halike.1)
    rw [hs, ht]
  · exact halike.append (h.step halike.1 (h.readStatic owner name _ s.1.2)
      (h.readStatic owner name _ (h.right halike.1))) _

end

/-! ## Constant values -/

/-- From the states of a steady host the act gives this value, and no
    command. -/
def Act.Gives (S : σ → σ → Prop) (x : Act (σ × List HostOp) Value) (v : Value) : Prop :=
  ∀ vars t, S t.1 t.1 → ∃ t', x vars t = some (.ok (v, vars), t') ∧ S t.1 t'.1 ∧
    HostOp.commands t'.2 = HostOp.commands t.2

namespace Act.Gives

variable {S : σ → σ → Prop} {x y : Act (σ × List HostOp) Value} {v u : Value}

protected theorem pure (v : Value) : Act.Gives S (pure v) v :=
  fun _ t ht => ⟨t, rfl, ht, rfl⟩

theorem map (h : x.Gives S v) (f : Value → Value) : Act.Gives S (do let v ← x; return f v) (f v) := by
  intro vars t ht
  obtain ⟨t', hx, ht', hcommands⟩ := h vars t ht
  exact ⟨t', bind_of_ok hx, ht', hcommands⟩

theorem binary {host : Host σ} {asks : String → Ty → Prop} {reads : String → String → Prop}
    (h : host.Steady asks reads S) (hx : x.Gives S v) (hy : y.Gives S u) (f : Value → Value → Value) :
    Act.Gives S (do let v ← x; let u ← y; return f v u) (f v u) := by
  intro vars t ht
  obtain ⟨t₁, hx₁, ht₁, hcommands₁⟩ := hx vars t ht
  obtain ⟨t₂, hy₂, ht₂, hcommands₂⟩ := (hy.map (f v)) vars t₁ (h.right ht₁)
  exact ⟨t₂, (bind_of_ok hx₁).trans hy₂, h.trans ht₁ ht₂, hcommands₂.trans hcommands₁⟩

/-- A static field that the host always has. -/
theorem field {host : Host σ} {asks : String → Ty → Prop} {reads : String → String → Prop}
    (h : host.Steady asks reads S) {owner name : String} (hreads : reads owner name) :
    ∃ v, (host.recorded.field owner name .double).Gives S v := by
  obtain ⟨v, hty, hv⟩ := h.field hreads
  refine ⟨v, fun vars t ht => ⟨(host.recorded.readStatic owner name t).2, ?_, ?_, ?_⟩⟩
  · have hanswer : (host.recorded.readStatic owner name t).1 = .ok v := hv t.1 ht
    rw [Host.field_apply, hanswer]
    simp [Host.checkField, hty, Bind.bind, Except.bind, Except.map]
  · exact h.readStatic owner name t.1 ht
  · simp [Host.recorded, HostOp.commands, HostOp.isCommand]

/-- A question that the host always answers. -/
theorem query {host : Host σ} {asks : String → Ty → Prop} {reads : String → String → Prop}
    (h : host.Steady asks reads S) {target : String} {returns : Ty} (hasks : asks target returns) :
    ∃ v, Act.Gives S
      (do
        match ← host.recorded.call target [] returns with
        | some v => return v
        | none => Act.never) v := by
  obtain ⟨v, hty, hv⟩ := h.answer hasks
  refine ⟨v, fun vars t ht => ⟨(host.recorded.invoke target [] returns t).2, ?_, ?_, ?_⟩⟩
  · have hanswer : (host.recorded.invoke target [] returns t).1 = .ok (some v) := hv [] t.1 ht
    have hcall : host.recorded.call target [] returns vars t =
        some (.ok (some v, vars), (host.recorded.invoke target [] returns t).2) := by
      rw [Host.call_apply, hanswer]
      simp [Host.checkResult, hty, Bind.bind, Except.bind, Except.map]
    exact bind_of_ok hcall
  · exact h.question target [] (Value.ne_void_of_conforms hty) t.1 ht
  · simp [Host.recorded, HostOp.commands, HostOp.isCommand, Value.ne_void_of_conforms hty]

end Act.Gives

namespace Graph

/-- The output depends on a variable, by its node or by what drives the inputs
    of its node. -/
inductive ReadsVariable (g : Graph) : Port → Prop
  | here {p node c} : g.role? p.node = some (node, .getVariable c) → ReadsVariable g p
  | through {p source produced} (index : Nat) : g.driver? ⟨p.node, index⟩ = some (source, produced) →
    ReadsVariable g source → ReadsVariable g p

namespace Need

/-- The value that is needed. -/
noncomputable def act (g : Graph) (host : Host σ) : Need → Act σ Value
  | .input p => g.inputValue host p
  | .output p => g.outputValue host p
  | .result p => g.outputValue host p

/-- What is needed depends on a variable. -/
def ReadsVariable (g : Graph) : Need → Prop
  | .input p => ∃ source produced, g.driver? p = some (source, produced) ∧ g.ReadsVariable source
  | .output p => g.ReadsVariable p
  | .result p => g.ReadsVariable p

end Need

variable {g : Graph} {host : Host σ} {S : σ → σ → Prop}

theorem not_readsVariable_input {p : Port} (h : ¬g.ReadsVariable p) (index : Nat) :
    ¬(Need.input ⟨p.node, index⟩).ReadsVariable g := by
  rintro ⟨source, produced, hdriver, hsource⟩
  exact h (.through index hdriver hsource)

/-- A value that depends on no variable is a constant. -/
theorem Pulls.gives (hs : host.Steady g.Asks g.Reads S) {opened : List Port} {need : Need} {d d' : Draft}
    {c : Code} {log : List Event} (h : Pulls g opened need d c d' log)
    (hmemo : ∀ q id, (q, id) ∈ d'.memo → ∃ v, (g.outputValue host.recorded q).Gives S v)
    (hreads : ¬need.ReadsVariable g) : ∃ v, (need.act g host.recorded).Gives S v := by
  induction h with
  | own problems hrole hinput _ hdriver =>
    rw [Need.act, inputValue_own hrole hinput hdriver]
    exact ⟨_, .pure _⟩
  | driven hrole hinput _ hdriver _ ih =>
    obtain ⟨v, hv⟩ := ih hmemo fun hsource => hreads ⟨_, _, hdriver, hsource⟩
    rw [Need.act, inputValue_driven hrole hinput hdriver]
    exact ⟨_, hv.map _⟩
  | recalled hshared =>
    obtain ⟨id, entry, hmem, -, -⟩ := Draft.shared?_eq_some hshared
    exact hmemo _ id hmem
  | single _ _ _ _ ih => exact ih hmemo hreads
  | shared _ _ _ _ _ ih => exact ih (fun q id hmem => hmemo q id (List.mem_cons_of_mem _ hmem)) hreads
  | constant hrole _ ih =>
    rw [Need.act, outputValue, outputFrom, hrole]
    exact ih hmemo (not_readsVariable_input hreads 0)
  | getVariable hrole => exact absurd (.here hrole) hreads
  | query hrole =>
    rw [Need.act, outputValue, outputFrom, hrole]
    exact Act.Gives.query hs ⟨_, _, _, hrole, rfl, rfl⟩
  | arith hrole _ hright ihx ihy =>
    -- what was shared before the second operand is shared behind it as well
    obtain ⟨x, hx⟩ := ihx (fun q id hmem => hmemo q id (hright.grows.memo.mem hmem))
      (not_readsVariable_input hreads 0)
    obtain ⟨y, hy⟩ := ihy hmemo (not_readsVariable_input hreads 1)
    rw [Need.act, outputValue, outputFrom, hrole]
    exact ⟨_, hx.binary hs hy _⟩
  | compare hrole _ hright ihx ihy =>
    obtain ⟨x, hx⟩ := ihx (fun q id hmem => hmemo q id (hright.grows.memo.mem hmem))
      (not_readsVariable_input hreads 0)
    obtain ⟨y, hy⟩ := ihy hmemo (not_readsVariable_input hreads 1)
    rw [Need.act, outputValue, outputFrom, hrole]
    exact ⟨_, hx.binary hs hy _⟩
  | not hrole _ ih =>
    obtain ⟨x, hx⟩ := ih hmemo (not_readsVariable_input hreads 0)
    rw [Need.act, outputValue, outputFrom, hrole]
    exact ⟨_, hx.map _⟩
  | mathConstant hrole =>
    rw [Need.act, outputValue, outputFrom, hrole]
    exact Act.Gives.field hs ⟨_, _, hrole, rfl, rfl⟩

/-- No output with several wires depends on a variable. -/
def SharesConstants (g : Graph) : Prop :=
  ∀ p, g.isValueOutput p = true → 1 < (g.leaving p).length → ¬g.ReadsVariable p

theorem kept_gives (hs : host.Steady g.Asks g.Reads S) (hg : g.SharesConstants) :
    Kept g fun d => ∀ q id, (q, id) ∈ d.memo → ∃ v, (g.outputValue host.recorded q).Gives S v where
  problems _ h := h
  share {_ p decl _ _ _ _} hpulls hmany hdecl h := by
    have hvalue : g.isValueOutput p = true := by
      simp [isValueOutput, hdecl, hpulls.isSignal_eq_false hdecl]
    intro q id hmem
    rcases List.mem_cons.mp hmem with heq | hmem
    · obtain ⟨rfl, -⟩ := Prod.mk.inj heq
      exact hpulls.gives hs h (hg q hvalue hmany)
    · exact h q id hmem

/-! ## The program -/

theorem respects_alike (hs : host.Steady g.Asks g.Reads S) :
    g.Respects host.recorded (Alike S) hs.restrict.recorded where
  query hrole := query_within_upTo hs ⟨_, _, _, hrole, rfl, rfl⟩ []
  emit _ := command_within_upTo hs _ _
  mathConstant hrole := field_within_upTo hs ⟨_, _, hrole, rfl, rfl⟩ _

/-- What a constant allows, from a state and one that is like it. -/
theorem eq_of_gives (hs : host.Steady g.Asks g.Reads S) {x : Act (σ × List HostOp) Value} {v : Value}
    (hgives : x.Gives S v) {vars : Variables} {s s' : { w // S w w } × List HostOp}
    {t : σ × List HostOp} (halike : Alike S s t) {result : Except Fault (Value × Variables)}
    (hx : x.upTo (Alike S) vars s (result, s')) : result = .ok (v, vars) ∧ Alike S s' t := by
  obtain ⟨t₁, hrun₁, halike₁⟩ := hx t halike
  obtain ⟨t₂, hrun₂, ht₂, hcommands⟩ := hgives vars t (hs.right halike.1)
  obtain ⟨rfl, rfl⟩ : result = .ok (v, vars) ∧ t₁ = t₂ := by
    simpa [hrun₂, eq_comm] using hrun₁
  exact ⟨rfl, hs.trans halike₁.1 (hs.symm ht₂), halike₁.2.trans hcommands⟩

/-- A constant may be computed once, and ahead. -/
theorem settles_alike (hs : host.Steady g.Asks g.Reads S) {d : Draft}
    (h : ∀ q id, (q, id) ∈ d.memo → ∃ v, (g.outputValue host.recorded q).Gives S v) :
    (g.meaning host.recorded (Alike S)).Settles g d
      ((pure () : Act (σ × List HostOp) Unit).upTo (Alike S)) where
  again {p id decl} hmem _ {vars s v vars' s'} hv := by
    -- a shared output reads no variable, so it gives the same value whenever it is computed
    obtain ⟨v₀, hgives⟩ := h p id hmem
    have halike : Alike S s (s.1.1, s.2) := ⟨s.1.2, rfl⟩
    obtain ⟨heq, -⟩ := eq_of_gives hs hgives halike hv.1
    cases heq
    refine ⟨rfl, fun vars s => ⟨fun t halike => ?_, ?_⟩⟩
    · obtain ⟨t', hrun, ht', hcommands⟩ := hgives vars t (hs.right halike.1)
      exact ⟨t', hrun, hs.trans halike.1 ht', halike.2.trans hcommands.symm⟩
    · rintro a vars' heq
      cases heq
      exact hv.2 _ _ rfl
  idle := Act.pure_within_upTo _ ()
  early {p id decl} hmem _ := by
    obtain ⟨v, hgives⟩ := h p id hmem
    rintro vars s r (⟨fault, s', hv, rfl⟩ | ⟨v', vars', s', hv, hahead⟩) t halike
    · obtain ⟨heq, -⟩ := eq_of_gives hs hgives halike hv.1
      cases heq
    · obtain ⟨heq, halike'⟩ := eq_of_gives hs hgives halike hv.1
      cases heq
      exact hahead t halike'

/-- The program of a graph in which shared outputs depend on no variable,
    with a host that is steady: unless a limit is reached, it gives the host
    the same commands in the same order as the graph does, and ends in the
    same way. -/
theorem commands_eq_interpret {g : Graph} {c : Compilation} (hc : g.compile .standard = .ok c)
    (hg : g.SharesConstants) {host : Host σ} {S : σ → σ → Prop} (hs : host.Steady g.Asks g.Reads S)
    (limits : Limits) {w : σ} (hw : S w w)
    (hlimit : ∀ fault, (c.program.run limits host w).1 = .error fault → fault.isLimit = false) :
    ∃ ops w' ops', c.program.run limits host.recorded (w, []) =
        ((c.program.run limits host w).1, (c.program.run limits host w).2, ops) ∧
      g.interpret host.recorded (w, []) =
        some ((c.program.run limits host w).1.map fun _ => (), w', ops') ∧
      HostOp.commands ops = HostOp.commands ops' := by
  obtain ⟨body, draft, log, hwalked, rfl⟩ := exists_walk_of_compile hc
  have hgives := (kept_gives hs hg).walked hwalked fun _ _ hmem => nomatch hmem
  obtain ⟨ops, hrecorded⟩ := (draft.finish body).program.run_recorded limits host w
  -- the program runs with the host on its steady states, the graph with the host itself
  let start : { w // S w w } × List HostOp := (⟨w, hw⟩, [])
  have halike : Alike S start (w, []) := ⟨hw, rfl⟩
  obtain ⟨hresult, hstate, hops⟩ := hs.related_restrict.recorded.run (draft.finish body).program limits
    (w, []) start ⟨rfl, rfl⟩
  rw [hrecorded] at hresult hops
  dsimp only at hops
  obtain ⟨⟨w', ops'⟩, hinterpret, -, hcommands⟩ := hwalked.exists_interpret (respects_alike hs)
    (settles_alike hs hgives) limits halike (by rw [← hresult]; exact hlimit)
  rw [← hresult] at hinterpret
  exact ⟨ops, w', ops', hrecorded, hinterpret, hops ▸ hcommands⟩

/-- A branch whose arms both need an answer of the host. -/
def greeting : Graph where
  nodes := [some ⟨"start", [], none⟩, some ⟨"if", [], none⟩, some ⟨"query:condition", [], some "ready"⟩,
    some ⟨"emit:text", [], some "greet"⟩, some ⟨"emit:text", [], some "refuse"⟩,
    some ⟨"query:text", [], some "name"⟩]
  wires := [⟨⟨0, 0⟩, ⟨1, 0⟩⟩, ⟨⟨2, 0⟩, ⟨1, 1⟩⟩, ⟨⟨1, 0⟩, ⟨3, 0⟩⟩, ⟨⟨1, 1⟩, ⟨4, 0⟩⟩, ⟨⟨5, 0⟩, ⟨3, 1⟩⟩,
    ⟨⟨5, 0⟩, ⟨4, 1⟩⟩]
  entry := some 0

def greetingProgram : Program where
  ops := [.const (.text ""), .store 0 (.ref .text), .invoke "ready" 0 .boolean,
    .invoke "name" 0 (.ref .text), .store 0 (.ref .text), .jumpUnless 0, .load 0 (.ref .text),
    .invoke "greet" 1 .void, .jump 1, .label 0, .load 0 (.ref .text), .invoke "refuse" 1 .void,
    .label 1, .ret]
  locals := 1

theorem role_greeting {id : NodeId} {node : Node} {role : Role}
    (h : greeting.role? id = some (node, role)) :
    role ≠ .mathConstant ∧ (∀ c, role ≠ .getVariable c) ∧ ∀ c, role = .query c → c.native ≠ .void := by
  obtain _ | _ | _ | _ | _ | _ | id := id
  all_goals cases h
  all_goals exact ⟨nofun, nofun, by rintro c ⟨⟩ <;> nofun⟩

theorem not_readsVariable {g : Graph} (h : ∀ id node c, g.role? id ≠ some (node, .getVariable c))
    (p : Port) : ¬g.ReadsVariable p := by
  intro hreads
  induction hreads with
  | here hrole => exact h _ _ _ hrole
  | through _ _ _ ih => exact ih

theorem commands_eq_interpret_greeting :
    greeting.compile .standard = .ok ⟨greetingProgram, []⟩ ∧ 1 < (greeting.leaving ⟨5, 0⟩).length ∧
      ∃ ops w ops', greetingProgram.run {} Script.host.recorded (.empty, []) =
          ((greetingProgram.run {} Script.host .empty).1,
            (greetingProgram.run {} Script.host .empty).2, ops) ∧
        greeting.interpret Script.host.recorded (.empty, []) =
          some ((greetingProgram.run {} Script.host .empty).1.map fun _ => (), w, ops') ∧
        HostOp.commands ops = HostOp.commands ops' := by
  have hc : greeting.compile .standard = .ok ⟨greetingProgram, []⟩ := by rfl
  have hsteady : Script.host.Steady greeting.Asks greeting.Reads
      fun t t' => Script.empty.Like t ∧ Script.empty.Like t' := by
    refine Script.steady ?_ ?_
    · rintro target returns ⟨id, node, c, hrole, -, rfl⟩
      exact ⟨(role_greeting hrole).2.2 c rfl, nofun⟩
    · rintro owner name ⟨id, node, hrole, -, -⟩
      exact absurd rfl (role_greeting hrole).1
  have hlike : Script.empty.Like .empty := ⟨rfl, rfl⟩
  refine ⟨hc, by decide, commands_eq_interpret hc ?_ hsteady {} ⟨hlike, hlike⟩ ?_⟩
  · intro p _ _
    exact not_readsVariable (fun id node c hrole => (role_greeting hrole).2.1 c rfl) p
  · have hrun : (greetingProgram.run {} Script.host .empty).1 = .ok ⟨[], 11⟩ := by cbv
    intro fault hfault
    rw [hrun] at hfault
    cases hfault

end Graph

/-! ## A host that counts the questions -/

namespace HostOp

def askNumber (target : String) : HostOp := .invoke target [] .double

def tellZero (target : String) : HostOp := .invoke target [.double .zero] .void

end HostOp

namespace Host

/-- Answers everything with zero, and refuses commands once it was asked two
    questions. -/
def weary : Host Nat where
  invoke _ _ returns asked :=
    match Value.zero? returns with
    | some v => (.ok (some v), asked + 1)
    | none => (if asked < 2 then .ok none else .error .nullReference, asked)
  readStatic _ _ asked := (.ok (.double .zero), asked)

theorem constant_weary : weary.Constant where
  answer _ returns h := by
    cases returns with
    | void => exact absurd rfl h
    | double => exact ⟨.double .zero, rfl, fun _ _ => rfl⟩
    | boolean => exact ⟨.boolean false, rfl, fun _ _ => rfl⟩
    | ref => exact ⟨.null, rfl, fun _ _ => rfl⟩
  field _ _ := ⟨.double .zero, rfl, fun _ => rfl⟩

end Host

namespace Graph

open HostOp

/-- Three commands in a row that need the answer to one question. -/
def errands : Graph where
  nodes := [some ⟨"start", [], none⟩, some ⟨"emit:number", [], some "first"⟩,
    some ⟨"emit:number", [], some "second"⟩, some ⟨"emit:number", [], some "third"⟩,
    some ⟨"query:number", [], some "ask"⟩]
  wires := [⟨⟨0, 0⟩, ⟨1, 0⟩⟩, ⟨⟨1, 0⟩, ⟨2, 0⟩⟩, ⟨⟨2, 0⟩, ⟨3, 0⟩⟩, ⟨⟨4, 0⟩, ⟨1, 1⟩⟩, ⟨⟨4, 0⟩, ⟨2, 1⟩⟩,
    ⟨⟨4, 0⟩, ⟨3, 1⟩⟩]
  entry := some 0

theorem role_errands {id : NodeId} {node : Node} {role : Role} (h : errands.role? id = some (node, role))
    (c : Category) : role ≠ .getVariable c := by
  obtain _ | _ | _ | _ | _ | id := id
  all_goals cases h
  all_goals simp

theorem inputValue_errands {id : NodeId} (hid : id = 1 ∨ id = 2) (vars : Variables) (asked : Nat)
    (ops : List HostOp) : errands.inputValue Host.weary.recorded ⟨id, 1⟩ vars (asked, ops) =
      some (.ok (.double .zero, vars), asked + 1, ops ++ [askNumber "ask"]) := by
  rw [inputValue_eq]
  rcases hid with rfl | rfl <;> rfl

/-- The question for the second command is the second one. -/
theorem runNode_errands_second (vars : Variables) (ops : List HostOp) :
    errands.runNode Host.weary.recorded 2 vars (1, ops) =
      some (.error .nullReference, 2, ops ++ [askNumber "ask"] ++ [tellZero "second"]) := by
  have hrole : errands.role? 2 = some (⟨"emit:number", [], some "second"⟩, .emit .number) := rfl
  rw [runNode_eq]
  simp only [nodeFrom, hrole]
  rw [Act.bind_of_ok (inputValue_errands (.inr rfl) ..)]
  exact Act.bind_of_error rfl

theorem runNode_errands_first (vars : Variables) : errands.runNode Host.weary.recorded 1 vars (0, []) =
    some (.error .nullReference, 2, [askNumber "ask", tellZero "first", askNumber "ask", tellZero "second"]) := by
  have hrole : errands.role? 1 = some (⟨"emit:number", [], some "first"⟩, .emit .number) := rfl
  have hcall : Host.weary.recorded.call "first" [.double .zero] .void vars (1, [askNumber "ask"]) =
      some (.ok (none, vars), 1, [askNumber "ask", tellZero "first"]) := rfl
  rw [runNode_eq]
  simp only [nodeFrom, hrole]
  rw [Act.bind_of_ok (inputValue_errands (.inl rfl) ..)]
  refine (Act.bind_of_ok hcall).trans ?_
  exact Act.bind_of_error (runNode_errands_second vars _)

theorem interpret_errands : errands.interpret Host.weary.recorded (0, []) =
    some (.error .nullReference, 2, [askNumber "ask", tellZero "first", askNumber "ask", tellZero "second"]) := by
  have hentry : errands.entry = some 0 := rfl
  have hports : errands.runPorts Host.weary.recorded (errands.signalOutputs 0) Variables.unset (0, []) = _ :=
    Act.bind_of_error (Act.bind_of_error (runNode_errands_first _))
  simp only [interpret, hentry, hports]

/-- The program asks once and gives all three commands. The graph asks for
    every command, so that the host refuses the second one and never gets the
    third. -/
theorem errands_tire_host : Host.weary.Constant ∧ errands.SharesConstants ∧
    ∃ c, errands.compile .standard = .ok c ∧
      c.program.run {} Host.weary.recorded (0, []) =
        (.ok ⟨[], 11⟩, 1, [askNumber "ask", tellZero "first", tellZero "second", tellZero "third"]) ∧
      errands.interpret Host.weary.recorded (0, []) =
        some (.error .nullReference, 2, [askNumber "ask", tellZero "first", askNumber "ask", tellZero "second"]) := by
  refine ⟨Host.constant_weary, ?_, _, rfl, ?_, interpret_errands⟩
  · intro p _ _
    exact not_readsVariable (fun _ _ c hrole => role_errands hrole c rfl) p
  · cbv

end Graph

end FlowGraph
