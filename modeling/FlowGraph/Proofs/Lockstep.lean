import FlowGraph.Proofs.Renaming

/-! # Two graphs walked side by side

    Two graphs that differ in what does not matter to their signals are walked
    in the same way: the same nodes are run in the same order, and whenever
    one walk asks for a value, so does the other. What the first walk builds
    can then be carried over to what the second one builds (`Rendering`). The
    second graph may have other numbers, it may lack wires that lead nowhere,
    and it may compute a value elsewhere.

    * `Mirrors` compares two steps of walks. There is one rule for each way to
      put steps together.
    * The wires of a signal output, and those that arrive at a value input,
      are compared one by one (`SameTargets`, `SameSources`).
    * What is left to show of two graphs is collected in `Parallel`.

    Main statements: then their walks give what is carried over
    (`Parallel.exists_walk`), and fail in the same way if failures are carried
    over as well (`Parallel.walk_error`).
-/

namespace FlowGraph

/-! ## Recipes -/

/-- Two recipes make the same requests. Where the first one is answered with
    code, the second one is with the rendering of it, and so is the result. -/
inductive Recipe.Renders (ρ : Renaming) (render : Code → Code) : Recipe Code → Recipe Code → Prop
  | done (c : Code) : Renders ρ render (.done c) (.done (render c))
  | fail (e : GraphError) : Renders ρ render (.fail e) (.fail (ρ.error e))
  | input {index : Nat} {next next' : Code → Recipe Code} :
    (∀ c, Renders ρ render (next c) (next' (render c))) → Renders ρ render (.input index next) (.input index next')
  | follow {index : Nat} {next next' : Code → Recipe Code} :
    (∀ c, Renders ρ render (next c) (next' (render c))) →
    Renders ρ render (.follow index next) (.follow index next')

theorem Renaming.renders_recipe (ρ : Renaming) (recipe : Recipe Code) : recipe.Renders ρ id (ρ.recipe recipe) := by
  induction recipe with
  | done c => exact .done c
  | fail e => exact .fail e
  | input index next ih => exact .input ih
  | follow index next ih => exact .follow ih

/-- A visit under another name makes the same requests. -/
theorem Renaming.renders_visit (ρ : Renaming) {g : Graph} {v : Graph.Visit} (h : v.Meant g) :
    v.recipe.Renders ρ id (ρ.visit v).recipe := by
  rw [ρ.recipe_visit h]
  exact ρ.renders_recipe v.recipe

namespace Graph

/-! ## Steps -/

/-- How one walk is carried over to another: under which names, and which code
    and which drafts belong together. Only drafts that are valid can be carried
    over, and a draft is if it is so at the end. If the rendering is exact, then
    failures are carried over as well, and else problems need not be. -/
structure Rendering where
  name : Renaming
  code : Code → Code
  Drafts : Draft → Draft → Prop
  Valid : Draft → Prop
  Exact : Prop
  code_done : ∀ ty, code (.done ty) = .done ty
  code_andThen : ∀ first rest, code (.andThen first rest) = .andThen (code first) (code rest)
  code_unconnected : ∀ r index decl, code (unconnected r index decl) = unconnected r index decl
  code_adapt : ∀ produced consumed value,
    code (adapt produced consumed value) = adapt produced consumed (code value)
  start : Drafts {} {}
  valid_of_exact : Exact → ∀ d, Valid d
  valid_of_record : ∀ {d problem}, Valid (d.record problem) → Valid d
  forget : ¬ Exact → ∀ {d e problem}, Drafts d e → Drafts (d.record problem) e

/-- What is built stays as it is, except for the problems. -/
def unchanged : Rendering where
  name := .same
  code := id
  Drafts d e := e.Alike d
  Valid _ := True
  Exact := False
  code_done _ := rfl
  code_andThen _ _ := rfl
  code_unconnected _ _ _ := rfl
  code_adapt _ _ _ := rfl
  start := .refl _
  valid_of_exact := False.elim
  valid_of_record _ := trivial
  forget _ _ _ _ he := he.trans ((Draft.Alike.refl _).record _).symm

/-- The second step does what the first one does, on what is carried over. What
    the first one gives is carried over by `f`. -/
structure Mirrors (t : Rendering) {α β : Type} (f : α → β) (x : Walk α) (x' : Walk β) : Prop where
  ok : ∀ {d a d₁}, x d = .ok (a, d₁) → t.Valid d₁ →
    t.Valid d ∧ ∀ e, t.Drafts d e → ∃ e₁, x' e = .ok (f a, e₁) ∧ t.Drafts d₁ e₁
  error : ∀ {d err}, t.Exact → x d = .error err → ∀ e, t.Drafts d e → x' e = .error (t.name.error err)

/-- The step finds nothing and reports it, which need not be carried over. -/
structure Lost (t : Rendering) {α : Type} (x : Walk (Option α)) : Prop where
  inexact : ¬ t.Exact
  none : ∀ {d a d₁}, x d = .ok (a, d₁) → a = none ∧ ∃ problem, d₁ = d.record problem

namespace Mirrors

variable {t : Rendering} {α β α' β' : Type}

/-- Only success counts if the rendering is not exact. -/
theorem of_ok {f : α → β} {x : Walk α} {x' : Walk β} (hexact : ¬ t.Exact)
    (h : ∀ d a d₁, x d = .ok (a, d₁) → t.Valid d₁ →
      t.Valid d ∧ ∀ e, t.Drafts d e → ∃ e₁, x' e = .ok (f a, e₁) ∧ t.Drafts d₁ e₁) : Mirrors t f x x' where
  ok := h _ _ _
  error hyes := absurd hyes hexact

theorem pure (f : α → β) (a : α) : Mirrors t f (pure a) (pure (f a)) where
  ok h hvalid := by
    cases h
    exact ⟨hvalid, fun e he => ⟨e, rfl, he⟩⟩
  error _ h := by cases h

/-- A step that fails is not followed, unless failures count. -/
theorem refuse {f : α → β} {x' : Walk β} (e : GraphError)
    (h : t.Exact → x' = (monadLift (Graph.refuse (t.name.error e) : Walk β) : Walk β)) :
    Mirrors t f (monadLift (Graph.refuse e : Walk α) : Walk α) x' where
  ok h := by cases h
  error hexact hrefused e he := by
    cases hrefused
    rw [h hexact]
    rfl

theorem bind {f : α → β} {h : α' → β'} {x : Walk α} {x' : Walk β} {k : α → Walk α'} {k' : β → Walk β'}
    (hx : Mirrors t f x x') (hk : ∀ {d a d₁}, x d = .ok (a, d₁) → Mirrors t h (k a) (k' (f a))) :
    Mirrors t h (x >>= k) (x' >>= k') where
  ok hok hvalid := by
    obtain ⟨a, d₁, hfirst, hrest⟩ := Walk.bind_eq_ok hok
    obtain ⟨hvalid₁, hlast⟩ := (hk hfirst).ok hrest hvalid
    obtain ⟨hvalid₀, hstep⟩ := hx.ok hfirst hvalid₁
    refine ⟨hvalid₀, ?_⟩
    intro e he
    obtain ⟨e₁, he₁, hdrafts⟩ := hstep e he
    rw [Walk.bind_of_ok he₁]
    exact hlast e₁ hdrafts
  error hexact herror e he := by
    rcases Walk.bind_eq_error herror with hfirst | ⟨a, d₁, hfirst, hrest⟩
    · exact Walk.bind_of_error (hx.error hexact hfirst e he)
    · obtain ⟨-, hstep⟩ := hx.ok hfirst (t.valid_of_exact hexact d₁)
      obtain ⟨e₁, he₁, hdrafts⟩ := hstep e he
      rw [Walk.bind_of_ok he₁]
      exact (hk hfirst).error hexact hrest e₁ hdrafts

/-- A step that finds nothing may be missing. -/
theorem bind_lost {h : α' → β'} {x : Walk (Option α)} {k : Option α → Walk α'} {y : Walk β'} (hx : Lost t x)
    (hk : Mirrors t h (k none) y) : Mirrors t h (x >>= k) y := by
  refine of_ok hx.inexact ?_
  intro d a d₂ hok hvalid
  obtain ⟨found, d₁, hfirst, hrest⟩ := Walk.bind_eq_ok hok
  obtain ⟨rfl, problem, rfl⟩ := hx.none hfirst
  obtain ⟨hvalid₁, hstep⟩ := hk.ok hrest hvalid
  exact ⟨t.valid_of_record hvalid₁, fun e he => hstep e (t.forget hx.inexact he)⟩

/-- What one walk finds at an end of a wire, the other one finds there too. -/
theorem found {f : α → β} {x : Walk (Option α)} {x' : Walk (Option β)} (hexact : ¬ t.Exact)
    (hsome : ∀ {d a d₁}, x d = .ok (some a, d₁) → d₁ = d ∧ ∀ e, x' e = .ok (some (f a), e))
    (hnone : ∀ {d d₁}, x d = .ok (none, d₁) → t.Valid d₁ →
      t.Valid d ∧ ∀ e, t.Drafts d e → ∃ e₁, x' e = .ok (none, e₁) ∧ t.Drafts d₁ e₁) :
    Mirrors t (Option.map f) x x' := by
  refine of_ok hexact ?_
  intro d found d₁ hok hvalid
  cases found with
  | some a =>
    obtain ⟨rfl, hstep⟩ := hsome hok
    exact ⟨hvalid, fun e he => ⟨e, hstep e, he⟩⟩
  | none => exact hnone hok hvalid

/-- One piece of code after the other. -/
theorem bind_andThen {x y x' y' : Walk Code} (hx : Mirrors t t.code x x') (hy : Mirrors t t.code y y') :
    Mirrors t t.code (x >>= fun first => y >>= fun rest => Pure.pure (.andThen first rest))
      (x' >>= fun first => y' >>= fun rest => Pure.pure (.andThen first rest)) := by
  refine hx.bind fun _ => hy.bind fun _ => ?_
  rw [← t.code_andThen]
  exact pure _ _

theorem done (ty : Ty) : Mirrors t t.code (Pure.pure (.done ty)) (Pure.pure (.done ty)) := by
  have hdone : Mirrors t t.code (Pure.pure (.done ty)) (Pure.pure (t.code (.done ty))) := pure _ _
  rwa [t.code_done] at hdone

theorem perform {input input' follow follow' : Nat → Walk Code}
    (hinput : ∀ index, Mirrors t t.code (input index) (input' index))
    (hfollow : ∀ index, Mirrors t t.code (follow index) (follow' index)) {recipe recipe' : Recipe Code}
    (h : recipe.Renders t.name t.code recipe') :
    Mirrors t t.code (perform input follow recipe) (perform input' follow' recipe') := by
  induction h with
  | done c => exact pure _ c
  | fail e => exact refuse e fun _ => rfl
  | input _ ih => exact bind (hinput _) fun _ => ih _
  | follow _ ih => exact bind (hfollow _) fun _ => ih _

end Mirrors

/-! ## Wires -/

/-- A wire that brings no value. -/
theorem lost_producer? {t : Rendering} (hexact : ¬ t.Exact) {g : Graph} {w : Wire}
    (h : g.isValueOutput w.source = false) (id : WireId) : Lost t (g.producer? .standard id w) where
  inexact := hexact
  none {d found d₁} hok := by
    cases found with
    | none =>
      obtain ⟨problem, -, hrecord⟩ := producer?_none hok
      exact ⟨rfl, problem, hrecord⟩
    | some producer =>
      obtain ⟨-, hport, hres⟩ := resolves_of_producer? hok
      rw [← hport, hres.isValueOutput] at h
      cases h

/-- A wire that runs no node. -/
theorem lost_target? {t : Rendering} (hexact : ¬ t.Exact) {g : Graph} {w : Wire}
    (h : g.isSignalInput w.target = false) (id : WireId) : Lost t (g.target? .standard id w) where
  inexact := hexact
  none {d found d₁} hok := by
    rcases target?_eq_ok hok with ⟨hnone, -, -⟩ | ⟨-, -, hsignal, -⟩
    · obtain rfl : found = none := hnone
      obtain ⟨problem, -, hrecord⟩ := target?_none hok
      exact ⟨rfl, problem, hrecord⟩
    · rw [h] at hsignal
      cases hsignal

section

variable (t : Rendering) (g g' : Graph)

/-- Wires that a signal takes in two graphs. A wire that runs no node may be
    missing in the second one. -/
inductive SameTargets : List (WireId × Wire) → List (WireId × Wire) → Prop
  | nil : SameTargets [] []
  | cons {x x' : WireId × Wire} {rest rest' : List (WireId × Wire)} :
    Mirrors t (Option.map t.name.target) (g.target? .standard x.1 x.2) (g'.target? .standard x'.1 x'.2) →
    SameTargets rest rest' → SameTargets (x :: rest) (x' :: rest')
  | lost {x : WireId × Wire} {rest rest' : List (WireId × Wire)} :
    Lost t (g.target? .standard x.1 x.2) → SameTargets rest rest' → SameTargets (x :: rest) rest'

/-- Wires that arrive at an input in two graphs. A wire that brings no value may
    be missing in the second one, and another output may bring it there. -/
inductive SameSources (compute compute' : Producer → Walk Code) :
    List (WireId × Wire) → List (WireId × Wire) → Prop
  | none : SameSources compute compute' [] []
  | one {x x' : WireId × Wire} (f : Producer → Producer) :
    Mirrors t (Option.map f) (g.producer? .standard x.1 x.2) (g'.producer? .standard x'.1 x'.2) →
    (∀ producer, producer.Resolves g → producer.port = x.2.source →
      (f producer).decl = producer.decl ∧ Mirrors t t.code (compute producer) (compute' (f producer))) →
    SameSources compute compute' [x] [x']
  | lost {x : WireId × Wire} : Lost t (g.producer? .standard x.1 x.2) → SameSources compute compute' [x] []
  | many {wires wires' : List (WireId × Wire)} : 1 < wires.length →
    (t.Exact → wires'.length = wires.length) → SameSources compute compute' wires wires'

end

namespace Mirrors

variable {t : Rendering} {g g' : Graph}

/-- The nodes at the ends of the same wires. -/
theorem followWires {activate activate' : Resolved → Nat → Walk Code} {wires wires' : List (WireId × Wire)}
    (h : SameTargets t g g' wires wires')
    (hactivate : ∀ x ∈ wires, ∀ r input, r.id = x.2.target.node → (Visit.activate r input).Meant g →
      Mirrors t t.code (activate r input) (activate' (t.name.resolved r) input)) :
    Mirrors t t.code (g.followWires .standard activate wires) (g'.followWires .standard activate' wires') := by
  induction h with
  | nil => exact done .void
  | cons htarget _ ih =>
    obtain ⟨hhead, hrest⟩ := List.forall_mem_cons.mp hactivate
    apply bind htarget
    intro d found d₁ hfound
    rcases target?_eq_ok hfound with ⟨hnone, -, -⟩ | ⟨r, heq, hsignal, hresolve⟩
    · -- the wire leads nowhere, and the next one is taken
      obtain rfl : found = none := hnone
      exact ih hrest
    · obtain ⟨rfl, -⟩ := Prod.mk.inj heq
      obtain ⟨hid, hmeant⟩ := meant_of_isSignalInput hsignal hresolve
      exact bind_andThen (hhead r _ hid hmeant) (ih hrest)
  | lost hlost _ ih =>
    obtain ⟨-, hrest⟩ := List.forall_mem_cons.mp hactivate
    exact bind_lost hlost (ih hrest)

/-- An input that no wire drives. -/
theorem unconnected (r : Resolved) (index : Nat) (decl : PortDecl) :
    Mirrors t t.code (Pure.pure (Graph.unconnected r index decl))
      (Pure.pure (Graph.unconnected (t.name.resolved r) index decl)) := by
  have hown : Mirrors t t.code (Pure.pure (Graph.unconnected r index decl))
      (Pure.pure (t.code (Graph.unconnected r index decl))) := pure _ _
  rwa [t.code_unconnected] at hown

/-- The value of an input, by the wires that arrive there. -/
theorem inputWith {compute compute' : Producer → Walk Code} {r : Resolved} {index : Nat}
    (h : ∀ decl, r.kind.inputs[index]? = some decl → decl.isSignal = false →
      SameSources t g g' compute compute' (g.arriving ⟨r.id, index⟩) (g'.arriving (t.name.port ⟨r.id, index⟩))) :
    Mirrors t t.code (g.inputWith .standard compute r index)
      (g'.inputWith .standard compute' (t.name.resolved r) index) := by
  have hkind : (t.name.resolved r).kind = r.kind := rfl
  have hport : (⟨(t.name.resolved r).id, index⟩ : Port) = t.name.port ⟨r.id, index⟩ := rfl
  unfold Graph.inputWith
  simp only [hkind, hport]
  cases hdecl : r.kind.inputs[index]? with
  | none => exact refuse _ fun _ => rfl
  | some decl =>
    by_cases hsignal : decl.isSignal = true
    · simp only [hsignal, if_true]
      exact refuse _ fun _ => rfl
    simp only [hsignal]
    have hsources := h decl hdecl (by simpa using hsignal)
    generalize g.arriving ⟨r.id, index⟩ = wires at hsources ⊢
    generalize g'.arriving (t.name.port ⟨r.id, index⟩) = wires' at hsources ⊢
    cases hsources with
    | none => exact unconnected r index decl
    | lost hlost => exact bind_lost hlost (unconnected r index decl)
    | one f hfound hcompute =>
      apply bind hfound
      intro d found d₁ hproducer
      cases found with
      | none => exact unconnected r index decl
      | some producer =>
        obtain ⟨-, hsource, hres⟩ := resolves_of_producer? hproducer
        obtain ⟨hsame, hvalue⟩ := hcompute producer hres hsource
        refine bind hvalue fun {_ value _} _ => ?_
        rw [hsame, ← t.code_adapt]
        exact pure _ _
    | many hmany hlength =>
      -- several wires are an error, whatever they bring
      obtain ⟨first, second, others, rfl⟩ : ∃ first second others, wires = first :: second :: others := by
        match wires, hmany with
        | first :: second :: others, _ => exact ⟨first, second, others, rfl⟩
      refine refuse _ fun hexact => ?_
      obtain ⟨first', second', others', rfl⟩ :
          ∃ first' second' others', wires' = first' :: second' :: others' := by
        match wires', hlength hexact with
        | first' :: second' :: others', _ => exact ⟨first', second', others', rfl⟩
      simp only [hlength hexact]
      rfl

end Mirrors

/-! ## Visits -/

theorem Visit.Meant.subject_id {g : Graph} {v : Visit} (h : v.Meant g) : v.subject.id = v.frame.node := by
  obtain ⟨node, role, hplan⟩ := h.exists_plan
  rw [hplan.subject]

/-- The node of a frame is in the graph. -/
theorem Visit.Meant.isSome_node? {g : Graph} {v : Visit} (h : v.Meant g) : (g.node? v.frame.node).isSome := by
  obtain ⟨-, hnode, -⟩ := node?_of_resolve h.resolve
  rw [h.subject_id] at hnode
  exact Option.isSome_iff_exists.mpr ⟨_, hnode⟩

/-- A visit while these frames are open. -/
def descend (g : Graph) (depth : Nat) (opened : List Event) : Visit → Walk Code :=
  visit g .standard depth (activeNodes opened) (openOutputs opened)

/-- Visits that open frames with `P` are mirrored, down to this depth. -/
def Descends (t : Rendering) (P : Event → Prop) (g g' : Graph) (depth : Nat) (opened : List Event) : Prop :=
  ∀ v : Visit, P v.frame → v.Meant g →
    Mirrors t t.code (g.descend depth opened v) (g'.descend depth (opened.map t.name.event) (t.name.visit v))

/-- Two graphs that are walked side by side. The frames that both walks open are
    those with `P`. -/
structure Parallel (t : Rendering) (P : Event → Prop) (g g' : Graph) : Prop where
  start : g'.start .standard = t.name.result t.name.resolved (g.start .standard)
  entry : ∀ {id}, g.entry = some id → P (.activate id)
  recipe : ∀ {v : Visit}, v.Meant g → v.recipe.Renders t.name t.code (t.name.visit v).recipe
  known? : ∀ {v : Visit} {d e}, P v.frame → t.Valid d → t.Drafts d e →
    (t.name.visit v).known? e = (v.known? d).map t.code
  fanOut : ∀ {p}, P (.compute p) → g.isValueOutput p = true →
    (g'.leaving (t.name.port p)).length = (g.leaving p).length
  share : ∀ {p code default d}, P (.compute p) → t.Valid (d.share p code default).2 → t.Valid d ∧
    ∀ e, t.Drafts d e →
      (e.share (t.name.port p) (t.code code) default).1 = t.code (d.share p code default).1 ∧
        t.Drafts (d.share p code default).2 (e.share (t.name.port p) (t.code code) default).2
  targets : ∀ {e p}, P e → p.node = e.node → g.isSignalOutput p = true →
    SameTargets t g g' (g.leaving p) (g'.leaving (t.name.port p)) ∧
      ∀ x ∈ g.leaving p, P (.activate x.2.target.node)
  sources : ∀ {depth opened}, (∀ e ∈ opened, (g.node? e.node).isSome) → Descends t P g g' depth opened →
    ∀ {e p}, P e → p.node = e.node → g.isValueInput p = true →
      SameSources t g g' (fun producer => g.descend depth opened (.compute producer))
        (fun producer => g'.descend depth (opened.map t.name.event) (.compute producer))
        (g.arriving p) (g'.arriving (t.name.port p))

namespace Parallel

variable {t : Rendering} {P : Event → Prop} {g g' : Graph} (h : Parallel t P g g')

include h

section

variable {e : Event} (he : P e) {activate activate' : Resolved → Nat → Walk Code}
  (hactivate : ∀ r input, P (.activate r.id) → (Visit.activate r input).Meant g →
    Mirrors t t.code (activate r input) (activate' (t.name.resolved r) input))

include he hactivate

theorem followPort {p : Port} (hnode : p.node = e.node) (hp : g.isSignalOutput p = true) :
    Mirrors t t.code (g.followPort .standard activate p)
      (g'.followPort .standard activate' (t.name.port p)) := by
  obtain ⟨htargets, hreached⟩ := h.targets he hnode hp
  refine Mirrors.followWires htargets ?_
  intro x hx r input hid hmeant
  exact hactivate r input (hid ▸ hreached x hx) hmeant

variable {r : Resolved} (hr : g.resolve .standard r.id = .ok (some r)) (hid : r.id = e.node)

include hr hid

theorem followWith (index : Nat) :
    Mirrors t t.code (g.followWith .standard activate r index)
      (g'.followWith .standard activate' (t.name.resolved r) index) := by
  have hkind : (t.name.resolved r).kind = r.kind := rfl
  unfold Graph.followWith
  simp only [hkind]
  cases hdecl : r.kind.outputs[index]? with
  | none => exact Mirrors.refuse _ fun _ => rfl
  | some decl =>
    by_cases hsignal : decl.isSignal = true
    · simp only [hsignal, if_true]
      refine h.followPort he hactivate (p := ⟨r.id, index⟩) hid ?_
      simp [isSignalOutput, output?_of_resolve (p := ⟨r.id, index⟩) hr, hdecl, hsignal]
    · simp only [hsignal]
      exact Mirrors.refuse _ fun _ => rfl

theorem followAll {decls : List (PortDecl × Nat)} (hdecls : ∀ x ∈ decls, r.kind.outputs[x.2]? = some x.1) :
    Mirrors t t.code (g.followAll .standard activate r.id decls)
      (g'.followAll .standard activate' (t.name.resolved r).id decls) := by
  induction decls with
  | nil => exact Mirrors.done .void
  | cons head rest ih =>
    obtain ⟨hhead, hrest⟩ := List.forall_mem_cons.mp hdecls
    unfold Graph.followAll
    by_cases hsignal : head.1.isSignal = true
    · simp only [hsignal, if_true]
      have hport : g.isSignalOutput ⟨r.id, head.2⟩ = true := by
        simp [isSignalOutput, output?_of_resolve (p := ⟨r.id, head.2⟩) hr, hhead, hsignal]
      exact Mirrors.bind_andThen (h.followPort he hactivate hid hport) (ih hrest)
    · simp only [hsignal]
      exact ih hrest

end

/-- Closing a frame: an output is shared by both walks, or by none. -/
theorem close (code : Code) {v : Visit} (hv : P v.frame) (hmeant : v.Meant g) :
    Mirrors t t.code (v.close g code) ((t.name.visit v).close g' (t.code code)) := by
  cases v with
  | activate r input => exact Mirrors.pure _ code
  | compute producer =>
    have hres : producer.Resolves g := hmeant
    have hlength : (g'.leaving (t.name.producer producer).port).length = _ := h.fanOut hv hres.isValueOutput
    show Mirrors t t.code (g.shareIfNeeded producer code)
      (g'.shareIfNeeded (t.name.producer producer) (t.code code))
    unfold shareIfNeeded
    rw [hlength]
    by_cases hle : (g.leaving producer.port).length ≤ 1
    · simp only [hle, if_true]
      exact Mirrors.pure _ code
    · simp only [hle, if_false]
      constructor
      · intro d c d₁ hok hvalid
        cases hok
        obtain ⟨hvalid₀, hshare⟩ := h.share hv hvalid
        refine ⟨hvalid₀, fun e he => ?_⟩
        obtain ⟨hcode, hdrafts⟩ := hshare e he
        exact ⟨_, congrArg Except.ok (Prod.ext hcode rfl), hdrafts⟩
      · intro d err _ herror
        cases herror

/-- Following the recipe of a visit, if the visits that it leads to are
    mirrored. -/
theorem follow {depth : Nat} {opened : List Event} (hopened : ∀ e ∈ opened, (g.node? e.node).isSome)
    (hdeeper : Descends t P g g' depth opened) {v : Visit} (hv : P v.frame) (hmeant : v.Meant g) :
    Mirrors t t.code (v.follow g .standard (g.descend depth opened))
      ((t.name.visit v).follow g' .standard (g'.descend depth (opened.map t.name.event))) := by
  have hsubject : (t.name.visit v).subject = t.name.resolved v.subject := by cases v <;> rfl
  unfold Visit.follow
  rw [hsubject]
  refine Mirrors.perform (fun index => Mirrors.inputWith ?_) (fun index => ?_) (h.recipe hmeant)
  · intro decl hdecl hvalue
    refine h.sources hopened hdeeper (p := ⟨v.subject.id, index⟩) hv hmeant.subject_id ?_
    simp [isValueInput, input?_of_resolve (p := ⟨v.subject.id, index⟩) hmeant.resolve, hdecl, hvalue]
  · refine h.followWith hv ?_ hmeant.resolve hmeant.subject_id index
    intro r input hr hmeant'
    exact hdeeper (.activate r input) hr hmeant'

/-- All visits are mirrored. The induction is on the depth that is left to the
    walk; both walks open the same frames. -/
theorem descends (depth : Nat) {opened : List Event} (hopened : ∀ e ∈ opened, (g.node? e.node).isSome) :
    Descends t P g g' depth opened := by
  induction depth generalizing opened with
  | zero =>
    intro v hv hmeant
    constructor
    · intro d c d₁ hok
      cases v <;> cases hok
    · intro d err _ herror e _
      cases v <;> cases herror <;> rfl
  | succ depth ih =>
    intro v hv hmeant
    have hopened' : ∀ e ∈ v.frame :: opened, (g.node? e.node).isSome :=
      List.forall_mem_cons.mpr ⟨hmeant.isSome_node?, hopened⟩
    have hinside := (h.follow hopened' (ih hopened') hv hmeant).bind
      fun {_ code _} _ => h.close code hv hmeant
    -- a frame is open if and only if it is so under its other name
    have hopen : t.name.event v.frame ∈ opened.map t.name.event ↔ v.frame ∈ opened :=
      List.mem_map_of_injective t.name.event_injective
    constructor
    · intro d c d₁ hok hvalid
      rcases visit_eq_ok hok with ⟨hcode, rfl⟩ | ⟨hcode, hnew, hrest⟩
      · -- what one walk recalls, the other recalls too
        refine ⟨hvalid, fun e he => ⟨e, ?_, he⟩⟩
        unfold descend
        rw [visit_succ, h.known? hv hvalid he, hcode]
        rfl
      · obtain ⟨hvalid₀, hstep⟩ := hinside.ok hrest hvalid
        refine ⟨hvalid₀, fun e he => ?_⟩
        unfold descend
        rw [visit_succ, h.known? hv hvalid₀ he, hcode, t.name.frame_visit]
        simp only [Option.map_none, hopen, hnew, if_false]
        exact hstep e he
    · intro d err hexact herror e he
      have hknown := h.known? hv (t.valid_of_exact hexact d) he
      unfold descend at herror ⊢
      rw [visit_succ] at herror ⊢
      cases hcode : v.known? d with
      | some code => simp [hcode] at herror
      | none =>
        rw [hknown, t.name.frame_visit, t.name.cycle_visit]
        simp only [hcode, Option.map_none, hopen] at herror ⊢
        by_cases hold : v.frame ∈ opened
        · simp only [hold, if_true] at herror ⊢
          cases herror
          rfl
        · simp only [hold, if_false] at herror ⊢
          exact hinside.error hexact herror e he

/-! ## Walks -/

/-- From an entry that is there, both walks are steps that mirror each other. -/
theorem exists_mirrors {entry : Resolved} (hstart : g.start .standard = .ok entry) :
    ∃ x x' : Walk Code, Mirrors t t.code x x' ∧ g.walk .standard = x {} ∧ g'.walk .standard = x' {} := by
  obtain ⟨id, hentry, hresolve⟩ := start_eq_ok hstart
  obtain ⟨rfl, hnode, -⟩ := node?_of_resolve hresolve
  have hstart' : g'.start .standard = .ok (t.name.resolved entry) := by
    rw [h.start, hstart]
    rfl
  -- both walks are given a depth that is enough for either of them
  obtain ⟨depth, hdepth, hdepth'⟩ : ∃ depth, g.nestingBound ≤ depth ∧ g'.nestingBound ≤ depth :=
    ⟨_, Nat.le_max_left _ _, Nat.le_max_right _ _⟩
  have hopened : ∀ e ∈ [Event.activate entry.id], (g.node? e.node).isSome := by
    intro e he
    obtain rfl := List.mem_singleton.mp he
    exact Option.isSome_iff_exists.mpr ⟨entry.node, hnode⟩
  have hdecls : ∀ x ∈ entry.kind.outputs.zipIdx, entry.kind.outputs[x.2]? = some x.1 :=
    fun x hx => List.mem_zipIdx_iff_getElem?.mp hx
  have hmirrors : Mirrors t t.code
      (g.followAll .standard (fun r input => visit g .standard (depth + 1) [entry.id] [] (.activate r input))
        entry.id entry.kind.outputs.zipIdx)
      (g'.followAll .standard (fun r input => visit g' .standard (depth + 1) [(t.name.resolved entry).id] []
        (.activate r input)) (t.name.resolved entry).id (t.name.resolved entry).kind.outputs.zipIdx) := by
    refine h.followAll (h.entry hentry) ?_ hresolve rfl hdecls
    intro r input hr hmeant
    exact h.descends (depth + 1) hopened (.activate r input) hr hmeant
  refine ⟨_, _, hmirrors, ?_, ?_⟩
  · rw [walk_of_start hstart, ← followAll_depth hstart hdepth]
  · rw [walk_of_start hstart', ← followAll_depth hstart' hdepth']

/-- A walk that succeeds is carried over. -/
theorem exists_walk {body : Code} {draft : Draft} (hwalk : g.walk .standard = .ok (body, draft))
    (hvalid : t.Valid draft) :
    ∃ draft', g'.walk .standard = .ok (t.code body, draft') ∧ t.Drafts draft draft' := by
  obtain ⟨entry, hstart, -⟩ := start_of_walk hwalk
  obtain ⟨x, x', hmirrors, heq, heq'⟩ := h.exists_mirrors hstart
  rw [heq] at hwalk
  obtain ⟨-, hstep⟩ := hmirrors.ok hwalk hvalid
  rw [heq']
  exact hstep {} t.start

/-- And so is one that fails, if the rendering is exact. -/
theorem walk_error (hexact : t.Exact) {err : GraphError} (hwalk : g.walk .standard = .error err) :
    g'.walk .standard = .error (t.name.error err) := by
  cases hstart : g.start .standard with
  | error e =>
    have hstart' : g'.start .standard = .error (t.name.error e) := by
      rw [h.start, hstart]
      rfl
    rw [walk_of_start_error hstart] at hwalk
    cases hwalk
    exact walk_of_start_error hstart'
  | ok entry =>
    obtain ⟨x, x', hmirrors, heq, heq'⟩ := h.exists_mirrors hstart
    rw [heq] at hwalk
    rw [heq']
    exact hmirrors.error hexact hwalk {} t.start

end Parallel

/-! ## Graphs that report other problems -/

/-- Nothing is renamed, and drafts belong together whatever they report. -/
structure Rendering.Forgetful (t : Rendering) : Prop where
  name : t.name = .same
  inexact : ¬ t.Exact
  record : ∀ {d e problem}, t.Drafts d e → t.Drafts d (e.record problem)

theorem forgetful_unchanged : unchanged.Forgetful where
  name := rfl
  inexact := not_false
  record he := he.record _

/-- The wire ends in the same way in both graphs: at the same node, or at a
    node that takes no signal in the one and is removed in the other. -/
def EndsAlike (g g' : Graph) (w : Wire) : Prop :=
  g'.resolve .standard w.target.node = g.resolve .standard w.target.node ∨
    g.isSignalInput w.target = false ∧ g'.resolve .standard w.target.node = .ok none

/-- The signals of two graphs take the same wires. -/
structure SameSignals (g g' : Graph) : Prop where
  start : g'.start .standard = g.start .standard
  leaving : ∀ p, g.isSignalOutput p = true → (g'.leaving p).map Prod.snd = (g.leaving p).map Prod.snd
  target : ∀ p, g.isSignalOutput p = true → ∀ x ∈ g.leaving p, g.EndsAlike g' x.2

/-- No signal input is found at the end of a wire, whatever its number is. -/
theorem exists_target?_none {g g' : Graph} {id : WireId} {w : Wire} {d d₁ : Draft}
    (h : g.target? .standard id w d = .ok (none, d₁)) (hends : g.EndsAlike g' w) (id' : WireId) (e : Draft) :
    ∃ problem, g'.target? .standard id' w e = .ok (none, e.record problem) := by
  rcases hends with hresolve | ⟨-, hgone⟩
  · obtain ⟨found, hfound, heq⟩ := exists_of_target? h
    obtain ⟨problem, htarget, -⟩ := exists_of_reported heq
    obtain ⟨problem', htarget'⟩ := exists_targetAt_error htarget id'
    refine ⟨problem', ?_⟩
    rw [target?_apply, hresolve, hfound]
    simp [Except.map, reported, htarget']
  · refine ⟨.missingTarget id' w.target.node, ?_⟩
    rw [target?_apply, hgone]
    rfl

namespace Rendering.Forgetful

variable {t : Rendering} (ht : t.Forgetful) {g g' : Graph}

include ht

/-- What is found at an end of a wire, or not, in both graphs. -/
theorem found {α β : Type} {f : α → β} {x : Walk (Option α)} {x' : Walk (Option β)}
    (hsome : ∀ {d a d₁}, x d = .ok (some a, d₁) → d₁ = d ∧ ∀ e, x' e = .ok (some (f a), e))
    (hnone : ∀ {d d₁}, x d = .ok (none, d₁) →
      (∃ problem, d₁ = d.record problem) ∧ ∀ e, ∃ problem, x' e = .ok (none, e.record problem)) :
    Mirrors t (Option.map f) x x' := by
  refine Mirrors.found ht.inexact hsome ?_
  intro d d₁ hok hvalid
  obtain ⟨⟨problem, rfl⟩, hstep⟩ := hnone hok
  refine ⟨t.valid_of_record hvalid, fun e he => ?_⟩
  obtain ⟨problem', he'⟩ := hstep e
  exact ⟨_, he', ht.record (t.forget ht.inexact he)⟩

/-- The start of a wire. Another output may stand there in the second graph. -/
theorem producer? {f : Producer → Producer} {id id' : WireId} {w w' : Wire}
    (hsome : ∀ producer, producer.Resolves g → producer.port = w.source →
      (f producer).Resolves g' ∧ (f producer).port = w'.source)
    (hnone : ∀ {d d₁}, g.producer? .standard id w d = .ok (none, d₁) →
      ∀ e, ∃ problem, g'.producer? .standard id' w' e = .ok (none, e.record problem)) :
    Mirrors t (Option.map f) (g.producer? .standard id w) (g'.producer? .standard id' w') := by
  refine ht.found ?_ ?_
  · intro d producer d₁ hok
    obtain ⟨rfl, hport, hres⟩ := resolves_of_producer? hok
    obtain ⟨hres', hport'⟩ := hsome producer hres hport
    exact ⟨rfl, producer?_of_resolves hres' id' hport'⟩
  · intro d d₁ hok
    obtain ⟨problem, -, hrecord⟩ := producer?_none hok
    exact ⟨⟨problem, hrecord⟩, hnone hok⟩

/-- The end of a wire. -/
theorem target? {w : Wire} (hends : g.EndsAlike g' w) (id id' : WireId) :
    Mirrors t (Option.map t.name.target) (g.target? .standard id w) (g'.target? .standard id' w) := by
  rw [ht.name]
  refine ht.found ?_ ?_
  · intro d target d₁ hok
    rcases target?_eq_ok hok with ⟨hnone, -, -⟩ | ⟨r, heq, hsignal, hresolve⟩
    · cases hnone
    · cases heq
      have hsame := hends.resolve_right fun hgone => by simp [hsignal] at hgone
      obtain ⟨-, hmeant⟩ := meant_of_isSignalInput hsignal hresolve
      exact ⟨rfl, target?_of_meant (hsame.trans hresolve) hmeant id'⟩
  · intro d d₁ hok
    obtain ⟨problem, -, hrecord⟩ := target?_none hok
    exact ⟨⟨problem, hrecord⟩, exists_target?_none hok hends id'⟩

theorem sameTargets {wires wires' : List (WireId × Wire)} (hsame : wires'.map Prod.snd = wires.map Prod.snd)
    (hends : ∀ x ∈ wires, g.EndsAlike g' x.2) : SameTargets t g g' wires wires' := by
  induction wires generalizing wires' with
  | nil =>
    obtain rfl : wires' = [] := by simpa using hsame
    exact .nil
  | cons head rest ih =>
    obtain ⟨⟨id', w'⟩, rest', rfl, hw', hrest⟩ := List.map_eq_cons_iff.mp hsame
    obtain rfl : w' = head.2 := hw'
    obtain ⟨hhead, hothers⟩ := List.forall_mem_cons.mp hends
    exact .cons (ht.target? hhead head.1 id') (ih hrest hothers)

end Rendering.Forgetful

/-- The signals of both graphs start from the same node. -/
theorem SameSignals.start_same {g g' : Graph} (h : g.SameSignals g') :
    g'.start .standard = Renaming.same.result Renaming.same.resolved (g.start .standard) :=
  h.start.trans (Renaming.same_result _).symm

end Graph

end FlowGraph
