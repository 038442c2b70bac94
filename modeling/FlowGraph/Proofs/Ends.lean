import FlowGraph.Proofs.Act

/-! # Ways to end

    The ends that something may have: a result with the variables after it,
    or a fault, and the state of the host. An act has at most one end; code
    that is free in when it computes a shared value may have several, and
    what is asked of code is again a set of ends.

    `Within x y` says that every end of `x` is one of `y`: `x` may give up
    where `y` ends, but not end in another way.
-/

namespace FlowGraph

/-- The ends that are allowed, from the variables and the state of the host. -/
def Ends (σ α : Type) : Type := Variables → σ → Except Fault (α × Variables) × σ → Prop

namespace Ends

variable {σ α β γ : Type}

/-- No end. -/
def never : Ends σ α := fun _ _ _ => False

def fault (f : Fault) : Ends σ α := fun _ w r => r = (.error f, w)

instance : Monad (Ends σ) where
  pure a := fun vars w r => r = (.ok (a, vars), w)
  bind x f := fun vars w r =>
    (∃ fault w', x vars w (.error fault, w') ∧ r = (.error fault, w')) ∨
    ∃ a vars' w', x vars w (.ok (a, vars'), w') ∧ f a vars' w' r

/-- The ends of all that are listed. -/
def anyOf (list : Nat → Ends σ α) : Ends σ α := fun vars w r => ∃ n, list n vars w r

/-- Repeats at most so many times with a counter, while the counter is below
    the limit. -/
def iterate (body : α → Ends σ α) (limit : Double) : Nat → Double → α → Ends σ α
  | 0, counter, a => if counter.lt limit then never else return a
  | turns + 1, counter, a =>
    if counter.lt limit then do
      let a ← body a
      iterate body limit turns (counter.add .one) a
    else return a

theorem pure_iff {a : α} {vars : Variables} {w : σ} {r : Except Fault (α × Variables) × σ} :
    (pure a : Ends σ α) vars w r ↔ r = (.ok (a, vars), w) := Iff.rfl

/-- A fault ends both. -/
theorem bind_error {x : Ends σ α} {f : α → Ends σ β} {vars : Variables} {w w' : σ} {fault : Fault}
    (h : x vars w (.error fault, w')) : (x >>= f) vars w (.error fault, w') :=
  .inl ⟨fault, w', h, rfl⟩

theorem bind_ok {x : Ends σ α} {f : α → Ends σ β} {vars vars' : Variables} {w w' : σ} {a : α}
    {r : Except Fault (β × Variables) × σ} (h : x vars w (.ok (a, vars'), w'))
    (hf : f a vars' w' r) : (x >>= f) vars w r :=
  .inr ⟨a, vars', w', h, hf⟩

theorem id_map_eq (x : Ends σ α) : id <$> x = x := by
  funext vars w r
  refine propext ⟨?_, fun h => ?_⟩
  · rintro (⟨fault, w', hx, rfl⟩ | ⟨a, vars', w', hx, rfl⟩) <;> exact hx
  · obtain ⟨fault | ⟨a, vars'⟩, w'⟩ := r
    · exact bind_error h
    · exact bind_ok h rfl

theorem pure_bind_eq (a : α) (f : α → Ends σ β) : (pure a : Ends σ α) >>= f = f a := by
  funext vars w r
  refine propext ⟨?_, bind_ok rfl⟩
  rintro (⟨fault, w', hx, rfl⟩ | ⟨a', vars', w', hx, hf⟩)
  · cases hx
  · cases hx
    exact hf

theorem bind_assoc_eq (x : Ends σ α) (f : α → Ends σ β) (g : β → Ends σ γ) :
    x >>= f >>= g = x >>= fun a => f a >>= g := by
  funext vars w r
  refine propext ⟨?_, ?_⟩
  · rintro (⟨fault, w', ⟨fault, w', hx, heq⟩ | ⟨a, vars', w', hx, hf⟩, rfl⟩ |
      ⟨b, vars', w', ⟨fault, w', hx, heq⟩ | ⟨a, vars', w', hx, hf⟩, hg⟩)
    · cases heq
      exact bind_error hx
    · exact bind_ok hx (bind_error hf)
    · cases heq
    · exact bind_ok hx (bind_ok hf hg)
  · rintro (⟨fault, w', hx, rfl⟩ | ⟨a, vars', w', hx, ⟨fault, w', hf, rfl⟩ | ⟨b, vars'', w', hf, hg⟩⟩)
    · exact bind_error (bind_error hx)
    · exact bind_error (bind_ok hx hf)
    · exact bind_ok (bind_ok hx hf) hg

instance : LawfulMonad (Ends σ) := .mk' (Ends σ) id_map_eq pure_bind_eq bind_assoc_eq

/-! ## Comparing -/

/-- Every end of `x` is one of `y`. -/
def Within (x y : Ends σ α) : Prop := ∀ vars w r, x vars w r → y vars w r

/-- Every result has the property. -/
def Yields (x : Ends σ α) (property : α → Prop) : Prop :=
  ∀ vars w a vars' w', x vars w (.ok (a, vars'), w') → property a

theorem Within.refl (x : Ends σ α) : Within x x := fun _ _ _ h => h

theorem Within.trans {x y z : Ends σ α} (hxy : Within x y) (hyz : Within y z) : Within x z :=
  fun vars w r h => hyz vars w r (hxy vars w r h)

theorem Within.of_eq {x y : Ends σ α} (h : x = y) : Within x y := h ▸ Within.refl x

theorem Within.never (x : Ends σ α) : Within never x := fun _ _ _ h => nomatch h

theorem Within.anyOf {list : Nat → Ends σ α} {y : Ends σ α} (h : ∀ n, Within (list n) y) :
    Within (anyOf list) y :=
  fun vars w r ⟨n, hn⟩ => h n vars w r hn

theorem within_anyOf (list : Nat → Ends σ α) (n : Nat) : Within (list n) (anyOf list) :=
  fun _ _ _ h => ⟨n, h⟩

/-- What follows is compared on the results that there can be. -/
theorem Within.bind {x y : Ends σ α} {f g : α → Ends σ β} {property : α → Prop} (hxy : Within x y)
    (hy : Yields y property) (hfg : ∀ a, property a → Within (f a) (g a)) :
    Within (x >>= f) (y >>= g) := by
  rintro vars w r (⟨fault, w', hx, rfl⟩ | ⟨a, vars', w', hx, hf⟩)
  · exact bind_error (hxy _ _ _ hx)
  · have hya := hxy _ _ _ hx
    exact bind_ok hya (hfg a (hy _ _ _ _ _ hya) _ _ _ hf)

/-- What goes before may be left out of the comparison. -/
theorem Within.bind_right {x y : Ends σ α} (f : α → Ends σ β) (h : Within x y) :
    Within (x >>= f) (y >>= f) := by
  rintro vars w r (⟨fault, w', hx, rfl⟩ | ⟨a, vars', w', hx, hf⟩)
  · exact bind_error (h _ _ _ hx)
  · exact bind_ok (h _ _ _ hx) hf

theorem Within.bind_left (x : Ends σ α) {f g : α → Ends σ β} (h : ∀ a, Within (f a) (g a)) :
    Within (x >>= f) (x >>= g) := by
  rintro vars w r (⟨fault, w', hx, rfl⟩ | ⟨a, vars', w', hx, hf⟩)
  · exact bind_error hx
  · exact bind_ok hx (h a _ _ _ hf)

/-- What follows a known result. -/
theorem Within.bind_return {x : Ends σ α} {y : Ends σ γ} {a : α} {f : α → Ends σ β} {z : Ends σ β}
    (hx : Within x (do let _ ← y; return a)) (hf : Within (f a) z) :
    Within (x >>= f) (do let _ ← y; z) := by
  have hfirst := hx.bind_right f
  simp only [bind_assoc, pure_bind] at hfirst
  exact hfirst.trans (Within.bind_left y fun _ => hf)

theorem Yields.true (x : Ends σ α) : Yields x fun _ => True := fun _ _ _ _ _ _ => trivial

theorem Yields.pure {a : α} {property : α → Prop} (h : property a) :
    Yields (pure a : Ends σ α) property := by
  rintro vars w b vars' w' heq
  cases heq
  exact h

theorem Yields.never {property : α → Prop} : Yields (never : Ends σ α) property :=
  fun _ _ _ _ _ h => nomatch h

theorem Yields.bind {x : Ends σ α} {f : α → Ends σ β} {P : α → Prop} {Q : β → Prop}
    (hx : Yields x P) (hf : ∀ a, P a → Yields (f a) Q) : Yields (x >>= f) Q := by
  rintro vars w b vars' w' (⟨fault, w'', -, heq⟩ | ⟨a, vars'', w'', hxa, hfa⟩)
  · cases heq
  · exact hf a (hx _ _ _ _ _ hxa) _ _ _ _ _ hfa

/-- The ends whose result, if there is one, has the property. -/
def having (x : Ends σ α) (property : α → Prop) : Ends σ α := fun vars w r =>
  x vars w r ∧ ∀ a vars', r.1 = .ok (a, vars') → property a

theorem having_within (x : Ends σ α) (property : α → Prop) : (x.having property).Within x :=
  fun _ _ _ h => h.1

theorem having_yields (x : Ends σ α) (property : α → Prop) : (x.having property).Yields property :=
  fun _ _ a vars' _ h => h.2 a vars' rfl

theorem Within.having {x y : Ends σ α} {property : α → Prop} (h : Within x y)
    (hx : Yields x property) : Within x (y.having property) := by
  rintro vars w ⟨r, w'⟩ hr
  refine ⟨h _ _ _ hr, ?_⟩
  rintro a vars' rfl
  exact hx _ _ _ _ _ hr

theorem Within.having_mono {x y : Ends σ α} {property : α → Prop} (h : Within x y) :
    Within (x.having property) (y.having property) :=
  fun _ _ _ hr => ⟨h _ _ _ hr.1, hr.2⟩

end Ends

/-! ## Acts -/

namespace Act

variable {σ τ α β : Type}

/-- The end of an act. -/
def ends (x : Act σ α) : Ends σ α := fun vars w r => x vars w = some r

@[simp] theorem ends_pure (a : α) : (pure a : Act σ α).ends = pure a := by
  funext vars w r
  simp only [ends, pure_apply, Option.some.injEq]
  exact propext eq_comm

@[simp] theorem ends_never : (never : Act σ α).ends = Ends.never := by
  funext vars w r
  simp [ends, Ends.never]

@[simp] theorem ends_bind (x : Act σ α) (f : α → Act σ β) :
    (x >>= f).ends = x.ends >>= fun a => (f a).ends := by
  funext vars w r
  refine propext ⟨fun h => ?_, ?_⟩
  · rcases bind_eq_some h with ⟨fault, w', hx, rfl⟩ | ⟨a, vars', w', hx, hf⟩
    · exact Ends.bind_error hx
    · exact Ends.bind_ok hx hf
  · rintro (⟨fault, w', hx, rfl⟩ | ⟨a, vars', w', hx, hf⟩)
    · exact bind_of_error hx
    · exact (bind_of_ok hx).trans hf

/-- The ends that an act has from every state that is related to the one of
    the host, with the state after it related again. -/
def upTo (R : σ → τ → Prop) (x : Act τ α) : Ends σ α := fun vars w r =>
  ∀ w₁, R w w₁ → ∃ w₁', x vars w₁ = some (r.1, w₁') ∧ R r.2 w₁'

theorem pure_within_upTo (R : σ → τ → Prop) (a : α) :
    (pure a : Ends σ α).Within ((pure a : Act τ α).upTo R) := by
  rintro vars w r rfl w₁ hw
  exact ⟨w₁, rfl, hw⟩

theorem bind_within_upTo (R : σ → τ → Prop) (x : Act τ α) (f : α → Act τ β) :
    (x.upTo R >>= fun a => (f a).upTo R).Within ((x >>= f).upTo R) := by
  rintro vars w r (⟨fault, w', hx, rfl⟩ | ⟨a, vars', w', hx, hf⟩) w₁ hw
  · obtain ⟨w₁', hx₁, hw'⟩ := hx w₁ hw
    exact ⟨w₁', bind_of_error hx₁, hw'⟩
  · obtain ⟨w₁', hx₁, hw'⟩ := hx w₁ hw
    obtain ⟨w₁'', hf₁, hw''⟩ := hf w₁' hw'
    exact ⟨w₁'', (bind_of_ok hx₁).trans hf₁, hw''⟩

theorem map_within_upTo (R : σ → τ → Prop) (x : Act τ α) (f : α → β) :
    (do let a ← x.upTo R; return f a).Within ((do let a ← x; return f a : Act τ β).upTo R) :=
  (Ends.Within.bind (Ends.Within.refl _) (Ends.Yields.true _) fun a _ =>
    pure_within_upTo R (f a)).trans (bind_within_upTo R x fun a => pure (f a))

/-- Questions with the same answer from related states. -/
theorem ask_within_upTo {R : σ → τ → Prop} {question : σ → Except Fault α × σ}
    {question' : τ → Except Fault α × τ}
    (h : ∀ w w₁, R w w₁ → (question w).1 = (question' w₁).1 ∧ R (question w).2 (question' w₁).2) :
    (ask question).ends.Within ((ask question').upTo R) := by
  rintro vars w r heq w₁ hw
  cases heq
  obtain ⟨hanswer, hw'⟩ := h w w₁ hw
  exact ⟨(question' w₁).2, by rw [ask_apply, hanswer], hw'⟩

theorem ask_yields {question : σ → Except Fault α × σ} {property : α → Prop}
    (h : ∀ w a, (question w).1 = .ok a → property a) : (ask question).ends.Yields property := by
  intro vars w a vars' w' hask
  simp only [ends, ask_apply, Option.some.injEq, Prod.mk.injEq] at hask
  cases hanswer : (question w).1 with
  | error fault => simp [hanswer, Except.map] at hask
  | ok b =>
    simp only [hanswer, Except.map, Except.ok.injEq, Prod.mk.injEq] at hask
    exact hask.1.1 ▸ h w b hanswer

end Act

namespace Host

variable {σ : Type}

/-- What there is after a check has passed it. -/
theorem exists_of_bind_eq_ok {α β : Type} {answer : Except Fault α} {check : α → Except Fault β} {b : β}
    (h : answer >>= check = .ok b) : ∃ a, check a = .ok b := by
  cases answer with
  | error fault => cases h
  | ok a => exact ⟨a, h⟩

/-- What a call gives back is of the expected type. -/
theorem call_yields (host : Host σ) (target : String) (args : List Value) (returns : Ty) :
    (host.call target args returns).ends.Yields fun result =>
      match result with
      | none => returns = .void
      | some v => v.conforms returns = true := by
  refine Act.ask_yields fun w result hresult => ?_
  obtain ⟨_ | v, hcheck⟩ := exists_of_bind_eq_ok hresult
  · rw [checkResult] at hcheck
    split at hcheck
    · next hvoid => rw [← Except.ok.inj hcheck]; exact hvoid
    · cases hcheck
  · rw [checkResult] at hcheck
    split at hcheck
    · next hty => rw [← Except.ok.inj hcheck]; exact hty
    · cases hcheck

theorem field_yields (host : Host σ) (owner name : String) (ty : Ty) :
    (host.field owner name ty).ends.Yields fun v => v.conforms ty = true := by
  refine Act.ask_yields fun w result hresult => ?_
  obtain ⟨v, hcheck⟩ := exists_of_bind_eq_ok hresult
  rw [checkField] at hcheck
  split at hcheck
  · next hty => exact Except.ok.inj hcheck ▸ hty
  · cases hcheck

end Host

end FlowGraph
