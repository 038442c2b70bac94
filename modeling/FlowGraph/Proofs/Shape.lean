import FlowGraph.Proofs.Account

/-! # The shape of the code that is built

    What laying out code relies on, and the walk provides:

    * operations that stand alone need no slot and no label, and raw pieces
      of code use only labels of their own (`Code.Fits`);
    * a shared computation is code for a value and names only earlier ones,
      so they can be laid out one inside the other (`Draft.Ordered`);
    * each shared computation has the type and the first value that the
      output declares (`Graph.Matches`);
    * every shared computation is needed by the code (`Draft.Reaches`).
-/

namespace FlowGraph

namespace Op

/-- An operation that works on the stack alone. -/
def isPlain : Op → Bool
  | .load _ _ => false
  | .store _ _ => false
  | .label _ => false
  | .jump _ => false
  | .jumpIf _ => false
  | .jumpUnless _ => false
  | .ret => false
  | _ => true

/-- Operations that use no slots, jump only to labels of their own, and do not
    return. -/
structure Closed (ops : List Op) : Prop where
  slots : ∀ o ∈ ops, o.touchesSlot = false ∧ o ≠ .ret
  once : (ops.filterMap Op.defines?).Nodup
  defined : ∀ l ∈ ops.filterMap Op.references?, l ∈ ops.filterMap Op.defines?

theorem closed_castOps (c : Category) (default : Const) : Closed (c.castOps default) := by
  refine ⟨?_, ?_, ?_⟩
  · cases c <;> simp [Category.castOps, touchesSlot]
  · cases c <;> exact (by decide : [1, 0].Nodup)
  · cases c <;> exact (by decide : ∀ l ∈ [1, 0], l ∈ [1, 0])

end Op

/-- What is in a list stays at its place when the list gets longer. -/
theorem getElem?_of_starts {α : Type} {l l' : List α} (h : l <+: l') {i : Nat} {a : α}
    (ha : l[i]? = some a) : l'[i]? = some a := by
  obtain ⟨rest, rfl⟩ := h
  obtain ⟨hlt, -⟩ := List.getElem?_eq_some_iff.mp ha
  rwa [List.getElem?_append_left hlt]

namespace Code

/-- The shared computations that the code names. -/
def mentions : Code → List SharedId
  | .shared id _ => [id]
  | .andThen first rest => first.mentions ++ rest.mentions
  | .setVariable _ value => value.mentions
  | .loop times body => times.mentions ++ body.mentions
  | .branch condition yes no => condition.mentions ++ yes.mentions ++ no.mentions
  | _ => []

/-- The names of the variables that the code reads and sets. -/
def names : Code → List String
  | .getVariable name => [name]
  | .andThen first rest => first.names ++ rest.names
  | .setVariable name value => name :: value.names
  | .loop times body => times.names ++ body.names
  | .branch condition yes no => condition.names ++ yes.names ++ no.names
  | _ => []

/-- Code that runs straight through and changes no variable. -/
def isValue : Code → Bool
  | .andThen first rest => first.isValue && rest.isValue
  | .setVariable _ _ => false
  | .loop _ _ => false
  | .branch _ _ _ => false
  | _ => true

/-- Code that may stand where shared computations of these types are there,
    and only the first `n` may be named. -/
def Fits (types : List Ty) (n : Nat) : Code → Prop
  | .op o _ => o.isPlain = true
  | .done _ => True
  | .andThen first rest => first.Fits types n ∧ rest.Fits types n
  | .raw _ ops => Op.Closed ops
  | .shared id ty => id < n ∧ types[id]? = some ty
  | .getVariable _ => True
  | .setVariable _ value => value.Fits types n
  | .loop times body => times.Fits types n ∧ body.Fits types n
  | .branch condition yes no => condition.Fits types n ∧ yes.Fits types n ∧ no.Fits types n

theorem Fits.mono {types types' : List Ty} {n n' : Nat} (htypes : types <+: types') (hn : n ≤ n')
    {c : Code} (h : c.Fits types n) : c.Fits types' n' := by
  induction c with
  | op o ty => exact h
  | done ty => trivial
  | andThen first rest ihf ihr => exact ⟨ihf h.1, ihr h.2⟩
  | raw ty ops => exact h
  | shared id ty => exact ⟨Nat.lt_of_lt_of_le h.1 hn, getElem?_of_starts htypes h.2⟩
  | getVariable name => trivial
  | setVariable name value ih => exact ih h
  | loop times body iht ihb => exact ⟨iht h.1, ihb h.2⟩
  | branch condition yes no ihc ihy ihn => exact ⟨ihc h.1, ihy h.2.1, ihn h.2.2⟩

/-- What fits names only the first `n`. -/
theorem Fits.lt_of_mem {types : List Ty} {n : Nat} {c : Code} (h : c.Fits types n) {id : SharedId}
    (hid : id ∈ c.mentions) : id < n := by
  induction c with
  | op o ty => cases hid
  | done ty => cases hid
  | andThen first rest ihf ihr =>
    rcases List.mem_append.mp hid with hid | hid
    · exact ihf h.1 hid
    · exact ihr h.2 hid
  | raw ty ops => cases hid
  | shared id' ty =>
    obtain rfl := List.mem_singleton.mp hid
    exact h.1
  | getVariable name => cases hid
  | setVariable name value ih => exact ih h hid
  | loop times body iht ihb =>
    rcases List.mem_append.mp hid with hid | hid
    · exact iht h.1 hid
    · exact ihb h.2 hid
  | branch condition yes no ihc ihy ihn =>
    rcases List.mem_append.mp hid with hid | hid
    · rcases List.mem_append.mp hid with hid | hid
      · exact ihc h.1 hid
      · exact ihy h.2.1 hid
    · exact ihn h.2.2 hid

end Code

namespace Draft

/-- The types of the shared computations. -/
def types (d : Draft) : List Ty := d.shared.map Shared.ty

/-- Every shared computation is code for a value that names only earlier
    ones. -/
def Ordered (d : Draft) : Prop :=
  ∀ (id : SharedId) (entry : Shared), d.shared[id]? = some entry →
    entry.value.isValue = true ∧ entry.value.Fits d.types id

/-- The shared computations that the code needs, directly or through other
    ones. -/
inductive Reaches (d : Draft) (c : Code) : SharedId → Prop
  | mention {id} : id ∈ c.mentions → Reaches d c id
  | through {id id'} {entry : Shared} : Reaches d c id' → d.shared[id']? = some entry →
    id ∈ entry.value.mentions → Reaches d c id

theorem Reaches.of_mentions {d : Draft} {c c' : Code} (h : ∀ id ∈ c.mentions, d.Reaches c' id)
    {id : SharedId} (hid : d.Reaches c id) : d.Reaches c' id := by
  induction hid with
  | mention hid => exact h _ hid
  | through _ hentry hid ih => exact .through ih hentry hid

theorem Reaches.of_grows {d d' : Draft} (hd : d.Grows d') {c : Code} {id : SharedId}
    (h : d.Reaches c id) : d'.Reaches c id := by
  induction h with
  | mention hid => exact .mention hid
  | through _ hentry hid ih => exact .through ih (getElem?_of_starts hd.shared hentry) hid

theorem Grows.types {d d' : Draft} (h : d.Grows d') : d.types <+: d'.types := h.shared.map _

theorem Grows.length_le {d d' : Draft} (h : d.Grows d') : d.shared.length ≤ d'.shared.length :=
  h.shared.length_le

end Draft

/-! ## Drafts that share only what is needed -/

namespace Draft

/-- What was shared between two drafts is needed by the code. -/
def Covers (d d' : Draft) (c : Code) : Prop :=
  ∀ id, d.shared.length ≤ id → id < d'.shared.length → d'.Reaches c id

theorem Covers.of_length_eq {d d' : Draft} {c : Code} (h : d'.shared.length = d.shared.length) :
    d.Covers d' c :=
  fun _ hge hlt => absurd hlt (by omega)

theorem Covers.of_mentions {d d' : Draft} {c c' : Code} (h : d.Covers d' c)
    (hc : ∀ id ∈ c.mentions, id ∈ c'.mentions) : d.Covers d' c' :=
  fun id hge hlt => (h id hge hlt).of_mentions fun id hid => .mention (hc id hid)

theorem Covers.seq {d₁ d₂ d₃ : Draft} {c : Code} (h₁ : d₁.Covers d₂ c) (hgrows : d₂.Grows d₃)
    (h₂ : d₂.Covers d₃ c) : d₁.Covers d₃ c := by
  intro id hge hlt
  rcases Nat.lt_or_ge id d₂.shared.length with hlt' | hge'
  · exact (h₁ id hge hlt').of_grows hgrows
  · exact h₂ id hge' hlt

/-- A reference to the last computation that was shared needs it, and what it
    needs. -/
theorem Covers.share {d d' : Draft} {c : Code} (h : d.Covers d' c) (p : Port) (default : Const) :
    d.Covers (d'.share p c default).2 (d'.share p c default).1 := by
  have hgrows : d'.Grows (d'.share p c default).2 := .share p c default .refl
  have hself : (d'.share p c default).2.Reaches (d'.share p c default).1 d'.shared.length :=
    .mention (List.mem_singleton.mpr rfl)
  have hnew : (d'.share p c default).2.shared[d'.shared.length]? =
      some ⟨c, c.ty, default, none⟩ := by simp [Draft.share]
  intro id hge hlt
  rcases Nat.lt_or_ge id d'.shared.length with hlt' | hge'
  · exact ((h id hge hlt').of_grows hgrows).of_mentions fun id hid => .through hself hnew hid
  · have hle : id ≤ d'.shared.length := by simpa [Draft.share, Nat.lt_succ_iff] using hlt
    rwa [Nat.le_antisymm hle hge']

end Draft

/-! ## Conversions -/

namespace Category

theorem mentions_wrap (c : Category) (value : Code) : (c.wrap value).mentions = value.mentions := by
  cases c <;> simp [wrap, Code.block, Code.mentions, Code.const]

theorem mentions_cast (c : Category) (value : Code) : (c.cast value).mentions = value.mentions := by
  cases c <;> simp [cast, default?, Code.block, Code.mentions]

end Category

namespace Code

/-- Code for a value that fits. -/
structure Built (types : List Ty) (n : Nat) (c : Code) : Prop where
  value : c.isValue = true
  fits : c.Fits types n

variable {types : List Ty} {n : Nat} {value : Code}

theorem Built.wrap (h : value.Built types n) (c : Category) : (c.wrap value).Built types n := by
  constructor
  · cases c <;> simp [Category.wrap, block, isValue, Code.const, h.value]
  · cases c <;> simp [Category.wrap, block, Fits, Code.const, Op.isPlain, h.fits]

theorem Built.cast (h : value.Built types n) (c : Category) : (c.cast value).Built types n := by
  constructor
  · cases c <;> simp [Category.cast, Category.default?, block, isValue, h.value]
  · cases c <;>
      simp [Category.cast, Category.default?, block, Fits, Op.isPlain, Op.closed_castOps, h.fits]

theorem Built.adapt (h : value.Built types n) (produced consumed : PortDecl) :
    (Graph.adapt produced consumed value).Built types n := by
  unfold Graph.adapt
  split
  · split
    · exact h
    · exact (h.wrap _).cast _
  · exact h.wrap _
  · exact h.cast _
  · exact h

theorem built_load (c : Category) (literal : Literal) : (c.load literal).Built types n := by
  unfold Category.load
  split <;> exact ⟨rfl, by simp [Fits, Code.const, Code.empty, Op.isPlain]⟩

theorem built_unconnected (r : Graph.Resolved) (index : Nat) (decl : PortDecl) :
    (Graph.unconnected r index decl).Built types n := by
  unfold Graph.unconnected
  cases decl.form
  · exact built_load _ _
  · exact (built_load _ _).wrap _

end Code

namespace Graph

/-- A conversion names what the code that it converts names. -/
theorem mentions_adapt (produced consumed : PortDecl) (c : Code) :
    (adapt produced consumed c).mentions = c.mentions := by
  unfold adapt
  split
  · split
    · rfl
    · rw [Category.mentions_cast, Category.mentions_wrap]
  · exact Category.mentions_wrap _ _
  · exact Category.mentions_cast _ _
  · rfl

/-! ## Code for values -/

section

variable {g : Graph} {opened : List Port} {need : Need} {d d' : Draft} {c : Code} {log : List Event}

theorem built_shared {id : SharedId} {entry : Shared} (h : d.shared[id]? = some entry) :
    (Code.shared id entry.ty).Built d.types d.shared.length := by
  obtain ⟨hlt, -⟩ := List.getElem?_eq_some_iff.mp h
  exact ⟨rfl, hlt, by simp [Draft.types, h]⟩

theorem Pulls.built (h : Pulls g opened need d c d' log) : c.Built d'.types d'.shared.length := by
  induction h with
  | own => exact Code.built_unconnected _ _ _
  | driven _ _ _ _ _ ih => exact ih.adapt _ _
  | recalled hshared =>
    obtain ⟨id, entry, -, hentry, rfl⟩ := Draft.shared?_eq_some hshared
    exact built_shared hentry
  | single _ _ _ _ ih => exact ih
  | @shared _ p decl _ c d' _ _ _ _ _ _ _ =>
    have hentry : (d'.share p c decl.default).2.shared[d'.shared.length]? =
        some ⟨c, c.ty, decl.default, none⟩ := by simp [Draft.share]
    exact built_shared hentry
  | constant _ _ ih => exact ih
  | getVariable => exact ⟨rfl, trivial⟩
  | query => exact ⟨rfl, rfl, trivial⟩
  | arith _ _ hy ihx ihy =>
    have hx := ihx.fits.mono hy.grows.types hy.grows.length_le
    exact ⟨by simp [Code.arith, Code.block, Code.isValue, ihx.value, ihy.value],
      hx, ihy.fits, rfl, trivial⟩
  | compare _ _ hy ihx ihy =>
    have hx := ihx.fits.mono hy.grows.types hy.grows.length_le
    exact ⟨by simp [Code.compare, Code.block, Code.isValue, ihx.value, ihy.value],
      hx, ihy.fits, rfl, trivial⟩
  | not _ _ ih =>
    exact ⟨by simp [Code.block, Code.isValue, ih.value], ih.fits, rfl, trivial⟩
  | mathConstant => exact ⟨rfl, rfl⟩

/-- Every computation that is shared names only those shared before it. -/
theorem kept_ordered (g : Graph) : Kept g Draft.Ordered where
  problems _ h := h
  share {_ p decl _ c d' _} hpulls _ _ h := by
    intro id entry hentry
    have htypes := (Draft.Grows.share p c decl.default (.refl (d := d'))).types
    rcases Draft.share_getElem? hentry with hold | ⟨rfl, rfl⟩
    · obtain ⟨hvalue, hfits⟩ := h id entry hold
      exact ⟨hvalue, hfits.mono htypes (Nat.le_refl _)⟩
    · exact ⟨hpulls.built.value, hpulls.built.fits.mono htypes (Nat.le_refl _)⟩

/-! ## Types -/

/-- Each shared computation has the type and the first value that the output
    declares. -/
def Matches (g : Graph) (d : Draft) : Prop :=
  ∀ (p : Port) (id : SharedId) (entry : Shared), (p, id) ∈ d.memo → d.shared[id]? = some entry →
    ∃ decl, g.output? p = some decl ∧ decl.isSignal = false ∧ entry.ty = decl.ty ∧
      entry.default = decl.default

theorem Matches.of_grows (h : g.Matches d') (hd : d.Grows d') : g.Matches d :=
  fun p id entry hmem hentry => h p id entry (hd.memo.mem hmem) (getElem?_of_starts hd.shared hentry)

theorem ty_load {category : Category} (h : category.isSignal = false) (literal : Literal) :
    (category.load literal).ty = category.native := by
  cases category with
  | signal => cases h
  | number => cases literal <;> rfl
  | condition => cases literal <;> rfl
  | text => cases literal <;> rfl

theorem ty_cast (category : Category) (value : Code) :
    (category.cast value).ty = category.native := by
  cases category <;> rfl

/-- Code for a native value has the native type, and code for an output the
    type of the output. -/
theorem Pulls.ty_eq (h : Pulls g opened need d c d' log) (hm : g.Matches d') {decl : PortDecl}
    (hdecl : need.decl? g = some decl) (hvalue : decl.isSignal = false)
    (hform : decl.form = .native ∨ ∀ p, need ≠ .input p) : c.ty = decl.ty := by
  induction h generalizing decl with
  | @own _ p _ _ decl' _ _ hrole hinput =>
    obtain rfl : decl' = decl := by simpa [Need.decl?, input?_of_role hrole, hinput] using hdecl
    have hnative : decl'.form = .native := hform.resolve_right fun h => h p rfl
    simp only [unconnected, PortDecl.ty, hnative]
    exact ty_load hvalue _
  | @driven _ p _ _ decl' source produced _ _ _ _ hrole hinput _ hdriver _ ih =>
    obtain rfl : decl' = decl := by simpa [Need.decl?, input?_of_role hrole, hinput] using hdecl
    have hnative : decl'.form = .native := hform.resolve_right fun h => h p rfl
    obtain ⟨houtput, hproduced⟩ := driver?_eq_some hdriver
    have hc := ih hm houtput hproduced (.inr (by simp))
    simp only [PortDecl.ty, hnative]
    unfold adapt
    rw [hnative]
    -- a native value of the same category is left as it is, all others are cast
    cases hf : produced.form with
    | native =>
      dsimp only
      split
      · next heq => rw [hc, PortDecl.ty, hf, ← heq]
      · exact ty_cast _ _
    | boxed => exact ty_cast _ _
  | recalled hshared =>
    obtain ⟨id, entry, hmem, hentry, rfl⟩ := Draft.shared?_eq_some hshared
    obtain ⟨decl', hdecl', -, hty, -⟩ := hm _ _ _ hmem hentry
    obtain rfl : decl' = decl := by simpa [Need.decl?, hdecl'] using hdecl
    exact hty
  | single _ _ _ _ ih => exact ih hm hdecl hvalue (.inr (by simp))
  | shared _ _ _ _ _ ih =>
    exact ih (hm.of_grows (.share _ _ _ .refl)) hdecl hvalue (.inr (by simp))
  | @constant _ id node category _ _ _ _ hrole _ ih =>
    obtain rfl : PortDecl.native "value" category = decl := by
      simpa [Need.decl?, output?_of_role (p := ⟨id, 0⟩) hrole, Role.kind, Kind.constant] using hdecl
    exact ih hm (input?_of_role (p := ⟨id, 0⟩) hrole) hvalue (.inl rfl)
  | @getVariable _ id node category _ _ hrole =>
    obtain rfl : PortDecl.boxed "value" category = decl := by
      simpa [Need.decl?, output?_of_role (p := ⟨id, 0⟩) hrole, Role.kind, Kind.getVariable] using hdecl
    rfl
  | @query _ id node category _ hrole =>
    obtain rfl : PortDecl.native "value" category = decl := by
      simpa [Need.decl?, output?_of_role (p := ⟨id, 0⟩) hrole, Role.kind, Kind.query] using hdecl
    rfl
  | @arith _ id _ _ _ _ _ _ _ _ _ hrole =>
    obtain rfl : PortDecl.native "result" .number = decl := by
      simpa [Need.decl?, output?_of_role (p := ⟨id, 0⟩) hrole, Role.kind, Kind.arith] using hdecl
    rfl
  | @compare _ id _ _ _ _ _ _ _ _ _ hrole =>
    obtain rfl : PortDecl.native "result" .condition = decl := by
      simpa [Need.decl?, output?_of_role (p := ⟨id, 0⟩) hrole, Role.kind, Kind.compare] using hdecl
    rfl
  | @not _ id _ _ _ _ _ hrole =>
    obtain rfl : PortDecl.native "result" .condition = decl := by
      simpa [Need.decl?, output?_of_role (p := ⟨id, 0⟩) hrole, Role.kind, Kind.not] using hdecl
    rfl
  | @mathConstant _ id _ _ hrole =>
    obtain rfl : PortDecl.native "value" .number = decl := by
      simpa [Need.decl?, output?_of_role (p := ⟨id, 0⟩) hrole, Role.kind, Kind.mathConstant] using hdecl
    rfl

theorem kept_matches (g : Graph) : Kept g fun d => d.Fresh ∧ g.Matches d where
  problems problems h := ⟨(Draft.Grows.problems problems .refl).fresh h.1, h.2⟩
  share {_ p decl _ c d' _} hpulls _ hdecl h := by
    refine ⟨(Draft.Grows.share _ _ _ .refl).fresh h.1, ?_⟩
    intro q id entry hmem hentry
    rcases List.mem_cons.mp hmem with heq | hmem
    · obtain ⟨rfl, rfl⟩ := Prod.mk.inj heq
      rcases Draft.share_getElem? hentry with hold | ⟨-, rfl⟩
      · simp at hold
      · have hvalue := hpulls.isSignal_eq_false hdecl
        exact ⟨decl, hdecl, hvalue,
          hpulls.ty_eq h.2 hdecl hvalue (.inr (by simp)), rfl⟩
    · rcases Draft.share_getElem? hentry with hold | ⟨rfl, -⟩
      · exact h.2 q id entry hmem hold
      · exact absurd (h.1.lt_of_mem hmem) (Nat.lt_irrefl _)

/-! ## Code behind signals -/

theorem Pushes.fits {signal : Signal} (h : Pushes g signal d c d' log) :
    c.Fits d'.types d'.shared.length := by
  induction h with
  | branch _ hpulls hyes hno ihyes ihno =>
    have hgrows := hyes.grows.trans hno.grows
    exact ⟨hpulls.built.fits.mono hgrows.types hgrows.length_le,
      ihyes.mono hno.grows.types hno.grows.length_le, ihno⟩
  | loop _ hpulls hbody hnext ihbody ihnext =>
    have hgrows := hbody.grows.trans hnext.grows
    exact ⟨⟨hpulls.built.fits.mono hgrows.types hgrows.length_le,
      ihbody.mono hnext.grows.types hnext.grows.length_le⟩, ihnext, trivial⟩
  | setVariable _ _ hpulls hnext ih =>
    exact ⟨hpulls.built.fits.mono hnext.grows.types hnext.grows.length_le, ih, trivial⟩
  | emit _ hpulls hnext ih =>
    exact ⟨⟨hpulls.built.fits.mono hnext.grows.types hnext.grows.length_le, rfl, trivial⟩, ih, trivial⟩
  | nil => trivial
  | skip _ _ _ ih => exact ih
  | cons _ _ hrest ihfirst ihrest =>
    exact ⟨ihfirst.mono hrest.grows.types hrest.grows.length_le, ihrest⟩

theorem Starts.fits {ports : List Port} (h : Starts g ports d c d' log) :
    c.Fits d'.types d'.shared.length := by
  induction h with
  | nil => trivial
  | cons hpushes hrest ih =>
    exact ⟨hpushes.fits.mono hrest.grows.types hrest.grows.length_le, ih⟩

/-! ## Nothing is shared in vain -/

/-- Every computation that was shared on the way to a value is needed for
    it. -/
theorem Pulls.covers (h : Pulls g opened need d c d' log) : d.Covers d' c := by
  induction h with
  | own => exact Draft.Covers.of_length_eq rfl
  | driven _ _ _ _ _ ih => exact ih.of_mentions fun id hid => by rwa [mentions_adapt]
  | recalled => exact Draft.Covers.of_length_eq rfl
  | single _ _ _ _ ih => exact ih
  | shared _ _ _ _ _ ih => exact ih.share _ _
  | constant _ _ ih => exact ih
  | getVariable => exact Draft.Covers.of_length_eq rfl
  | query => exact Draft.Covers.of_length_eq rfl
  | arith _ _ hy ihx ihy =>
    refine Draft.Covers.seq (ihx.of_mentions ?_) hy.grows (ihy.of_mentions ?_)
    · exact fun id hid => by simp [Code.arith, Code.block, Code.mentions, hid]
    · exact fun id hid => by simp [Code.arith, Code.block, Code.mentions, hid]
  | compare _ _ hy ihx ihy =>
    refine Draft.Covers.seq (ihx.of_mentions ?_) hy.grows (ihy.of_mentions ?_)
    · exact fun id hid => by simp [Code.compare, Code.block, Code.mentions, hid]
    · exact fun id hid => by simp [Code.compare, Code.block, Code.mentions, hid]
  | not _ _ ih => exact ih.of_mentions fun id hid => by simp [Code.block, Code.mentions, hid]
  | mathConstant => exact Draft.Covers.of_length_eq rfl

theorem Pushes.covers {signal : Signal} (h : Pushes g signal d c d' log) : d.Covers d' c := by
  induction h with
  | branch _ hpulls hyes hno ihyes ihno =>
    refine Draft.Covers.seq (Draft.Covers.seq (hpulls.covers.of_mentions ?_) hyes.grows
      (ihyes.of_mentions ?_)) hno.grows (ihno.of_mentions ?_)
    all_goals exact fun id hid => by simp [Code.mentions, hid]
  | loop _ hpulls hbody hnext ihbody ihnext =>
    refine Draft.Covers.seq (Draft.Covers.seq (hpulls.covers.of_mentions ?_) hbody.grows
      (ihbody.of_mentions ?_)) hnext.grows (ihnext.of_mentions ?_)
    all_goals exact fun id hid => by simp [Code.block, Code.mentions, hid]
  | setVariable _ _ hpulls hnext ih =>
    refine Draft.Covers.seq (hpulls.covers.of_mentions ?_) hnext.grows (ih.of_mentions ?_)
    all_goals exact fun id hid => by simp [Code.block, Code.mentions, hid]
  | emit _ hpulls hnext ih =>
    refine Draft.Covers.seq (hpulls.covers.of_mentions ?_) hnext.grows (ih.of_mentions ?_)
    all_goals exact fun id hid => by simp [Code.block, Code.mentions, hid]
  | nil => exact Draft.Covers.of_length_eq rfl
  | skip _ _ _ ih => exact ih
  | cons _ _ hrest ihfirst ihrest =>
    refine Draft.Covers.seq (ihfirst.of_mentions ?_) hrest.grows (ihrest.of_mentions ?_)
    all_goals exact fun id hid => by simp [Code.mentions, hid]

theorem Starts.covers {ports : List Port} (h : Starts g ports d c d' log) : d.Covers d' c := by
  induction h with
  | nil => exact Draft.Covers.of_length_eq rfl
  | cons hpushes hrest ih =>
    refine Draft.Covers.seq (hpushes.covers.of_mentions ?_) hrest.grows (ih.of_mentions ?_)
    all_goals exact fun id hid => by simp [Code.mentions, hid]

end

end Graph

/-! ## What the walk leaves -/

/-- What an output holds before it is computed is of its type. -/
theorem PortDecl.default_conforms {decl : PortDecl} (h : decl.isSignal = false) :
    (Value.ofConst decl.default).conforms decl.ty = true := by
  obtain ⟨_, category, form⟩ := decl
  cases form with
  | native =>
    cases category with
    | signal => cases h
    | number => rfl
    | condition => rfl
    | text => rfl
  | boxed => rfl

/-- A draft and the code of a program, before anything is laid out. -/
structure Draft.Complete (d : Draft) (body : Code) : Prop where
  fresh : d.Fresh
  ordered : d.Ordered
  fits : body.Fits d.types d.shared.length
  reaches : ∀ id < d.shared.length, d.Reaches body id
  defaults : ∀ entry ∈ d.shared, (Value.ofConst entry.default).conforms entry.ty = true

theorem Graph.Walked.matches {g : Graph} {body : Code} {draft : Draft} {log : List Event}
    (h : g.Walked body draft log) : draft.Fresh ∧ g.Matches draft :=
  (kept_matches g).walked h ⟨Draft.fresh_empty, fun _ _ _ hmem => nomatch hmem⟩

theorem Graph.Walked.complete {g : Graph} {body : Code} {draft : Draft} {log : List Event}
    (h : g.Walked body draft log) : draft.Complete body := by
  have hmatches := h.matches
  have hordered := (kept_ordered g).walked h (fun _ _ hentry => nomatch hentry)
  obtain ⟨_, _, _, _, _, hstarts⟩ := h
  refine ⟨hmatches.1, hordered, hstarts.fits, fun id hlt => hstarts.covers id (Nat.zero_le _) hlt, ?_⟩
  intro entry hmem
  obtain ⟨id, hlt, hentry⟩ := List.getElem_of_mem hmem
  obtain ⟨p, hp⟩ := hmatches.1.exists_port hlt
  obtain ⟨decl, -, hvalue, hty, hdefault⟩ := hmatches.2 p id entry hp (by simp [hlt, hentry])
  rw [hdefault, hty]
  exact PortDecl.default_conforms hvalue

end FlowGraph
