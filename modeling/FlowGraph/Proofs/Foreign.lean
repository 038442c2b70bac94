import FlowGraph.Proofs.References

/-! # References from another draft

    Sharing a computation gives a reference, and a reference can end up in
    code that another draft finishes. All that it carries is a number and a
    type, so what it comes to there depends on how many computations that
    draft has shared.

    Main statement: it reads as zero if the draft has no computation of that
    number, and else it is taken for the reference to that one
    (`finish_foreign`).
-/

namespace FlowGraph

/-- A computation to share, as the value of an output. -/
structure Offer where
  port : Port
  value : Code
  default : Const

namespace Draft

/-- The draft after computations were shared, one after the other. -/
def sharing (offers : List Offer) : Draft :=
  offers.foldl (fun d o => (d.share o.port o.value o.default).2) {}

/-- The reference that a computation gets after others were shared. -/
def reference (offers : List Offer) (o : Offer) : Code :=
  ((sharing offers).share o.port o.value o.default).1

end Draft

/-- The code with other code in place of a reference. -/
def Code.instead (code r c : Code) : Code :=
  code.refer fun id ty => if Code.shared id ty = r then c else .shared id ty

/-- The offer with other code in place of a reference. -/
def Offer.instead (r c : Code) (o : Offer) : Offer := { o with value := o.value.instead r c }

/-- The operation without the type of the slot that it loads or stores. -/
def Op.untyped : Op → Op
  | .load slot _ => .load slot .void
  | .store slot _ => .store slot .void
  | o => o

/-- The offer with other references. -/
def Likeness.offer {n : Nat} (t : Likeness n) (o : Offer) : Offer := { o with value := t.code o.value }

namespace Draft

/-! ## Drafts that share -/

theorem foldl_share (offers : List Offer) (d : Draft) :
    ∃ memo, offers.foldl (fun d o => (d.share o.port o.value o.default).2) d =
      { d with shared := d.shared ++ offers.map fun o => ⟨o.value, o.value.ty, o.default, none⟩, memo := memo } := by
  induction offers generalizing d with
  | nil => exact ⟨d.memo, by simp⟩
  | cons o rest ih =>
    obtain ⟨memo, heq⟩ := ih (d.share o.port o.value o.default).2
    refine ⟨memo, ?_⟩
    rw [List.foldl_cons, heq]
    simp [share]

theorem exists_sharing_eq (offers : List Offer) :
    ∃ memo, sharing offers =
      { shared := offers.map fun o => ⟨o.value, o.value.ty, o.default, none⟩, memo := memo } :=
  foldl_share offers {}

theorem reference_eq (offers : List Offer) (o : Offer) :
    reference offers o = .shared offers.length o.value.ty := by
  obtain ⟨memo, heq⟩ := exists_sharing_eq offers
  simp [reference, share, heq]

/-- Computations with other references, shared in the same order. -/
theorem sharing_like (offers : List Offer) (t : Likeness offers.length) :
    t.Drafts [] [] (sharing offers) (sharing (offers.map t.offer)) := by
  obtain ⟨memo, heq⟩ := exists_sharing_eq offers
  obtain ⟨memo', heq'⟩ := exists_sharing_eq (offers.map t.offer)
  rw [heq, heq']
  refine ⟨rfl, rfl, rfl, rfl, List.length_map _, ?_, rfl, rfl⟩
  intro id
  simp only [List.map_map, List.getElem?_map]
  cases offers[id]? with
  | none => exact .none
  | some o => exact .some ⟨rfl, Likeness.look_ty o.value, rfl, rfl⟩

end Draft

namespace Likeness

/-- A reference that the draft does not have is replaced by the zero of its
    type. -/
def zeroing (n : Nat) (number : SharedId) (ty : Ty) (hnumber : n ≤ number) : Likeness n where
  look := id
  refer id' ty' := if Code.shared id' ty' = .shared number ty then .zero ty else .shared id' ty'
  known id' ty' hlt := by
    refine ⟨ty', if_neg ?_, rfl⟩
    intro heq
    obtain ⟨rfl, -⟩ := Code.shared.inj heq
    exact Nat.not_lt.mpr hnumber hlt
  unknown id' ty' _ := by
    by_cases heq : Code.shared id' ty' = .shared number ty
    · obtain ⟨rfl, rfl⟩ := Code.shared.inj heq
      exact .inr (if_pos heq)
    · exact .inl (if_neg heq)

theorem code_zeroing {n : Nat} {number : SharedId} {ty : Ty} (h : n ≤ number) :
    (zeroing n number ty h).code = fun code => code.instead (.shared number ty) (.zero ty) := rfl

theorem offer_zeroing {n : Nat} {number : SharedId} {ty : Ty} (h : n ≤ number) :
    (zeroing n number ty h).offer = Offer.instead (.shared number ty) (.zero ty) := rfl

/-- A reference that the draft has gets another type. The types of slots are
    not looked at. -/
def retyping (n : Nat) (number : SharedId) (ty own : Ty) (hnumber : number < n) : Likeness n where
  look _ := .void
  refer id' ty' := if Code.shared id' ty' = .shared number ty then .shared number own else .shared id' ty'
  known id' ty' _ := by
    by_cases heq : Code.shared id' ty' = .shared number ty
    · obtain ⟨rfl, rfl⟩ := Code.shared.inj heq
      exact ⟨own, if_pos heq, rfl⟩
    · exact ⟨ty', if_neg heq, rfl⟩
  unknown id' ty' hle := by
    refine .inl (if_neg ?_)
    intro heq
    obtain ⟨rfl, -⟩ := Code.shared.inj heq
    exact Nat.not_lt.mpr hle hnumber

theorem code_retyping {n : Nat} {number : SharedId} {ty own : Ty} (h : number < n) :
    (retyping n number ty own h).code = fun code => code.instead (.shared number ty) (.shared number own) := rfl

theorem offer_retyping {n : Nat} {number : SharedId} {ty own : Ty} (h : number < n) :
    (retyping n number ty own h).offer = Offer.instead (.shared number ty) (.shared number own) := rfl

theorem op_retyping {n : Nat} {number : SharedId} {ty own : Ty} (h : number < n) :
    (retyping n number ty own h).op = Op.untyped := by
  funext op
  cases op <;> rfl

end Likeness

namespace Draft

/-- A reference `r` of one draft in code that another draft finishes, be it in
    the body or in a computation that this one shares.

    If the other draft has shared no more computations than came before `r`, the
    zero of the type of `r` may as well stand in its place. Otherwise `r` has the
    number of one of its own computations, `own`, and is taken for the reference
    to it: with that reference in place of `r` the operations are the same, but
    for the types of loads and stores. -/
theorem finish_foreign (offers offers' : List Offer) (o : Offer) (body : Code) :
    let r := reference offers o
    (offers'.length ≤ offers.length →
      (sharing (offers'.map (.instead r (.zero r.ty)))).finish (body.instead r (.zero r.ty)) =
        (sharing offers').finish body) ∧
    ∀ own, offers'[offers.length]? = some own →
      let s := reference (offers'.take offers.length) own
      let c := (sharing offers').finish body
      let c' := (sharing (offers'.map (.instead r s))).finish (body.instead r s)
      c'.program.ops.map Op.untyped = c.program.ops.map Op.untyped ∧ c'.program.locals = c.program.locals ∧
        c'.problems = c.problems := by
  intro r
  have hr : r = .shared offers.length o.value.ty := reference_eq offers o
  have hty : r.ty = o.value.ty := by rw [hr]; rfl
  rw [hty, hr]
  constructor
  · -- there is no computation of that number, so the layouts are the same
    intro hlength
    have hlike := sharing_like offers' (.zeroing offers'.length offers.length o.value.ty hlength)
    obtain ⟨-, -, hproblems, -⟩ := hlike.finish body
    have hfinish := hlike.finish_eq rfl body
    rw [Likeness.code_zeroing, Likeness.offer_zeroing] at hfinish
    rw [hfinish, ← hproblems]
  · -- the number is that of `own`, and only the type of the reference differs
    intro own hown
    obtain ⟨hlt, -⟩ := List.getElem?_eq_some_iff.mp hown
    have hs : reference (offers'.take offers.length) own = .shared offers.length own.value.ty := by
      rw [reference_eq, List.length_take_of_le (Nat.le_of_lt hlt)]
    have hlike := sharing_like offers' (.retyping offers'.length offers.length o.value.ty own.value.ty hlt)
    obtain ⟨hops, hlocals, hproblems, hproblems'⟩ := hlike.finish body
    rw [Likeness.code_retyping, Likeness.offer_retyping] at hops hlocals hproblems'
    rw [Likeness.op_retyping] at hops
    rw [hs]
    exact ⟨hops, hlocals, hproblems'.trans hproblems.symm⟩

/-- A constant. -/
def oneOffer : Offer := ⟨⟨1, 0⟩, .const (.number .one), .number .zero⟩

/-- What a host function gives. -/
def askOffer : Offer :=
  ⟨⟨2, 0⟩, .block .double [.op (.invoke "ask" 0 .double) .double], .number .zero⟩

/-- The reference to the constant stands for the host function in a draft that
    shares only that, while the reference to a second constant is unknown there. -/
theorem finish_foreign_ask :
    ((sharing [askOffer]).finish (.arith .add (reference [oneOffer] oneOffer) (.const (.number .one)))).program.ops =
        ((sharing [askOffer]).finish (.arith .add (.zero .double) (.const (.number .one)))).program.ops ∧
      ((sharing [askOffer]).finish (reference [] oneOffer)).program.ops.map Op.untyped =
        ((sharing [askOffer]).finish (reference [] askOffer)).program.ops.map Op.untyped := by
  constructor
  · have hzero := (finish_foreign [oneOffer] [askOffer] oneOffer
      (.arith .add (reference [oneOffer] oneOffer) (.const (.number .one)))).1 (Nat.le_refl 1)
    exact congrArg (fun c => c.program.ops) hzero.symm
  · have hown := (finish_foreign [] [askOffer] oneOffer (reference [] oneOffer)).2 askOffer rfl
    exact hown.1.symm

/-- A reference from another draft does not always read as zero: here it asks
    the host. -/
theorem finish_reads_own :
    let c := (sharing [askOffer]).finish (reference [] oneOffer)
    let zero := (sharing [askOffer]).finish (.zero (reference [] oneOffer).ty)
    c.program.ops = [.const (.number .zero), .store 0 .double, .invoke "ask" 0 .double, .dup, .store 0 .double,
        .ret] ∧
      zero.program.ops = [.const (.number .zero), .ret] := by
  decide

end Draft

end FlowGraph
