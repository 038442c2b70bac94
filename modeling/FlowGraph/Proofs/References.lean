import FlowGraph.Proofs.Needs
import FlowGraph.Proofs.Reservation

/-! # Code with other references

    A reference to a shared computation is no more than a number and a type.
    This module lays out two pieces of code that differ in their references,
    and compares the operations.

    * A number that the draft does not have may be replaced by the zero of the
      type. Nothing differs then.
    * The type of a reference may be replaced. Then the types of some loads
      and stores differ, and nothing else.

    The outputs that a draft remembers and the problems on its record do not
    matter at all. Main statement: `Likeness.Drafts.finish`.
-/

namespace FlowGraph

namespace Code

/-- What a reference comes to if there is no such computation. -/
def zero (ty : Ty) : Code := (Const.zero? ty).elim (.done ty) fun c => .op (.const c) ty

/-- The code with other code in place of its references. -/
def refer (f : SharedId → Ty → Code) : Code → Code
  | .andThen first rest => .andThen (first.refer f) (rest.refer f)
  | .shared id ty => f id ty
  | .setVariable name value => .setVariable name (value.refer f)
  | .loop times body => .loop (times.refer f) (body.refer f)
  | .branch condition yes no => .branch (condition.refer f) (yes.refer f) (no.refer f)
  | code => code

@[simp] theorem ty_zero (ty : Ty) : (zero ty).ty = ty := by
  cases ty <;> rfl

@[simp] theorem mentions_zero (ty : Ty) : (zero ty).mentions = [] := by
  cases ty <;> rfl

/-- Nothing changes if every reference stands for itself. -/
@[simp] theorem refer_shared (c : Code) : c.refer .shared = c := by
  induction c with
  | andThen first rest ihf ihr => simp only [refer, ihf, ihr]
  | setVariable name value ih => simp only [refer, ih]
  | loop times body iht ihb => simp only [refer, iht, ihb]
  | branch condition yes no ihc ihy ihn => simp only [refer, ihc, ihy, ihn]
  | _ => rfl

end Code

namespace Draft

theorem lt_of_mem_awaits {d : Draft} {id id' : SharedId} (h : id' ∈ d.awaits id) : id < d.shared.length := by
  unfold awaits at h
  cases hpending : d.pending? id with
  | none => simp [hpending] at h
  | some value => exact lt_of_pending hpending

/-- Whoever searches from more, and goes on to more, finds more. Numbers that
    the draft does not have are left aside. -/
theorem mem_uses_of_mem_uses {d d' : Draft} {pieces pieces' : List Code}
    (hroots : ∀ id < d.shared.length, id ∈ pieces.flatMap Code.mentions → id ∈ pieces'.flatMap Code.mentions)
    (hnext : ∀ id, ∀ id' < d.shared.length, id' ∈ d.awaits id → id' ∈ d'.awaits id)
    {id : SharedId} (hid : id < d.shared.length) (h : id ∈ d.uses pieces) : id ∈ d'.uses pieces' := by
  have hsearch := d'.search_uses pieces'
  refine (d.search_uses pieces).least (fun id => id < d.shared.length → id ∈ d'.uses pieces') ?_ ?_ id h (by simp) hid
  · intro id hroot hid
    exact hsearch.found id (hroots id hid hroot)
  · intro id hstep id' hawaits hid'
    have hfound := hstep (lt_of_mem_awaits hawaits)
    exact hsearch.closed id hfound (by simp) id' (hnext id id' hid' hawaits)

end Draft

/-- How two layouts are compared, where `n` computations are shared. -/
structure Likeness (n : Nat) where
  /-- What is looked at of the type of a slot. -/
  look : Ty → Ty
  /-- What stands for a reference. -/
  refer : SharedId → Ty → Code
  known : ∀ id ty, id < n → ∃ ty', refer id ty = .shared id ty' ∧ look ty' = look ty
  unknown : ∀ id ty, n ≤ id → refer id ty = .shared id ty ∨ refer id ty = .zero ty

namespace Likeness

open Draft

variable {n : Nat} (t : Likeness n)

def code (c : Code) : Code := c.refer t.refer

theorem code_loop (times body : Code) : t.code (.loop times body) = .loop (t.code times) (t.code body) := rfl

theorem code_branch (condition yes no : Code) :
    t.code (.branch condition yes no) = .branch (t.code condition) (t.code yes) (t.code no) := rfl

/-- What is looked at of an operation. -/
def op : Op → Op
  | .load slot ty => .load slot (t.look ty)
  | .store slot ty => .store slot (t.look ty)
  | op => op

/-- A shared computation that is the other one with other references. -/
structure Entries (entry entry' : Shared) : Prop where
  value : entry'.value = t.code entry.value
  ty : t.look entry'.ty = t.look entry.ty
  default : entry'.default = entry.default
  slot : entry'.slot = entry.slot

/-- The second draft is the first one with other references. The problems on
    record are given. -/
structure Drafts (problems problems' : List LooseWire) (d d' : Draft) : Prop where
  nextSlot : d'.nextSlot = d.nextSlot
  nextLabel : d'.nextLabel = d.nextLabel
  variableSlots : d'.variableSlots = d.variableSlots
  stored : d'.stored = d.stored
  length : d.shared.length = n
  shared : ∀ id : SharedId, Option.Rel t.Entries d.shared[id]? d'.shared[id]?
  problems : d.problems = problems
  problems' : d'.problems = problems'

/-- The operations look the same. -/
def Blocks (b b' : Block) : Prop := b'.toList.map t.op = b.toList.map t.op

structure Emissions (problems problems' : List LooseWire) (e e' : Emission) : Prop where
  block : t.Blocks e.block e'.block
  draft : t.Drafts problems problems' e.draft e'.draft

/-- Whatever is entered, its operations look the same. -/
def Enters (problems problems' : List LooseWire) (enter enter' : Enter) : Prop :=
  ∀ c used after d d', t.Drafts problems problems' d d' →
    t.Emissions problems problems' (enter c used after d) (enter' (t.code c) used (after.map t.code) d')

variable {t} {problems problems' : List LooseWire}

/-- What stands for a reference: one of the same number, or the zero where
    there is no such computation. -/
theorem refer_cases (id : SharedId) (ty : Ty) :
    (∃ ty', t.refer id ty = .shared id ty' ∧ t.look ty' = t.look ty ∧ (n ≤ id → ty' = ty)) ∨
      n ≤ id ∧ t.refer id ty = .zero ty := by
  by_cases hid : id < n
  · obtain ⟨ty', heq, hlook⟩ := t.known id ty hid
    exact .inl ⟨ty', heq, hlook, fun hle => absurd hid (Nat.not_lt.mpr hle)⟩
  · have hle : n ≤ id := Nat.le_of_not_lt hid
    rcases t.unknown id ty hle with heq | heq
    · exact .inl ⟨ty, heq, rfl, fun _ => rfl⟩
    · exact .inr ⟨hle, heq⟩

/-- The type of code is that of its last reference, or stays. -/
theorem look_ty (c : Code) : t.look (t.code c).ty = t.look c.ty := by
  induction c with
  | andThen _ rest _ ih => exact ih
  | branch _ yes _ _ ih _ => exact ih
  | shared id ty =>
    show t.look (t.refer id ty).ty = t.look ty
    rcases t.refer_cases id ty with ⟨ty', heq, hlook, -⟩ | ⟨-, heq⟩
    · rw [heq]
      exact hlook
    · rw [heq, Code.ty_zero]
  | _ => rfl

/-- Numbers that the draft has are still named, and no others. -/
theorem mem_mentions {id : SharedId} (hid : id < n) (c : Code) :
    id ∈ (t.code c).mentions ↔ id ∈ c.mentions := by
  unfold code
  induction c with
  | andThen first rest ihf ihr => simp only [Code.refer, Code.mentions, List.mem_append, ihf, ihr]
  | setVariable name value ih => exact ih
  | loop times body iht ihb => simp only [Code.refer, Code.mentions, List.mem_append, iht, ihb]
  | branch condition yes no ihc ihy ihn =>
    simp only [Code.refer, Code.mentions, List.mem_append, ihc, ihy, ihn]
  | shared id' ty =>
    show id ∈ (t.refer id' ty).mentions ↔ id ∈ [id']
    rcases t.refer_cases id' ty with ⟨ty', heq, -⟩ | ⟨hle, heq⟩
    · rw [heq]
      rfl
    · -- the zero names nothing, and neither did the reference name this one
      have hne : id ≠ id' := fun heq => Nat.not_lt.mpr hle (heq ▸ hid)
      simp [heq, hne]
  | _ => exact Iff.rfl

namespace Drafts

variable {d d' : Draft} (h : t.Drafts problems problems' d d')

include h

/-- Both drafts have the computation, or none of them has. -/
theorem entry (id : SharedId) : (d.shared[id]? = none ∧ d'.shared[id]? = none) ∨
    ∃ entry entry', d.shared[id]? = some entry ∧ d'.shared[id]? = some entry' ∧ t.Entries entry entry' := by
  have hrel := h.shared id
  generalize d.shared[id]? = found at hrel ⊢
  generalize d'.shared[id]? = found' at hrel ⊢
  cases hrel with
  | none => exact .inl ⟨rfl, rfl⟩
  | some hentry => exact .inr ⟨_, _, rfl, rfl, hentry⟩

/-- What is looked at in every entry is the same. -/
theorem map_shared {α : Type} {f : Shared → α} (hf : ∀ entry entry', t.Entries entry entry' → f entry' = f entry) :
    d'.shared.map f = d.shared.map f := by
  apply List.ext_getElem?
  intro id
  rw [List.getElem?_map, List.getElem?_map]
  rcases h.entry id with ⟨hnone, hnone'⟩ | ⟨entry, entry', hsome, hsome', hentry⟩
  · rw [hnone, hnone']
  · rw [hsome, hsome']
    exact congrArg some (hf entry entry' hentry)

theorem length' : d'.shared.length = n := by
  have hlength := congrArg List.length (h.map_shared (f := fun _ => ()) fun _ _ _ => rfl)
  rw [List.length_map, List.length_map] at hlength
  rw [hlength, h.length]

theorem isStored (id : SharedId) : d'.isStored id = d.isStored id := by
  unfold Draft.isStored
  rw [h.stored]

/-! ## Slots and labels -/

theorem variableSlot (name : String) :
    (d'.variableSlot name).1 = (d.variableSlot name).1 ∧
      t.Drafts problems problems' (d.variableSlot name).2 (d'.variableSlot name).2 := by
  unfold Draft.variableSlot
  rw [h.variableSlots]
  cases d.variableSlots.lookup name with
  | some slot => exact ⟨rfl, h⟩
  | none =>
    refine ⟨h.nextSlot, { h with nextSlot := ?_, variableSlots := ?_ }⟩
    · show d'.nextSlot + 1 = d.nextSlot + 1
      rw [h.nextSlot]
    · show (name, d'.nextSlot) :: d.variableSlots = (name, d.nextSlot) :: d.variableSlots
      rw [h.nextSlot]

theorem tempSlot (used : Nat) :
    (d'.tempSlot used).1 = (d.tempSlot used).1 ∧
      t.Drafts problems problems' (d.tempSlot used).2 (d'.tempSlot used).2 := by
  have hslot : (d'.tempSlot used).1 = (d.tempSlot used).1 := by
    show max used d'.nextSlot = max used d.nextSlot
    rw [h.nextSlot]
  exact ⟨hslot, { h with nextSlot := congrArg (· + 1) hslot }⟩

theorem freshLabel :
    d'.freshLabel.1 = d.freshLabel.1 ∧ t.Drafts problems problems' d.freshLabel.2 d'.freshLabel.2 :=
  ⟨h.nextLabel, { h with nextLabel := congrArg (· + 1) h.nextLabel }⟩

theorem giveSlot (id : SharedId) : t.Drafts problems problems' (d.giveSlot id) (d'.giveSlot id) where
  nextSlot := congrArg (· + 1) h.nextSlot
  nextLabel := h.nextLabel
  variableSlots := h.variableSlots
  stored := h.stored
  length := by simpa [Draft.giveSlot] using h.length
  shared id' := by
    rw [giveSlot_getElem?, giveSlot_getElem?, h.nextSlot]
    by_cases heq : id = id'
    · rw [if_pos heq, if_pos heq]
      rcases h.entry id' with ⟨hnone, hnone'⟩ | ⟨entry, entry', hsome, hsome', hentry⟩
      · rw [hnone, hnone']
        exact .none
      · rw [hsome, hsome']
        exact .some ⟨hentry.value, hentry.ty, hentry.default, rfl⟩
    · rw [if_neg heq, if_neg heq]
      exact h.shared id'
  problems := h.problems
  problems' := h.problems'

theorem slotOf (id : SharedId) {entry entry' : Shared} (hentry : t.Entries entry entry') :
    (d'.slotOf id entry').1 = (d.slotOf id entry).1 ∧
      t.Drafts problems problems' (d.slotOf id entry).2 (d'.slotOf id entry').2 := by
  unfold Draft.slotOf
  rw [hentry.slot]
  cases entry.slot with
  | some slot => exact ⟨rfl, h⟩
  | none => exact ⟨h.nextSlot, h.giveSlot id⟩

theorem markStored (id : SharedId) : t.Drafts problems problems' (d.markStored id) (d'.markStored id) :=
  { h with stored := congrArg (id :: ·) h.stored }

theorem restoreMarks (marks : List SharedId) :
    t.Drafts problems problems' (d.restoreMarks marks) (d'.restoreMarks marks) :=
  { h with stored := rfl }

/-! ## What goes ahead -/

theorem mem_awaits {id id' : SharedId} (hid' : id' < n) : id' ∈ d'.awaits id ↔ id' ∈ d.awaits id := by
  unfold awaits pending?
  rw [h.isStored]
  by_cases hstored : d.isStored id = true
  · rw [if_pos hstored, if_pos hstored]
  · rw [if_neg hstored, if_neg hstored]
    rcases h.entry id with ⟨hnone, hnone'⟩ | ⟨entry, entry', hsome, hsome', hentry⟩
    · rw [hnone, hnone']
    · rw [hsome, hsome']
      show id' ∈ entry'.value.mentions ↔ id' ∈ entry.value.mentions
      rw [hentry.value]
      exact mem_mentions hid' entry.value

/-- Of the numbers that the draft has, the same ones are found. -/
theorem mem_uses (pieces : List Code) {id : SharedId} (hid : id < n) :
    id ∈ d'.uses (pieces.map t.code) ↔ id ∈ d.uses pieces := by
  have hroots : ∀ id < n, id ∈ (pieces.map t.code).flatMap Code.mentions ↔ id ∈ pieces.flatMap Code.mentions := by
    intro id hid
    rw [List.flatMap_map, List.mem_flatMap, List.mem_flatMap]
    exact exists_congr fun c => and_congr_right fun _ => mem_mentions hid c
  constructor
  · apply mem_uses_of_mem_uses
    · rw [h.length']
      exact fun id hid => (hroots id hid).mp
    · rw [h.length']
      exact fun id id' hid' => (h.mem_awaits hid').mp
    · rw [h.length']
      exact hid
  · apply mem_uses_of_mem_uses
    · rw [h.length]
      exact fun id hid => (hroots id hid).mpr
    · rw [h.length]
      exact fun id id' hid' => (h.mem_awaits hid').mpr
    · rw [h.length]
      exact hid

/-- So the same ones are computed ahead of a branch or a loop. -/
theorem toHoist (regions after : List Code) :
    d'.toHoist (regions.map t.code) (after.map t.code) = d.toHoist regions after := by
  have hcontains : ∀ pieces, ∀ id < n, (d'.uses (pieces.map t.code)).contains id = (d.uses pieces).contains id := by
    intro pieces id hid
    rw [Bool.eq_iff_iff, List.contains_iff_mem, List.contains_iff_mem]
    exact h.mem_uses pieces hid
  rw [toHoist_eq, toHoist_eq, h.length, h.length']
  apply List.filter_congr
  intro id hid
  have hid : id < n := by simpa using hid
  simp only [List.map_map, List.countP_cons, List.countP_map, hcontains after id hid]
  congr 3
  apply List.countP_congr
  intro region _
  exact iff_of_eq (congrArg (· = true) (hcontains [region] id hid))

/-! ## Reserving -/

/-- A reference, or what stands for it. -/
theorem prepareShared {enter enter' : Code → Draft → Draft}
    (henter : ∀ c d d', t.Drafts problems problems' d d' →
      t.Drafts problems problems' (enter c d) (enter' (t.code c) d'))
    (id : SharedId) (ty ty' : Ty) :
    t.Drafts problems problems' ((Code.shared id ty).prepareWith enter d)
      ((Code.shared id ty').prepareWith enter' d') := by
  unfold Code.prepareWith
  rcases h.entry id with ⟨hnone, hnone'⟩ |
    ⟨⟨value, _, _, slot⟩, ⟨value', _, _, slot'⟩, hsome, hsome', hentry⟩
  · rw [hnone, hnone']
    exact h
  · obtain rfl : value' = t.code value := hentry.value
    obtain rfl : slot' = slot := hentry.slot
    rw [hsome, hsome']
    cases slot' with
    | some slot => exact h
    | none => exact henter value _ _ (h.giveSlot id)

theorem prepareWith {enter enter' : Code → Draft → Draft}
    (henter : ∀ c d d', t.Drafts problems problems' d d' →
      t.Drafts problems problems' (enter c d) (enter' (t.code c) d'))
    (c : Code) : t.Drafts problems problems' (c.prepareWith enter d) ((t.code c).prepareWith enter' d') := by
  induction c generalizing d d' with
  | op o ty => exact h
  | done ty => exact h
  | raw ty ops => exact h
  | andThen first rest ihf ihr => exact ihr (ihf h)
  | getVariable name => exact (h.variableSlot name).2
  | setVariable name value ih => exact ih (h.variableSlot name).2
  | loop times body iht ihb => exact ihb (iht h)
  | branch condition yes no ihc ihy ihn => exact ihn (ihy (ihc h))
  | shared id ty =>
    show t.Drafts problems problems' _ ((t.refer id ty).prepareWith enter' d')
    rcases t.refer_cases id ty with ⟨ty', heq, -⟩ | ⟨hid, heq⟩
    · rw [heq]
      exact h.prepareShared henter id ty ty'
    · -- the draft has no such computation, and the zero needs no slot
      have hnone : d.shared[id]? = none := List.getElem?_eq_none (h.length.trans_le hid)
      have hzero : (Code.zero ty).prepareWith enter' d' = d' := by cases ty <;> rfl
      rw [heq, hzero]
      simp only [Code.prepareWith, hnone]
      exact h

theorem prepareNested (depth : Nat) (c : Code) :
    t.Drafts problems problems' (prepareNested depth c d) (prepareNested depth (t.code c) d') := by
  induction depth generalizing c d d' with
  | zero => exact h.prepareWith (fun _ _ _ h => h) c
  | succ depth ih => exact h.prepareWith (fun c _ _ h => ih h c) c

end Drafts

/-! ## Laying out -/

theorem Blocks.of_eq {b b' : Block} (h : b' = b) : t.Blocks b b' := by
  rw [h]
  exact Eq.refl _

theorem Blocks.refl (b : Block) : t.Blocks b b := .of_eq rfl

theorem Blocks.append {a a' b b' : Block} (ha : t.Blocks a a') (hb : t.Blocks b b') : t.Blocks (a ++ b) (a' ++ b') := by
  unfold Blocks at *
  rw [Block.toList_append, Block.toList_append, List.map_append, List.map_append, ha, hb]

/-- Loads and stores are not told apart by their types. -/
theorem Blocks.load (slot : Nat) {ty ty' : Ty} (h : t.look ty' = t.look ty) :
    t.Blocks (.ops [.load slot ty]) (.ops [.load slot ty']) := by
  simp [Blocks, op, h]

theorem Blocks.store (slot : Nat) {ty ty' : Ty} (h : t.look ty' = t.look ty) :
    t.Blocks (.ops [.store slot ty]) (.ops [.store slot ty']) := by
  simp [Blocks, op, h]

section

variable {enter enter' : Enter} (henter : t.Enters problems problems' enter enter') (used : Nat) (after : List Code)
  {d d' : Draft}

include henter

/-- A reference and another one of the same number. -/
theorem Enters.emitShared (h : t.Drafts problems problems' d d') (id : SharedId) {ty ty' : Ty}
    (hty : t.look ty' = t.look ty) (hunknown : n ≤ id → ty' = ty) :
    t.Emissions problems problems' (d.emitShared enter id ty used after)
      (d'.emitShared enter' id ty' used (after.map t.code)) := by
  unfold Draft.emitShared
  rcases h.entry id with ⟨hnone, hnone'⟩ | ⟨entry, entry', hsome, hsome', hentry⟩
  · have hid : n ≤ id := h.length ▸ List.getElem?_eq_none_iff.mp hnone
    rw [hnone, hnone', hunknown hid]
    exact ⟨rfl, h⟩
  · obtain ⟨hslot, hd⟩ := h.slotOf id hentry
    simp only [hsome, hsome', hd.isStored, hslot]
    split
    · exact ⟨.load _ hty, hd⟩
    · have hvalue := henter entry.value used after _ _ (hd.markStored id)
      rw [← hentry.value] at hvalue
      exact ⟨hvalue.block.append (.append (a := .ops [.dup]) (.refl _) (.store _ hty)), hvalue.draft⟩

theorem Enters.storeShared (h : t.Drafts problems problems' d d') (id : SharedId) :
    t.Emissions problems problems' (d.storeShared enter id used after)
      (d'.storeShared enter' id used (after.map t.code)) := by
  unfold Draft.storeShared
  rcases h.entry id with ⟨hnone, hnone'⟩ | ⟨entry, entry', hsome, hsome', hentry⟩
  · rw [hnone, hnone']
    exact ⟨rfl, h⟩
  · obtain ⟨hslot, hd⟩ := h.slotOf id hentry
    simp only [hsome, hsome', h.isStored, hslot]
    split
    · exact ⟨.refl _, h⟩
    · have hvalue := henter entry.value used after _ _ (hd.markStored id)
      rw [hentry.value]
      exact ⟨hvalue.block.append (.store _ (look_ty entry.value)), hvalue.draft⟩

theorem Enters.storeAll (h : t.Drafts problems problems' d d') (ids : List SharedId) :
    t.Emissions problems problems' (d.storeAll enter used after ids)
      (d'.storeAll enter' used (after.map t.code) ids) := by
  induction ids generalizing d d' with
  | nil => exact ⟨rfl, h⟩
  | cons id rest ih =>
    have hfirst := henter.storeShared used after h id
    have hothers := ih hfirst.draft
    exact ⟨hfirst.block.append hothers.block, hothers.draft⟩

theorem Enters.hoist (h : t.Drafts problems problems' d d') (regions following : List Code) :
    t.Emissions problems problems' (d.hoist enter used regions after following)
      (d'.hoist enter' used (regions.map t.code) (after.map t.code) (following.map t.code)) := by
  unfold Draft.hoist
  rw [h.toHoist]
  exact henter.storeAll used following h _

/-- Code, by what the computations that it enters come to. -/
theorem Enters.emitWith (h : t.Drafts problems problems' d d') (c : Code) :
    t.Emissions problems problems' (c.emitWith enter used after d)
      ((t.code c).emitWith enter' used (after.map t.code) d') := by
  induction c generalizing used after d d' with
  | op o ty => exact ⟨rfl, h⟩
  | done ty => exact ⟨rfl, h⟩
  | andThen first rest ihf ihr =>
    have hfirst := ihf used (rest :: after) h
    have hrest := ihr used after hfirst.draft
    exact ⟨hfirst.block.append hrest.block, hrest.draft⟩
  | raw ty ops =>
    refine ⟨?_, { h with nextLabel := ?_ }⟩
    · show t.Blocks (d.emitRaw ops).block (d'.emitRaw ops).block
      simp only [Draft.emitRaw, h.nextLabel]
      exact .refl _
    · show d'.nextLabel + _ = d.nextLabel + _
      rw [h.nextLabel]
  | shared id ty =>
    show t.Emissions problems problems' _ ((t.refer id ty).emitWith enter' used (after.map t.code) d')
    rcases t.refer_cases id ty with ⟨ty', heq, hlook, hunknown⟩ | ⟨hid, heq⟩
    · rw [heq]
      exact henter.emitShared used after h id hlook hunknown
    · -- the draft has no such computation, and lays out the zero for it
      have hnone : d.shared[id]? = none := List.getElem?_eq_none (h.length.trans_le hid)
      rw [heq]
      simp only [Code.emitWith, Draft.emitShared, hnone]
      cases ty <;> exact ⟨.refl _, h⟩
  | getVariable name =>
    obtain ⟨hslot, hd⟩ := h.variableSlot name
    exact ⟨.of_eq (congrArg (fun slot => Block.ops [.load slot _]) hslot), hd⟩
  | setVariable name value ih =>
    have hvalue := ih used after h
    obtain ⟨hslot, hd⟩ := hvalue.draft.variableSlot name
    exact ⟨hvalue.block.append (.of_eq (congrArg (fun slot => Block.ops [.store slot _]) hslot)), hd⟩
  | loop times body iht ihb =>
    have htimes := iht used (body :: after) h
    simp only [code_loop, Code.emitWith, List.map_cons] at htimes ⊢
    generalize times.emitWith enter used (body :: after) d = e at htimes ⊢
    generalize (t.code times).emitWith enter' used (t.code body :: after.map t.code) d' = e' at htimes ⊢
    -- both loops take the same slots and the same labels
    obtain ⟨hlimit, hd⟩ := htimes.draft.tempSlot used
    simp only [hlimit]
    generalize e.draft.tempSlot used = limit at hd ⊢
    generalize e'.draft.tempSlot used = limit' at hd ⊢
    obtain ⟨hcounter, hd⟩ := hd.tempSlot (limit.1 + 1)
    simp only [hcounter]
    generalize limit.2.tempSlot (limit.1 + 1) = counter at hd ⊢
    generalize limit'.2.tempSlot (limit.1 + 1) = counter' at hd ⊢
    obtain ⟨hhead, hd⟩ := hd.freshLabel
    obtain ⟨hexit, hd⟩ := hd.freshLabel
    have hahead := henter.hoist (counter.1 + 1) after hd [body] (body :: after)
    have hbody := ihb (counter.1 + 1) after hahead.draft
    have hmarks := hahead.draft.stored
    simp only [List.map_cons, List.map_nil] at hahead hbody hmarks
    simp only [hhead, hexit, hmarks]
    exact ⟨((((htimes.block.append (.refl _)).append hahead.block).append (.refl _)).append hbody.block).append
      (.refl _), hbody.draft.restoreMarks _⟩
  | branch condition yes no ihc ihy ihn =>
    have hcondition := ihc used (yes :: no :: after) h
    simp only [code_branch, Code.emitWith, List.map_cons] at hcondition ⊢
    generalize condition.emitWith enter used (yes :: no :: after) d = e at hcondition ⊢
    generalize (t.code condition).emitWith enter' used (t.code yes :: t.code no :: after.map t.code) d' = e'
      at hcondition ⊢
    have hahead := henter.hoist used after hcondition.draft [yes, no] (yes :: no :: after)
    simp only [List.map_cons, List.map_nil] at hahead
    generalize e.draft.hoist enter used [yes, no] after (yes :: no :: after) = a at hahead ⊢
    generalize e'.draft.hoist enter' used [t.code yes, t.code no] (after.map t.code)
      (t.code yes :: t.code no :: after.map t.code) = a' at hahead ⊢
    obtain ⟨helse, hd⟩ := hahead.draft.freshLabel
    obtain ⟨hlast, hd⟩ := hd.freshLabel
    -- the second arm starts with the marks from before the first one
    have hyes := ihy used after hd
    have hno := ihn used after (hyes.draft.restoreMarks a.draft.stored)
    simp only [helse, hlast, hahead.draft.stored]
    exact ⟨(((((hcondition.block.append hahead.block).append (.refl _)).append hyes.block).append (.refl _)).append
      hno.block).append (.refl _), hno.draft.restoreMarks _⟩

end

theorem enters_emitNested (depth : Nat) : t.Enters problems problems' (emitNested depth) (emitNested depth) := by
  induction depth with
  | zero =>
    intro c used after d d' h
    refine Enters.emitWith ?_ used after h c
    exact fun _ _ _ _ _ h => ⟨.refl _, h⟩
  | succ depth ih =>
    intro c used after d d' h
    exact ih.emitWith used after h c

/-! ## Finishing -/

/-- What is looked at of the first value of a slot. -/
def initial (t : Likeness n) (i : Initial) : Initial := { i with ty := t.look i.ty }

theorem insert_initial (i : Initial) (list : List Initial) :
    Initial.insert (t.initial i) (list.map t.initial) = (Initial.insert i list).map t.initial := by
  induction list with
  | nil => rfl
  | cons j rest ih =>
    simp only [List.map_cons, Initial.insert, ih]
    show (if i.slot ≤ j.slot then _ else _) = _
    split <;> rfl

theorem sorted_initial (list : List Initial) :
    Initial.sorted (list.map t.initial) = (Initial.sorted list).map t.initial := by
  unfold Initial.sorted
  induction list with
  | nil => rfl
  | cons i rest ih => rw [List.map_cons, List.foldr_cons, List.foldr_cons, ih, insert_initial]

namespace Drafts

variable {d d' : Draft} (h : t.Drafts problems problems' d d')

include h

theorem initials : d'.initials.map t.initial = d.initials.map t.initial := by
  have hshared := h.map_shared (f := fun entry => entry.slot.map fun slot => t.initial ⟨slot, entry.default, entry.ty⟩)
    fun entry entry' hentry => by simp [initial, hentry.slot, hentry.default, hentry.ty]
  have hfilter := congrArg (List.filterMap id) hshared
  rw [List.filterMap_map, List.filterMap_map] at hfilter
  unfold Draft.initials
  rw [h.variableSlots, List.map_append, List.map_append, List.map_filterMap, List.map_filterMap]
  simp only [Option.map_map]
  exact congrArg _ hfilter

theorem prologue : d'.prologue.map t.op = d.prologue.map t.op := by
  have hops : ∀ list : List Initial,
      (list.flatMap fun i => [Op.const i.value, .store i.slot i.ty]).map t.op =
        (list.map t.initial).flatMap fun i => [Op.const i.value, .store i.slot i.ty] := by
    intro list
    rw [List.map_flatMap, List.flatMap_map]
    rfl
  unfold Draft.prologue
  rw [hops, hops, ← sorted_initial, ← sorted_initial, h.initials]

/-- The programs of the two drafts look the same, and each one reports the
    problems of its own draft. -/
theorem finish (body : Code) :
    (d'.finish (t.code body)).program.ops.map t.op = (d.finish body).program.ops.map t.op ∧
      (d'.finish (t.code body)).program.locals = (d.finish body).program.locals ∧
      (d.finish body).problems = problems ∧ (d'.finish (t.code body)).problems = problems' := by
  have hprepare : t.Drafts problems problems' (d.prepare body) (d'.prepare (t.code body)) := by
    unfold Draft.prepare
    rw [h.length, h.length']
    exact h.prepareNested n body
  have hemit : t.Emissions problems problems' ((d.prepare body).emit body (d.prepare body).nextSlot)
      ((d'.prepare (t.code body)).emit (t.code body) (d'.prepare (t.code body)).nextSlot) := by
    unfold Draft.emit
    rw [hprepare.length, hprepare.length', hprepare.nextSlot]
    exact enters_emitNested n body _ [] _ _ hprepare
  refine ⟨?_, hemit.draft.nextSlot, hemit.draft.problems, hemit.draft.problems'⟩
  simp only [Draft.finish, List.map_append]
  rw [hemit.draft.prologue]
  exact congrArg (fun ops => _ ++ ops ++ _) hemit.block

end Drafts

/-- Every reference stands for itself, and all of an operation is looked at. -/
def same (n : Nat) : Likeness n where
  look := id
  refer := .shared
  known _ ty _ := ⟨ty, rfl, rfl⟩
  unknown _ _ _ := .inl rfl

@[simp] theorem code_same (c : Code) : (same n).code c = c := c.refer_shared

theorem op_of_look {t : Likeness n} (h : t.look = id) (o : Op) : t.op o = o := by
  cases o <;> simp [op, h]

theorem map_op_of_look {t : Likeness n} (h : t.look = id) (ops : List Op) : ops.map t.op = ops := by
  rw [funext (op_of_look h), List.map_id']

/-- Where all of an operation is looked at, the programs are the same. -/
theorem Drafts.finish_eq {t : Likeness n} {d d' : Draft} (h : t.Drafts problems problems' d d')
    (hlook : t.look = id) (body : Code) :
    d'.finish (t.code body) = ⟨(d.finish body).program, problems'⟩ := by
  obtain ⟨hops, hlocals, -, hproblems⟩ := h.finish body
  rw [map_op_of_look hlook, map_op_of_look hlook] at hops
  generalize d'.finish (t.code body) = c at *
  obtain ⟨⟨ops, locals⟩, reported⟩ := c
  subst hops hlocals hproblems
  rfl

end Likeness

/-- A program does not depend on the outputs that the draft remembers, nor on
    the problems on its record, which are reported as they are. -/
theorem Draft.finish_with (d : Draft) (memo : List (Port × SharedId)) (problems : List LooseWire) (body : Code) :
    ({ d with memo := memo, problems := problems } : Draft).finish body = ⟨(d.finish body).program, problems⟩ := by
  have hsame : (Likeness.same d.shared.length).Drafts d.problems problems d
      { d with memo := memo, problems := problems } := by
    refine ⟨rfl, rfl, rfl, rfl, rfl, ?_, rfl, rfl⟩
    intro id
    show Option.Rel _ d.shared[id]? d.shared[id]?
    cases d.shared[id]? with
    | none => exact .none
    | some entry => exact .some ⟨(Likeness.code_same entry.value).symm, rfl, rfl, rfl⟩
  have hfinish := hsame.finish_eq rfl body
  rwa [Likeness.code_same] at hfinish

end FlowGraph
