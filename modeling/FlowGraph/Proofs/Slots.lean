import Mathlib.Data.List.OfFn
import FlowGraph.Proofs.Pieces
import FlowGraph.Proofs.Sharing

/-! # Who owns a slot

    Variables, shared values and loops take their slots from one counter: the
    first two before code is laid out, loops while it is. In a finished
    program no slot is left over and none has two owners, whatever the code
    and the computations name.

    * Reserving slots finds all that the code refers to, and nothing else
      (`Draft.Fresh.refers_iff`); so laying out the code reserves nothing.
    * Each loop takes the next two slots (`Builds.keeps`).

    Main statement: `Draft.finish_slots`.
-/

namespace FlowGraph

open Draft

/-! ## Operations and the slots of their owners -/

/-- The slot belongs to what the operation is for. Operations that stand in
    the code itself may use any. -/
def Origin.Owns (holds : Place → Nat → Prop) (loops : List Nat) : Origin → Nat → Prop
  | .given, _ => True
  | .control, _ => False
  | .place owner, slot => holds owner slot
  | .loop limit, slot => limit ∈ loops ∧ (slot = limit ∨ slot = limit + 1)

/-- Every operation keeps to slots of its owner. -/
def Owned (holds : Place → Nat → Prop) (loops : List Nat) (list : List (Op × Origin)) : Prop :=
  ∀ o origin, (o, origin) ∈ list → ∀ slot, o.slot? = some slot → origin.Owns holds loops slot

namespace Owned

variable {holds holds' : Place → Nat → Prop} {loops loops' : List Nat} {list list' : List (Op × Origin)}

theorem mono (h : Owned holds loops list) (hholds : ∀ place slot, holds place slot → holds' place slot)
    (hloops : loops ⊆ loops') : Owned holds' loops' list := by
  intro o origin hmem slot hslot
  have howns := h o origin hmem slot hslot
  cases origin with
  | given => trivial
  | control => exact howns
  | place place => exact hholds place slot howns
  | loop limit => exact ⟨hloops howns.1, howns.2⟩

theorem append (h : Owned holds loops list) (h' : Owned holds loops list') : Owned holds loops (list ++ list') := by
  intro o origin hmem
  rcases List.mem_append.mp hmem with hmem | hmem
  · exact h o origin hmem
  · exact h' o origin hmem

theorem tag {origin : Origin} {ops : List Op}
    (h : ∀ o ∈ ops, ∀ slot, o.slot? = some slot → origin.Owns holds loops slot) :
    Owned holds loops (origin.tag ops) := by
  intro o origin' hmem
  obtain ⟨ho, rfl⟩ := Origin.mem_tag.mp hmem
  exact h o ho

theorem given (ops : List Op) : Owned holds loops (Origin.given.tag ops) := tag fun _ _ _ _ => trivial

theorem control {ops : List Op} (h : ∀ o ∈ ops, o.slot? = none) : Owned holds loops (Origin.control.tag ops) := by
  refine tag fun o ho slot hslot => ?_
  rw [h o ho] at hslot
  cases hslot

/-- An operation on the slot of its place. -/
theorem place {place : Place} {slot : Nat} (h : holds place slot) {ops : List Op}
    (hops : ∀ o ∈ ops, o.slot? = none ∨ o.slot? = some slot) :
    Owned holds loops ((Origin.place place).tag ops) := by
  refine tag fun o ho slot' hslot => ?_
  rcases hops o ho with hnone | hsome
  · rw [hnone] at hslot
    cases hslot
  · rw [hsome] at hslot
    cases hslot
    exact h

theorem loop {limit : Nat} (h : limit ∈ loops) {ops : List Op}
    (hops : ∀ o ∈ ops, o.slot? = none ∨ o.slot? = some limit ∨ o.slot? = some (limit + 1)) :
    Owned holds loops ((Origin.loop limit).tag ops) := by
  refine tag fun o ho slot hslot => ⟨h, ?_⟩
  rcases hops o ho with hnone | hsome | hsome
  · rw [hnone] at hslot
    cases hslot
  · exact .inl (Option.some.inj (hslot.symm.trans hsome))
  · exact .inr (Option.some.inj (hslot.symm.trans hsome))

end Owned

/-- Two slots each, one loop after the other. -/
def InTurn (start : Nat) (loops : List Nat) : Prop := loops = List.range' start loops.length 2

theorem InTurn.append {start : Nat} {loops loops' : List Nat} (h : InTurn start loops)
    (h' : InTurn (start + 2 * loops.length) loops') : InTurn start (loops ++ loops') := by
  unfold InTurn at h h' ⊢
  rw [List.length_append, ← List.range'_append, ← h, ← h']

theorem InTurn.cons {start : Nat} {loops : List Nat} (h : InTurn (start + 2) loops) :
    InTurn start (start :: loops) := by
  unfold InTurn at h ⊢
  rw [List.length_cons, List.range'_succ, ← h]

/-! ## Laying out with all slots reserved -/

namespace Draft

/-- The slot is reserved for the place. -/
def Assigned (d : Draft) (place : Place) (slot : Nat) : Prop := d.At place slot ∧ place ≠ .temp slot

theorem Advances.assigned {d d' : Draft} (h : d.Advances d') {place : Place} {slot : Nat}
    (hslot : d'.Assigned place slot) : d.Assigned place slot := ⟨h.at_of_at hslot.1, hslot.2⟩

theorem assigned_var {d : Draft} {name : String} {slot : Nat} (h : d.variableSlots.lookup name = some slot) :
    d.Assigned (.var name) slot := ⟨h, by simp⟩

theorem assigned_shared {d : Draft} {id : SharedId} {entry : Shared} {slot : Nat}
    (h : d.shared[id]? = some entry) (hslot : entry.slot = some slot) : d.Assigned (.shared id) slot :=
  ⟨⟨entry, h, hslot⟩, by simp⟩

/-- The computations that are wanted have slots, and so has all that they
    name. What they need is wanted as well. -/
structure Stocked (d : Draft) (wanted : SharedId → Prop) : Prop where
  slots : ∀ id entry, wanted id → d.shared[id]? = some entry → ∃ slot, entry.slot = some slot
  names : ∀ id entry, wanted id → d.shared[id]? = some entry → ∀ name ∈ entry.value.names, d.Named name
  mentions : ∀ id entry, wanted id → d.shared[id]? = some entry → ∀ id' ∈ entry.value.mentions, wanted id'

variable {d d' : Draft} {wanted : SharedId → Prop}

theorem Stocked.of_advances (h : d.Stocked wanted) (hd : d.Advances d') : d'.Stocked wanted := by
  refine ⟨?_, ?_, ?_⟩
  · rw [hd.shared]
    exact h.slots
  · intro id entry hid hentry name hname
    exact hd.named.mpr (h.names id entry hid (hd.shared ▸ hentry) name hname)
  · rw [hd.shared]
    exact h.mentions

theorem Stocked.of_reaches (h : d.Stocked wanted) {c : Code} (hc : ∀ id ∈ c.mentions, wanted id) {id : SharedId}
    (hid : d.Reaches c id) : wanted id := by
  induction hid with
  | mention hid => exact hc _ hid
  | through _ hentry hid ih => exact h.mentions _ _ ih hentry _ hid

/-- What is computed ahead of the regions is wanted if they want it. -/
theorem Stocked.of_mem_toHoist (h : d.Stocked wanted) {regions after : List Code}
    (hregions : ∀ region ∈ regions, ∀ id ∈ region.mentions, wanted id) {id : SharedId}
    (hid : id ∈ d.toHoist regions after) : wanted id := by
  obtain ⟨region, hregion, hreaches⟩ := needs_of_mem_toHoist hid
  exact h.of_reaches (hregions region hregion) hreaches

end Draft

/-- The names of the variables that the job reads and sets. -/
def Job.names : Job → List String
  | .code c _ => c.names
  | .stores _ _ => []

/-- A piece that takes slots for its loops and for nothing else. -/
structure Keeps (d : Draft) (p : Piece) (d' : Draft) : Prop where
  advances : d.Advances d'
  nextSlot : d'.nextSlot = d.nextSlot + 2 * p.loops.length
  inTurn : InTurn d.nextSlot p.loops
  owned : Owned d.Assigned p.loops p.placed

namespace Keeps

variable {d d' d₁ d₂ : Draft} {p p₁ p₂ : Piece}

/-- Nothing is taken without a loop. -/
theorem still (hadvances : d.Advances d') (hnext : d'.nextSlot = d.nextSlot) (hloops : p.loops = [])
    (howned : Owned d.Assigned [] p.placed) : Keeps d p d' where
  advances := hadvances
  nextSlot := by simp [hnext, hloops]
  inTurn := by simp [InTurn, hloops]
  owned := by rwa [hloops]

theorem given (ops : List Op) (hadvances : d.Advances d') (hnext : d'.nextSlot = d.nextSlot) :
    Keeps d (.given ops) d' := .still hadvances hnext rfl (.given ops)

theorem append (h₁ : Keeps d p₁ d₁) (h₂ : Keeps d₁ p₂ d₂) : Keeps d (.append p₁ p₂) d₂ where
  advances := h₁.advances.trans h₂.advances
  nextSlot := by
    rw [h₂.nextSlot, h₁.nextSlot, Piece.loops, List.length_append]
    omega
  inTurn := h₁.inTurn.append (h₁.nextSlot ▸ h₂.inTurn)
  owned := by
    refine .append (h₁.owned.mono (fun _ _ hslot => hslot) (List.subset_append_left _ _)) ?_
    exact h₂.owned.mono (fun _ _ hslot => h₁.advances.assigned hslot) (List.subset_append_right _ _)

/-- Behind the piece something is done with the slot of a place. -/
theorem finish {place : Place} {slot : Nat} {ops : List Op} (h : Keeps d₁ p₁ d') (hd : d.Advances d₁)
    (hnext : d₁.nextSlot = d.nextSlot) (hslot : d.Assigned place slot)
    (hops : ∀ o ∈ ops, o.slot? = none ∨ o.slot? = some slot) (hloops : p.loops = p₁.loops)
    (hplaced : p.placed = p₁.placed ++ (Origin.place place).tag ops) : Keeps d p d' where
  advances := hd.trans h.advances
  nextSlot := by rw [h.nextSlot, hnext, hloops]
  inTurn := by rw [hloops, ← hnext]; exact h.inTurn
  owned := by
    rw [hplaced, hloops]
    exact .append (h.owned.mono (fun _ _ hslot => hd.assigned hslot) (List.Subset.refl _)) (.place hslot hops)

theorem hoisted (h : Keeps d p d') (start : Draft) (regions after : List Code) :
    Keeps d (.hoisted start regions after p) d' := ⟨h.advances, h.nextSlot, h.inTurn, h.owned⟩

/-- Stores made inside are forgotten. -/
theorem restore (h : Keeps d p d') : Keeps d p (d'.restoreMarks d.stored) :=
  ⟨h.advances.restore, h.nextSlot, h.inTurn, h.owned⟩

/-- The loop has the two slots in front of those of its body. -/
theorem loop {times ahead body : Piece} {t h b : Draft} (ht : Keeps d times t) (hh : Keeps t.beginLoop ahead h)
    (hb : Keeps h body b) :
    Keeps d (.loop t.nextSlot t.nextLabel times ahead body) (b.restoreMarks h.stored) := by
  have hinner := hh.append hb.restore
  have hadvances := ht.advances.trans (advances_beginLoop t)
  have hsub : times.loops ⊆ times.loops ++ t.nextSlot :: (ahead.loops ++ body.loops) :=
    List.subset_append_left _ _
  have hsub' : ahead.loops ++ body.loops ⊆ times.loops ++ t.nextSlot :: (ahead.loops ++ body.loops) :=
    fun _ hmem => List.mem_append_right _ (List.mem_cons_of_mem _ hmem)
  have hself : t.nextSlot ∈ times.loops ++ t.nextSlot :: (ahead.loops ++ body.loops) := by simp
  refine ⟨hadvances.trans hinner.advances, ?_, ?_, ?_⟩
  · rw [hinner.nextSlot, beginLoop, ht.nextSlot]
    simp only [Piece.loops, List.length_append, List.length_cons]
    omega
  · exact ht.inTurn.append (ht.nextSlot ▸ .cons hinner.inTurn)
  · have htimes := ht.owned.mono (fun _ _ hslot => hslot) hsub
    have hahead := hh.owned.mono (fun _ _ hslot => hadvances.assigned hslot)
      (List.Subset.trans (List.subset_append_left _ _) hsub')
    have hbody := hb.owned.mono (fun _ _ hslot => (hadvances.trans hh.advances).assigned hslot)
      (List.Subset.trans (List.subset_append_right _ _) hsub')
    -- the parts in their order, with the operations of the loop between them
    refine ((((htimes.append ?_).append hahead).append ?_).append hbody).append ?_
    · exact .loop hself (by simp [loopStart, Op.slot?])
    · exact .loop hself (by simp [loopTest, Op.slot?])
    · exact .loop hself (by simp [loopEnd, Op.slot?])

theorem branch {condition ahead yes no : Piece} {c h y n : Draft} (hc : Keeps d condition c)
    (hh : Keeps c ahead h) (hy : Keeps h.beginBranch yes y) (hn : Keeps (y.restoreMarks h.stored) no n) :
    Keeps d (.branch h.nextLabel condition ahead yes no) (n.restoreMarks h.stored) := by
  have hyes : Keeps h yes (y.restoreMarks h.stored) :=
    ⟨((advances_beginBranch h).trans hy.advances).restore, hy.nextSlot, hy.inTurn, hy.owned⟩
  have hall := ((hc.append hh).append hyes).append hn
  have hcontrol {ops : List Op} (hops : ∀ o ∈ ops, o.slot? = none) :
      Owned d.Assigned (condition.loops ++ ahead.loops ++ yes.loops ++ no.loops) (Origin.control.tag ops) := .control hops
  -- without the jumps and labels the parts follow each other, and those name no slots
  have hparts := hall.owned
  simp only [Piece.placed, Piece.loops] at hparts
  refine ⟨?_, hall.nextSlot, hall.inTurn, ?_⟩
  · have hfirst := (hc.advances.trans hh.advances)
    exact hfirst.trans ((hyes.advances.trans hn.advances).restore)
  · intro o origin hmem
    simp only [Piece.placed, List.mem_append] at hmem
    have hpart := hparts o origin
    simp only [List.mem_append] at hpart
    rcases hmem with (((((hmem | hmem) | hmem) | hmem) | hmem) | hmem) | hmem
    · exact hpart (.inl (.inl (.inl hmem)))
    · exact hpart (.inl (.inl (.inr hmem)))
    · exact hcontrol (by simp [Op.slot?]) o origin hmem
    · exact hpart (.inl (.inr hmem))
    · exact hcontrol (by simp [Op.slot?]) o origin hmem
    · exact hpart (.inr hmem)
    · exact hcontrol (by simp [Op.slot?]) o origin hmem

end Keeps

/-- Where all slots are reserved, only loops take slots. -/
theorem Builds.keeps {job : Job} {used : Nat} {d d' : Draft} {p : Piece} (h : Builds job used d p d')
    {wanted : SharedId → Prop} (hd : d.Stocked wanted) (hroots : ∀ id ∈ job.roots, wanted id)
    (hnames : ∀ name ∈ job.names, d.Named name) (hused : used ≤ d.nextSlot) : Keeps d p d' := by
  induction h with
  | op => exact .given _ (.refl _) rfl
  | done => exact .given _ (.refl _) rfl
  | andThen _ _ ih₁ ih₂ =>
    rw [Job.roots, Code.mentions, List.forall_mem_append] at hroots
    rw [Job.names, Code.names, List.forall_mem_append] at hnames
    have hfirst := ih₁ hd hroots.1 hnames.1 hused
    have hadvances := hfirst.advances
    exact hfirst.append (ih₂ (hd.of_advances hadvances) hroots.2
      (fun name hname => hadvances.named.mpr (hnames.2 name hname)) (Nat.le_trans hused hadvances.nextSlot))
  | raw => exact .given _ ⟨rfl, rfl, Nat.le_refl _, Nat.le_add_right _ _, fun _ h => h⟩ rfl
  | unknown =>
    refine .still (.refl _) rfl rfl (.control fun o ho => ?_)
    obtain ⟨c, -, rfl⟩ := List.mem_map.mp ho
    rfl
  | @load id _ _ _ d _ entry _ hentry hslot =>
    obtain ⟨slot, hgiven⟩ := hd.slots id entry (hroots id List.mem_cons_self) hentry
    rw [slotOf_eq hgiven] at hslot
    cases hslot
    exact .still (.refl d) rfl rfl (.place (assigned_shared hentry hgiven) (by simp [Op.slot?]))
  | @compute id _ _ _ d _ entry _ _ _ hentry hslot _ _ ih =>
    have hwanted := hroots id List.mem_cons_self
    obtain ⟨slot, hgiven⟩ := hd.slots id entry hwanted hentry
    rw [slotOf_eq hgiven] at hslot
    cases hslot
    -- marks do not matter here, so the value may need this computation again
    have hmark := d.advances_markStored id
    have hvalue := ih (hd.of_advances hmark) (hd.mentions id entry hwanted hentry)
      (hd.names id entry hwanted hentry) hused
    exact hvalue.finish hmark rfl (assigned_shared hentry hgiven) (by simp [Op.slot?]) rfl rfl
  | @getVariable name _ _ d _ _ hslot =>
    obtain ⟨slot, hgiven⟩ := hnames name List.mem_cons_self
    rw [variableSlot_of_some hgiven] at hslot
    cases hslot
    exact .still (.refl d) rfl rfl (.place (assigned_var hgiven) (by simp [Op.slot?]))
  | @setVariable name _ _ _ d _ d₁ _ _ _ hslot ih =>
    rw [Job.names, Code.names, List.forall_mem_cons] at hnames
    have hvalue := ih hd hroots hnames.2 hused
    obtain ⟨slot, hgiven⟩ := hvalue.advances.named.mpr hnames.1
    rw [variableSlot_of_some hgiven] at hslot
    cases hslot
    exact hvalue.finish (.refl d) rfl (hvalue.advances.assigned (assigned_var hgiven)) (by simp [Op.slot?]) rfl rfl
  | @loop _ body after used _ _ d₁ _ _ _ _ _ _ _ ih₁ ih₂ ih₃ =>
    rw [Job.roots, Code.mentions, List.forall_mem_append] at hroots
    rw [Job.names, Code.names, List.forall_mem_append] at hnames
    have htimes := ih₁ hd hroots.1 hnames.1 hused
    have hle := Nat.le_trans hused htimes.advances.nextSlot
    -- no slot in use lies above those that are taken, so the loop gets the next two
    rw [enterLoop_eq hle] at ih₂ ih₃ ⊢
    have hadvances := htimes.advances.trans (advances_beginLoop d₁)
    have hstocked := hd.of_advances hadvances
    -- what goes ahead is needed by the body
    have hahead := ih₂ hstocked
      (fun id hid => hstocked.of_mem_toHoist (by simpa using hroots.2) hid) (by simp [Job.names]) (Nat.le_refl _)
    have hadvances' := hadvances.trans hahead.advances
    have hbody := ih₃ (hd.of_advances hadvances') hroots.2
      (fun name hname => hadvances'.named.mpr (hnames.2 name hname)) hahead.advances.nextSlot
    rw [Nat.max_eq_right hle]
    exact .loop htimes (hahead.hoisted _ _ _) hbody
  | @branch _ yes no _ _ _ _ d₁ _ d₂ _ _ _ _ _ _ _ _ ih₁ ih₂ ih₃ ih₄ =>
    rw [Job.roots, Code.mentions, List.forall_mem_append, List.forall_mem_append] at hroots
    rw [Job.names, Code.names, List.forall_mem_append, List.forall_mem_append] at hnames
    have hcondition := ih₁ hd hroots.1.1 hnames.1.1 hused
    have hle := Nat.le_trans hused hcondition.advances.nextSlot
    have hstocked := hd.of_advances hcondition.advances
    have hahead := ih₂ hstocked
      (fun id hid => hstocked.of_mem_toHoist (by simpa using ⟨hroots.1.2, hroots.2⟩) hid) (by simp [Job.names]) hle
    have hbegin := (hcondition.advances.trans hahead.advances).trans (advances_beginBranch d₂)
    have hyes := ih₃ (hd.of_advances hbegin) hroots.1.2
      (fun name hname => hbegin.named.mpr (hnames.1.2 name hname)) (Nat.le_trans hused hbegin.nextSlot)
    have hmiddle := (hcondition.advances.trans hahead.advances).trans
      ((advances_beginBranch d₂).trans hyes.advances).restore
    have hno := ih₄ (hd.of_advances hmiddle) hroots.2
      (fun name hname => hmiddle.named.mpr (hnames.2 name hname)) (Nat.le_trans hused hmiddle.nextSlot)
    exact .branch hcondition (hahead.hoisted _ _ _) hyes hno
  | nil => exact .given _ (.refl _) rfl
  | skip _ _ ih => exact ih hd (fun id hid => hroots id (List.mem_cons_of_mem _ hid)) hnames hused
  | @store id _ _ _ d _ entry _ _ _ _ _ hentry hslot _ _ _ ih₁ ih₂ =>
    have hwanted := hroots id List.mem_cons_self
    obtain ⟨slot, hgiven⟩ := hd.slots id entry hwanted hentry
    rw [slotOf_eq hgiven] at hslot
    cases hslot
    have hmark := d.advances_markStored id
    have hvalue := ih₁ (hd.of_advances hmark) (hd.mentions id entry hwanted hentry)
      (hd.names id entry hwanted hentry) hused
    have hadvances := hmark.trans hvalue.advances
    refine Keeps.append
      (hvalue.finish hmark rfl (assigned_shared hentry hgiven) (by simp [Op.slot?]) rfl rfl) ?_
    exact ih₂ (hd.of_advances hadvances) (fun id hid => hroots id (List.mem_cons_of_mem _ hid))
      (by simp [Job.names]) (Nat.le_trans hused hadvances.nextSlot)

/-! ## What is reserved -/

namespace Draft

variable {d d' : Draft} {body : Code}

/-- What the code refers to, itself or in computations that it needs. -/
def Refers (d : Draft) (c : Code) : Place → Prop
  | .var name => d.Names c name
  | .shared id => d.Reaches c id ∧ id < d.shared.length
  | .temp _ => False

/-- All that the code needs is reserved for it. -/
theorem Fresh.stocked (hd : d.Fresh) (body : Code) : (d.prepare body).Stocked (d.Reaches body) := by
  have hsearched := d.searchedFor_prepare body
  have hslotted : ∀ id entry, d.Reaches body id → (d.prepare body).shared[id]? = some entry →
      (d.prepare body).Slotted id := fun id entry hid hentry =>
    hd.slotted hid (hsearched.reserves.length_eq ▸ (List.getElem?_eq_some_iff.mp hentry).1)
  refine ⟨?_, ?_, ?_⟩
  · intro id entry hid hentry
    obtain ⟨entry', slot, hentry', hslot⟩ := hslotted id entry hid hentry
    cases Option.some.inj (hentry'.symm.trans hentry)
    exact ⟨slot, hslot⟩
  · intro id entry hid hentry
    rcases hsearched.searched id entry hentry (hslotted id entry hid hentry) with hold | hholds
    · exact absurd hold (hd.not_slotted id)
    · exact hholds.names
  · intro id entry hid hentry id' hid'
    obtain ⟨before, hbefore, hvalue, -⟩ := hsearched.reserves.getElem? hentry
    exact .through hid hbefore (hvalue ▸ hid')

theorem Fresh.named (hd : d.Fresh) {name : String} (h : d.Names body name) : (d.prepare body).Named name := by
  rcases h with hname | ⟨id, entry, hid, hentry, hname⟩
  · exact (d.searchedFor_prepare body).holds.names name hname
  · obtain ⟨entry', hentry', hvalue⟩ := (d.reserves_prepare body).precedes.getElem? hentry
    exact (hd.stocked body).names id entry' hid hentry' name (hvalue ▸ hname)

theorem Fresh.packed_prepare (hd : d.Fresh) (body : Code) : (d.prepare body).Packed :=
  (d.reserves_prepare body).packed hd.packed

/-- Slots are reserved for all that the code refers to, and for nothing else. -/
theorem Fresh.refers_iff (hd : d.Fresh) {place : Place} :
    d.Refers body place ↔ ∃ slot, (d.prepare body).Assigned place slot := by
  have hsearched := d.searchedFor_prepare body
  cases place with
  | var name =>
    constructor
    · intro hname
      obtain ⟨slot, hslot⟩ := hd.named hname
      exact ⟨slot, assigned_var hslot⟩
    · -- a fresh draft has no variables yet
      rintro ⟨slot, hat, -⟩
      refine (hsearched.named name ⟨slot, hat⟩).resolve_left ?_
      simp [Named, hd.variableSlots]
  | shared id =>
    constructor
    · rintro ⟨hid, hlt⟩
      obtain ⟨entry, slot, hentry, hslot⟩ := hd.slotted hid hlt
      exact ⟨slot, assigned_shared hentry hslot⟩
    · rintro ⟨slot, ⟨entry, hentry, hslot⟩, -⟩
      refine ⟨(hsearched.slotted id ⟨entry, slot, hentry, hslot⟩).resolve_left (hd.not_slotted id), ?_⟩
      exact hsearched.reserves.length_eq ▸ (List.getElem?_eq_some_iff.mp hentry).1
  | temp n =>
    constructor
    · exact False.elim
    · rintro ⟨slot, ⟨rfl, -⟩, hne⟩
      exact hne rfl

/-! ## First values -/

/-- What the slot of a place holds at first, and its type: null for a
    variable, and the default for a shared value. -/
def first (d : Draft) : Place → Const × Ty
  | .shared id => (d.shared[id]?).elim (.null, .ref .object) fun entry => (entry.default, entry.ty)
  | _ => (.null, .ref .object)

/-- The first value in a slot of this place. -/
def initialAt (d : Draft) (place : Place) (slot : Nat) : Initial := ⟨slot, (d.first place).1, (d.first place).2⟩

/-- The first values of these places, in slots that are numbered from zero. -/
def initialsOf (d : Draft) (owners : List Place) : List Initial :=
  owners.zipIdx.map fun x => d.initialAt x.1 x.2

theorem Reserves.initialsOf_eq (h : d.Reserves d') (owners : List Place) :
    d'.initialsOf owners = d.initialsOf owners := by
  have hfirst : d'.first = d.first := by
    funext place
    cases place with
    | shared id =>
      simp only [first]
      cases hentry' : d'.shared[id]? with
      | none =>
        have hnone : d.shared[id]? = none := by
          rw [List.getElem?_eq_none_iff, ← h.length_eq]
          exact List.getElem?_eq_none_iff.mp hentry'
        rw [hnone]
      | some entry' =>
        obtain ⟨entry, hentry, -, hty, hdefault⟩ := h.getElem? hentry'
        rw [hentry, Option.elim_some, Option.elim_some, hty, hdefault]
    | _ => rfl
  simp only [initialsOf, initialAt, hfirst]

theorem at_of_mem (hnames : (d.variableSlots.map Prod.fst).Nodup) {x : String × Nat} (h : x ∈ d.variableSlots) :
    d.At (.var x.1) x.2 := by
  obtain ⟨before, behind, heq⟩ := List.append_of_mem h
  refine List.lookup_eq_some_iff.mpr ⟨before, behind, heq, fun y hy => ?_⟩
  rw [heq, List.map_append, List.map_cons] at hnames
  have hne := (List.nodup_append.mp hnames).2.2 y.1 (List.mem_map_of_mem hy) x.1 List.mem_cons_self
  simpa using Ne.symm hne

/-- Each slot that is reserved has one first value, that of its place. -/
theorem mem_initials_iff (hnames : (d.variableSlots.map Prod.fst).Nodup) {i : Initial} :
    i ∈ d.initials ↔ ∃ place, d.Assigned place i.slot ∧ i = d.initialAt place i.slot := by
  constructor
  · intro hi
    rcases List.mem_append.mp hi with hi | hi
    · obtain ⟨x, hx, rfl⟩ := List.mem_map.mp hi
      exact ⟨.var x.1, assigned_var (at_of_mem hnames (List.mem_reverse.mp hx)), rfl⟩
    · obtain ⟨entry, hmem, hi⟩ := List.mem_filterMap.mp hi
      obtain ⟨slot, hslot, rfl⟩ := Option.map_eq_some_iff.mp hi
      obtain ⟨id, hentry⟩ := List.getElem?_of_mem hmem
      refine ⟨.shared id, assigned_shared hentry hslot, ?_⟩
      simp [initialAt, first, hentry]
  · rintro ⟨place, ⟨hat, hne⟩, heq⟩
    rw [heq]
    cases place with
    | var name => exact initial_mem_of_var hat
    | shared id =>
      obtain ⟨entry, hentry, hslot⟩ := hat
      simpa [initialAt, first, hentry] using initial_mem hentry hslot
    | temp n => exact absurd (by rw [hat.1]) hne

end Draft

namespace Initial

theorem pairwise_insert {i : Initial} {list : List Initial} (h : list.Pairwise (·.slot ≤ ·.slot)) :
    (insert i list).Pairwise (·.slot ≤ ·.slot) := by
  induction list with
  | nil => exact List.pairwise_singleton _ _
  | cons j rest ih =>
    obtain ⟨hj, hrest⟩ := List.pairwise_cons.mp h
    rw [insert]
    split
    · next hle =>
      refine List.pairwise_cons.mpr ⟨fun k hk => ?_, h⟩
      rcases List.mem_cons.mp hk with rfl | hk
      · exact hle
      · exact Nat.le_trans hle (hj k hk)
    · next hlt =>
      refine List.pairwise_cons.mpr ⟨fun k hk => ?_, ih hrest⟩
      rcases List.mem_cons.mp ((insert_perm i rest).mem_iff.mp hk) with rfl | hk
      · exact Nat.le_of_lt (Nat.not_le.mp hlt)
      · exact hj k hk

theorem pairwise_sorted (list : List Initial) : (sorted list).Pairwise (·.slot ≤ ·.slot) := by
  induction list with
  | nil => exact .nil
  | cons i rest ih => exact pairwise_insert ih

/-- With one first value for each slot, the order in which they are listed
    does not matter. -/
theorem sorted_eq {list target : List Initial} (hperm : list.Perm target) (hslots : (target.map slot).Nodup)
    (htarget : target.Pairwise (·.slot ≤ ·.slot)) : sorted list = target := by
  have hall := (sorted_perm list).trans hperm
  refine hall.eq_of_pairwise (fun i j hi hj hij hji => ?_) (pairwise_sorted list) htarget
  exact List.inj_on_of_nodup_map hslots (hall.mem_iff.mp hi) hj (Nat.le_antisymm hij hji)

end Initial

namespace Draft

variable {d : Draft} {body : Code} {owners : List Place}

/-! ## Finished programs -/

/-- The owners of the slots that are reserved, in the order of the slots. -/
def Owners (d : Draft) (owners : List Place) : Prop :=
  ∀ slot place, owners[slot]? = some place ↔ d.Assigned place slot

/-- Every slot that is reserved has an owner. -/
theorem Packed.exists_owners (h : d.Packed) (hnames : (d.variableSlots.map Prod.fst).Nodup) :
    ∃ owners, d.Owners owners ∧ owners.length = d.nextSlot := by
  have hassigned : ∀ slot : Fin d.nextSlot, ∃ place, d.Assigned place slot := by
    intro slot
    obtain ⟨i, hi, heq⟩ := List.mem_map.mp (h.mem_iff.mpr (List.mem_range.mpr slot.isLt))
    obtain ⟨place, hplace, -⟩ := (mem_initials_iff hnames).mp hi
    exact ⟨place, heq ▸ hplace⟩
  -- no slot is left out, and a slot has no second owner
  choose f hf using hassigned
  refine ⟨List.ofFn f, fun slot place => ?_, List.length_ofFn⟩
  rw [List.getElem?_ofFn]
  constructor
  · intro hget
    split at hget
    · next hlt =>
      cases hget
      exact hf ⟨slot, hlt⟩
    · cases hget
  · rintro ⟨hat, hne⟩
    have hlt := h.apart.lt hat hne
    rw [dif_pos hlt, h.apart _ _ slot (hf ⟨slot, hlt⟩).1 hat]

theorem Owners.nodup (h : d.Owners owners) : owners.Nodup := by
  refine List.nodup_iff_injective_getElem.mpr fun i j heq => Fin.ext ?_
  have hi := (h i _).mp (List.getElem?_eq_getElem i.isLt)
  have hj := (h j _).mp (List.getElem?_eq_getElem j.isLt)
  dsimp only at heq
  exact at_unique (heq ▸ hi.1) hj.1

theorem Owners.mem_iff (h : d.Owners owners) {place : Place} : place ∈ owners ↔ ∃ slot, d.Assigned place slot := by
  rw [List.mem_iff_getElem?]
  exact exists_congr fun slot => h slot place

theorem map_slot_initialsOf (d : Draft) (owners : List Place) :
    (d.initialsOf owners).map Initial.slot = List.range owners.length := by
  rw [initialsOf, List.map_map, List.range_eq_range', ← List.zipIdx_map_snd 0 owners]
  rfl

/-- The prologue goes through the owners, in whatever order they are listed
    before they are sorted. -/
theorem Owners.sorted_initials (h : d.Owners owners) (hpacked : d.Packed)
    (hnames : (d.variableSlots.map Prod.fst).Nodup) {list : List Initial} (hlist : list.Perm d.initials) :
    Initial.sorted list = d.initialsOf owners := by
  have hslots := d.map_slot_initialsOf owners
  have hnodup : ((d.initialsOf owners).map Initial.slot).Nodup := hslots ▸ List.nodup_range
  have hmem : ∀ i, i ∈ d.initials ↔ i ∈ d.initialsOf owners := by
    intro i
    rw [mem_initials_iff hnames, initialsOf, List.mem_map]
    constructor
    · rintro ⟨place, hslot, heq⟩
      exact ⟨(place, i.slot), List.mem_zipIdx_iff_getElem?.mpr ((h _ _).mpr hslot), heq.symm⟩
    · rintro ⟨⟨place, slot⟩, hx, rfl⟩
      exact ⟨place, (h slot place).mp (List.mem_zipIdx_iff_getElem?.mp hx), rfl⟩
  -- neither list has a slot twice, so the same members are enough
  have hinitials : (d.initials.map Initial.slot).Nodup := hpacked.nodup_iff.mpr List.nodup_range
  refine Initial.sorted_eq (hlist.trans ?_) hnodup ?_
  · exact (List.perm_ext_iff_of_nodup hinitials.of_map hnodup.of_map).mpr hmem
  · have hpairwise : ((d.initialsOf owners).map Initial.slot).Pairwise (· ≤ ·) := hslots ▸ List.pairwise_le_range
    exact List.pairwise_map.mp hpairwise

/-- In a finished program the slots are divided among the variables and the
    shared values that the code refers to and the loops that were laid out.
    The first `owners.length` slots have one owner each, and are given their
    first values in order; each loop has the next two. What the layout itself
    adds keeps to the slots of what it is for. -/
theorem finish_slots (hd : Grows {} d) (body : Code) :
    ∃ (owners : List Place) (piece : Piece),
      owners.Nodup ∧ (∀ place, place ∈ owners ↔ d.Refers body place) ∧
      Builds (.code body []) owners.length (d.prepare body) piece (d.layout body).draft ∧
      (∀ list, list.Perm (d.layout body).draft.initials → Initial.sorted list = d.initialsOf owners) ∧
      (d.finish body).program.ops = (d.initialsOf owners).flatMap Initial.ops ++ piece.ops ++ [.ret] ∧
      Owned (fun place slot => owners[slot]? = some place) piece.loops piece.placed ∧
      piece.loops = List.range' owners.length piece.loops.length 2 ∧
      (d.finish body).program.locals = owners.length + 2 * piece.loops.length := by
  have hfresh := hd.fresh fresh_empty
  have hreserves := d.reserves_prepare body
  have hpacked := hfresh.packed_prepare body
  have hnames := hreserves.nodup_names (by simp [hfresh.variableSlots])
  obtain ⟨owners, howners, hlength⟩ := hpacked.exists_owners hnames
  obtain ⟨piece, hops, hbuilds⟩ := isBuilt_emit (d.prepare body) body (d.prepare body).nextSlot
  have hkeeps : Keeps (d.prepare body) piece (d.layout body).draft :=
    hbuilds.keeps (hfresh.stocked body) (fun id hid => .mention hid)
      (d.searchedFor_prepare body).holds.names (Nat.le_refl _)
  have hsorted : ∀ list, list.Perm (d.layout body).draft.initials → Initial.sorted list = d.initialsOf owners := by
    intro list hlist
    rw [hkeeps.advances.initials_eq] at hlist
    rw [← hreserves.initialsOf_eq]
    exact howners.sorted_initials hpacked hnames hlist
  refine ⟨owners, piece, howners.nodup, fun place => ?_, hlength ▸ hbuilds, hsorted, ?_, ?_, ?_, ?_⟩
  · rw [howners.mem_iff, hfresh.refers_iff]
  · rw [finish_ops, prologue_eq, hsorted _ (.refl _), hops]
    rfl
  · exact hkeeps.owned.mono (fun place slot => (howners slot place).mpr) (List.Subset.refl _)
  · rw [hlength]
    exact hkeeps.inTurn
  · rw [hlength]
    exact hkeeps.nextSlot

/-- Two numbers that need each other. The first one sets a variable on the
    way. -/
def entangled : Draft :=
  let first := (({} : Draft).share ⟨0, 0⟩ (Code.block .double
    [.loop (.shared 1 .double) (.setVariable "turns" (.const .null)), .shared 1 .double]) (.number .one)).2
  (first.share ⟨1, 0⟩ (Code.block .double [.loop (.shared 0 .double) .empty, .shared 0 .double]) (.number .zero)).2

/-- Needs both, and a third number that is not there. -/
def entangling : Code :=
  Code.block .void [.loop (.shared 1 .double) (Code.block .void [.shared 0 .double, .op .pop .void]),
    .shared 2 .double, .op .pop .void]

theorem finish_slots_entangled :
    Grows {} entangled ∧ (entangled.finish entangling).program.locals = 9 ∧
      ∃ (owners : List Place) (piece : Piece),
        owners.Nodup ∧ (∀ place, place ∈ owners ↔ entangled.Refers entangling place) ∧
        Builds (.code entangling []) owners.length (entangled.prepare entangling) piece
          (entangled.layout entangling).draft ∧
        (∀ list, list.Perm (entangled.layout entangling).draft.initials →
          Initial.sorted list = entangled.initialsOf owners) ∧
        (entangled.finish entangling).program.ops =
          (entangled.initialsOf owners).flatMap Initial.ops ++ piece.ops ++ [.ret] ∧
        Owned (fun place slot => owners[slot]? = some place) piece.loops piece.placed ∧
        piece.loops = List.range' owners.length piece.loops.length 2 ∧
        (entangled.finish entangling).program.locals = owners.length + 2 * piece.loops.length := by
  have hgrows : Grows {} entangled := .share _ _ _ (.share _ _ _ .refl)
  exact ⟨hgrows, rfl, finish_slots hgrows entangling⟩

end Draft

end FlowGraph
