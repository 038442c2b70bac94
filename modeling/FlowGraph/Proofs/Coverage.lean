import FlowGraph.Proofs.Slots

/-! # Reserving covers laying out

    One walk over the code reserves slots, and another one uses them. The
    first goes into a computation once, when it gets its slot; the second
    goes into it from wherever it is first used, or computes it ahead.

    * What is reserved is not reserved again (`Code.prepareWith_of_holds`).
    * `emitReserved?` lays out code with the slots that the draft has. It gives
      up where a variable or a computation has none, and where a temporary
      would take one of them.

    Main statement: it never gives up behind the first walk, and the program
    that is finished is the one that it lays out (`Draft.finish_reserved`).
-/

namespace FlowGraph

/-! ## Reserving twice -/

namespace Code

open Draft

/-- Where all that the code names has a slot, nothing is left to reserve. -/
theorem prepareWith_of_holds (enter : Code → Draft → Draft) {c : Code} {d : Draft} (h : d.Holds c) :
    c.prepareWith enter d = d := by
  obtain ⟨hmentions, hnames⟩ := h
  induction c with
  | op o ty => rfl
  | done ty => rfl
  | raw ty ops => rfl
  | andThen first rest ihf ihr =>
    rw [mentions, List.forall_mem_append] at hmentions
    rw [names, List.forall_mem_append] at hnames
    rw [prepareWith, ihf hmentions.1 hnames.1, ihr hmentions.2 hnames.2]
  | shared id ty =>
    rw [prepareWith]
    split
    · next hentry =>
      -- a computation that is there has a slot
      obtain ⟨entry, slot, hentry', hslot⟩ :=
        hmentions id List.mem_cons_self (List.getElem?_eq_some_iff.mp hentry).1
      cases hentry.symm.trans hentry'
      cases hslot
    · rfl
  | getVariable name =>
    obtain ⟨slot, hslot⟩ := hnames name List.mem_cons_self
    rw [prepareWith, variableSlot_of_some hslot]
  | setVariable name value ih =>
    rw [names, List.forall_mem_cons] at hnames
    obtain ⟨slot, hslot⟩ := hnames.1
    rw [prepareWith, variableSlot_of_some hslot, ih hmentions hnames.2]
  | loop times body iht ihb =>
    rw [mentions, List.forall_mem_append] at hmentions
    rw [names, List.forall_mem_append] at hnames
    rw [prepareWith, iht hmentions.1 hnames.1, ihb hmentions.2 hnames.2]
  | branch condition yes no ihc ihy ihn =>
    rw [mentions, List.forall_mem_append, List.forall_mem_append] at hmentions
    rw [names, List.forall_mem_append, List.forall_mem_append] at hnames
    rw [prepareWith, ihc hmentions.1.1 hnames.1.1, ihy hmentions.1.2 hnames.1.2, ihn hmentions.2 hnames.2]

end Code

namespace Draft

theorem prepare_of_holds {c : Code} {d : Draft} (h : d.Holds c) : d.prepare c = d := by
  unfold prepare
  cases d.shared.length with
  | zero => exact Code.prepareWith_of_holds _ h
  | succ n => exact Code.prepareWith_of_holds _ h

theorem prepare_prepare (d : Draft) (c : Code) : (d.prepare c).prepare c = d.prepare c :=
  prepare_of_holds (d.searchedFor_prepare c).holds

/-! ## Laying out with reserved slots -/

/-- How the computation of a shared value is laid out, if it is. -/
abbrev EnterReserved := Code → Nat → List Code → Draft → Option Emission

/-- A slot for a temporary, unless it is among the first `reserved`. -/
def tempSlot? (d : Draft) (reserved used : Nat) : Option (Nat × Draft) :=
  if reserved ≤ (d.tempSlot used).1 then some (d.tempSlot used) else none

/-- Leaves the value of a shared computation that has a slot. -/
def emitShared? (enter : EnterReserved) (id : SharedId) (ty : Ty) (used : Nat) (after : List Code)
    (d : Draft) : Option Emission :=
  match d.shared[id]? with
  | none => some ⟨.ops ((Const.zero? ty).toList.map .const), d⟩
  | some entry => do
    let slot ← entry.slot
    if d.isStored id then return ⟨.ops [.load slot ty], d⟩
    else
      let value ← enter entry.value used after (d.markStored id)
      return ⟨value.block ++ .ops [.dup, .store slot ty], value.draft⟩

/-- Computes a shared computation into the slot that it has. -/
def storeShared? (enter : EnterReserved) (id : SharedId) (used : Nat) (after : List Code) (d : Draft) :
    Option Emission :=
  match d.shared[id]? with
  | none => some ⟨.ops [], d⟩
  | some entry => do
    -- whether it is stored or not
    let slot ← entry.slot
    if d.isStored id then return ⟨.ops [], d⟩
    else
      let value ← enter entry.value used after (d.markStored id)
      return ⟨value.block ++ .ops [.store slot entry.value.ty], value.draft⟩

def storeAll? (enter : EnterReserved) (used : Nat) (after : List Code) :
    List SharedId → Draft → Option Emission
  | [], d => some ⟨.ops [], d⟩
  | id :: rest, d => do
    let first ← d.storeShared? enter id used after
    let others ← storeAll? enter used after rest first.draft
    return ⟨first.block ++ others.block, others.draft⟩

end Draft

open Draft in
/-- Lays out code with slots that are there: those of variables and shared
    computations are looked up, and the first `reserved` are no temporaries. -/
def Code.emitReserved? (reserved : Nat) (enter : EnterReserved) :
    Code → Nat → List Code → Draft → Option Emission
  | .op o _, _, _, d => some ⟨.ops [o], d⟩
  | .done _, _, _, d => some ⟨.ops [], d⟩
  | .andThen first rest, used, after, d => do
    let a ← first.emitReserved? reserved enter used (rest :: after) d
    let b ← rest.emitReserved? reserved enter used after a.draft
    return ⟨a.block ++ b.block, b.draft⟩
  | .raw _ ops, _, _, d => some (d.emitRaw ops)
  | .shared id ty, used, after, d => d.emitShared? enter id ty used after
  | .getVariable name, _, _, d => do
    let slot ← d.variableSlots.lookup name
    return ⟨.ops [.load slot (.ref .object)], d⟩
  | .setVariable name value, used, after, d => do
    let v ← value.emitReserved? reserved enter used after d
    let slot ← v.draft.variableSlots.lookup name
    return ⟨v.block ++ .ops [.store slot (.ref .object)], v.draft⟩
  | .loop times body, used, after, d => do
    let t ← times.emitReserved? reserved enter used (body :: after) d
    let (limit, d) ← t.draft.tempSlot? reserved used
    let (counter, d) ← d.tempSlot? reserved (limit + 1)
    let (head, d) := d.freshLabel
    let (exit, d) := d.freshLabel
    let h ← d.storeAll? enter (counter + 1) (body :: after) (d.toHoist [body] after)
    let b ← body.emitReserved? reserved enter (counter + 1) after h.draft
    return ⟨t.block ++
      .ops [.store limit .double, .const (.number .zero), .store counter .double] ++
      h.block ++
      .ops [.label head, .load counter .double, .load limit .double, .compare .lt,
        .jumpUnless exit] ++
      b.block ++
      .ops [.load counter .double, .const (.number .one), .arith .add, .store counter .double,
        .jump head, .label exit],
      b.draft.restoreMarks h.draft.stored⟩
  | .branch condition yes no, used, after, d => do
    let c ← condition.emitReserved? reserved enter used (yes :: no :: after) d
    let h ← c.draft.storeAll? enter used (yes :: no :: after) (c.draft.toHoist [yes, no] after)
    let (otherwise, d) := h.draft.freshLabel
    let (last, d) := d.freshLabel
    let y ← yes.emitReserved? reserved enter used after d
    let n ← no.emitReserved? reserved enter used after (y.draft.restoreMarks h.draft.stored)
    return ⟨c.block ++ h.block ++ .ops [.jumpUnless otherwise] ++
      y.block ++ .ops [.jump last, .label otherwise] ++
      n.block ++ .ops [.label last],
      n.draft.restoreMarks h.draft.stored⟩

namespace Draft

def emitReservedNested? (reserved : Nat) : Nat → EnterReserved
  | 0 => Code.emitReserved? reserved fun _ _ _ _ => none
  | depth + 1 => Code.emitReserved? reserved (emitReservedNested? reserved depth)

/-- Lays out code with the slots that are there. -/
def emitReserved? (d : Draft) (c : Code) (used : Nat) : Option Emission :=
  emitReservedNested? d.nextSlot d.shared.length c used [] d

-- nothing is reserved yet
example : ({} : Draft).emitReserved? (.getVariable "x") 0 = none := rfl

/-- The program with this code, if it gets by with what is reserved for it. -/
def finishReserved? (d : Draft) (body : Code) : Option Compilation := do
  let prepared := d.prepare body
  let code ← prepared.emitReserved? body prepared.nextSlot
  return ⟨⟨code.draft.prologue ++ code.ops ++ [.ret], code.draft.nextSlot⟩, code.draft.problems⟩

/-! ## Slots that are there -/

/-- The job needs only what is wanted, and the draft has slots for that. No
    slot in use is a temporary of the draft. -/
structure Serves (wanted : SharedId → Prop) (reserved : Nat) (job : Job) (used : Nat) (d : Draft) : Prop where
  stocked : d.Stocked wanted
  roots : ∀ id ∈ job.roots, wanted id
  names : ∀ name ∈ job.names, d.Named name
  reserved : reserved ≤ used
  used : used ≤ d.nextSlot

variable {wanted : SharedId → Prop} {reserved used n : Nat} {job job' : Job} {c : Code} {after : List Code}
  {d d' : Draft}

theorem Advances.unseen_le (h : d.Advances d') : d'.unseen d'.stored ≤ d.unseen d.stored :=
  Precedes.unseen_le ⟨by rw [h.shared], h.stored⟩

/-- What comes behind a piece of code, in the draft that it leaves. -/
theorem Serves.of_advances (h : d.Serves wanted reserved job used) (hd : d.Advances d')
    (hroots : job'.roots ⊆ job.roots) (hnames : job'.names ⊆ job.names) : d'.Serves wanted reserved job' used where
  stocked := h.stocked.of_advances hd
  roots id hid := h.roots id (hroots hid)
  names name hname := hd.named.mpr (h.names name (hnames hname))
  reserved := h.reserved
  used := Nat.le_trans h.used hd.nextSlot

theorem Serves.later (h : d.Serves wanted reserved job used) (hd : d.Advances d') : d'.Serves wanted reserved job used :=
  h.of_advances hd (List.Subset.refl _) (List.Subset.refl _)

/-- What is computed ahead of parts of the code. -/
theorem Serves.ahead (h : d.Serves wanted reserved job used) (regions after following : List Code)
    (hregions : ∀ region ∈ regions, region.mentions ⊆ job.roots) :
    d.Serves wanted reserved (.stores (d.toHoist regions after) following) used where
  stocked := h.stocked
  roots _ hid := h.stocked.of_mem_toHoist (fun region hregion id hid => h.roots id (hregions region hregion hid)) hid
  names := by simp [Job.names]
  reserved := h.reserved
  used := h.used

/-- A loop takes its slots behind all that are there. -/
theorem Serves.enterLoop (h : d.Serves wanted reserved job used) :
    (d.enterLoop used).Serves wanted reserved job (d.enterLoop used).nextSlot := by
  rw [enterLoop_eq h.used]
  have hadvances := h.later (advances_beginLoop d)
  exact { hadvances with reserved := Nat.le_trans h.reserved hadvances.used, used := Nat.le_refl _ }

/-- A computation that is needed can be laid out as well. -/
theorem Serves.value (h : d.Serves wanted reserved job used) {id : SharedId} {entry : Shared}
    (hid : id ∈ job.roots) (hentry : d.shared[id]? = some entry) (after : List Code) :
    (d.markStored id).Serves wanted reserved (.code entry.value after) used where
  stocked := h.stocked.of_advances (d.advances_markStored id)
  roots := h.stocked.mentions id entry (h.roots id hid) hentry
  names := h.stocked.names id entry (h.roots id hid) hentry
  reserved := h.reserved
  used := h.used

/-- Laying out what the draft serves reserves nothing. -/
theorem Serves.advances (h : d.Serves wanted reserved job used) {e : Emission} (he : e.IsBuilt job used d) :
    d.Advances e.draft := by
  obtain ⟨p, -, hp⟩ := he
  exact (hp.keeps h.stocked h.roots h.names h.used).advances

theorem tempSlot?_eq (h : reserved ≤ used) : d.tempSlot? reserved used = some (d.tempSlot used) :=
  if_pos (Nat.le_trans h (Nat.le_max_left _ _))

/-- Computations are laid out alike, with reserved slots and otherwise, while
    fewer than `n` are not stored. -/
structure EntersAlike (wanted : SharedId → Prop) (reserved n : Nat) (enter? : EnterReserved) (enter : Enter) :
    Prop where
  built : EntersBuilt n enter
  alike : ∀ (c : Code) (used : Nat) (after : List Code) (d : Draft), d.unseen d.stored < n →
    d.Serves wanted reserved (.code c after) used → enter? c used after d = some (enter c used after d)

variable {enter? : EnterReserved} {enter : Enter}

/-- A computation that is not stored is laid out alike. -/
theorem EntersAlike.value (henter : EntersAlike wanted reserved n enter? enter) (hd : d.unseen d.stored ≤ n)
    (h : d.Serves wanted reserved job used) {id : SharedId} {entry : Shared} (hid : id ∈ job.roots)
    (hentry : d.shared[id]? = some entry) (hnew : d.isStored id = false) (after : List Code) :
    enter? entry.value used after (d.markStored id) = some (enter entry.value used after (d.markStored id)) := by
  refine henter.alike _ _ _ _ ?_ (h.value hid hentry after)
  have hlt : id < d.shared.length := (List.getElem?_eq_some_iff.mp hentry).1
  exact Nat.lt_of_lt_of_le (unseen_cons_lt hlt (by simpa [isStored] using hnew)) hd

theorem emitShared?_eq (henter : EntersAlike wanted reserved n enter? enter) (hd : d.unseen d.stored ≤ n)
    {id : SharedId} {ty : Ty} (h : d.Serves wanted reserved (.code (.shared id ty) after) used) :
    d.emitShared? enter? id ty used after = some (d.emitShared enter id ty used after) := by
  unfold emitShared? emitShared
  cases hentry : d.shared[id]? with
  | none => rfl
  | some entry =>
    have hid : id ∈ (Job.code (.shared id ty) after).roots := List.mem_cons_self
    obtain ⟨slot, hslot⟩ := h.stocked.slots id entry (h.roots id hid) hentry
    simp only [hslot, slotOf_eq hslot, Option.bind_eq_bind, Option.bind_some]
    split
    · rfl
    · next hnew =>
      rw [henter.value hd h hid hentry (by simpa using hnew) after]
      rfl

theorem storeAll?_eq (henter : EntersAlike wanted reserved n enter? enter) (hd : d.unseen d.stored ≤ n)
    {ids : List SharedId} (h : d.Serves wanted reserved (.stores ids after) used) :
    d.storeAll? enter? used after ids = some (d.storeAll enter used after ids) := by
  induction ids generalizing d with
  | nil => rfl
  | cons id rest ih =>
    have hfirst : d.storeShared? enter? id used after = some (d.storeShared enter id used after) := by
      unfold storeShared? storeShared
      cases hentry : d.shared[id]? with
      | none => rfl
      | some entry =>
        obtain ⟨slot, hslot⟩ := h.stocked.slots id entry (h.roots id List.mem_cons_self) hentry
        simp only [hslot, slotOf_eq hslot, Option.bind_eq_bind, Option.bind_some]
        split
        · rfl
        · next hnew =>
          rw [henter.value hd h List.mem_cons_self hentry (by simpa using hnew) after]
          rfl
    -- storing the first reserves nothing, so the others find their slots as before
    have hbuilt : (d.storeAll enter used after [id]).IsBuilt (.stores [id] after) used d :=
      isBuilt_storeAll henter.built used after [id] hd
    have hone : d.Serves wanted reserved (.stores [id] after) used :=
      h.of_advances (.refl d) (by simp [Job.roots]) (List.Subset.refl _)
    have hadvances : d.Advances (d.storeShared enter id used after).draft := hone.advances hbuilt
    have hrest : (d.storeShared enter id used after).draft.Serves wanted reserved (.stores rest after) used :=
      h.of_advances hadvances (List.subset_cons_self _ _) (List.Subset.refl _)
    have hothers := ih (hadvances.unseen_le.trans hd) hrest
    simp only [storeAll?, hfirst, Option.bind_eq_bind, Option.bind_some, hothers]
    rfl

end Draft

namespace Code

open Draft

variable {wanted : SharedId → Prop} {reserved n : Nat} {enter? : EnterReserved} {enter : Enter}

/-- A loop takes two slots that are not reserved, and the next two labels. -/
theorem emitReserved?_loop {times body : Code} {used : Nat} {after : List Code} {d : Draft} {t h b : Emission}
    (hused : reserved ≤ used) (ht : times.emitReserved? reserved enter? used (body :: after) d = some t)
    (hh : (t.draft.enterLoop used).storeAll? enter? (t.draft.enterLoop used).nextSlot (body :: after)
      ((t.draft.enterLoop used).toHoist [body] after) = some h)
    (hb : body.emitReserved? reserved enter? (t.draft.enterLoop used).nextSlot after h.draft = some b) :
    (Code.loop times body).emitReserved? reserved enter? used after d =
      some ⟨t.block ++ .ops (loopStart (max used t.draft.nextSlot)) ++ h.block ++
        .ops (loopTest (max used t.draft.nextSlot) t.draft.nextLabel) ++ b.block ++
        .ops (loopEnd (max used t.draft.nextSlot) t.draft.nextLabel), b.draft.restoreMarks h.draft.stored⟩ := by
  have hlimit : reserved ≤ max used t.draft.nextSlot + 1 := by omega
  simp only [emitReserved?, ht, tempSlot?_eq hused, tempSlot, Option.bind_eq_bind, Option.bind_some, tempSlot?_eq hlimit,
    Nat.max_self, freshLabel]
  simp only [enterLoop] at hh hb
  simp only [hh, hb, Option.bind_some]
  rfl

theorem emitReserved?_branch {condition yes no : Code} {used : Nat} {after : List Code} {d : Draft}
    {c h y n : Emission} (hc : condition.emitReserved? reserved enter? used (yes :: no :: after) d = some c)
    (hh : c.draft.storeAll? enter? used (yes :: no :: after) (c.draft.toHoist [yes, no] after) = some h)
    (hy : yes.emitReserved? reserved enter? used after h.draft.beginBranch = some y)
    (hn : no.emitReserved? reserved enter? used after (y.draft.restoreMarks h.draft.stored) = some n) :
    (Code.branch condition yes no).emitReserved? reserved enter? used after d =
      some ⟨c.block ++ h.block ++ .ops [.jumpUnless h.draft.nextLabel] ++ y.block ++
        .ops [.jump (h.draft.nextLabel + 1), .label h.draft.nextLabel] ++ n.block ++
        .ops [.label (h.draft.nextLabel + 1)], n.draft.restoreMarks h.draft.stored⟩ := by
  simp only [beginBranch] at hy
  simp only [emitReserved?, hc, hh, Option.bind_eq_bind, Option.bind_some, freshLabel, hy, hn]
  rfl

theorem emitReserved?_eq (henter : EntersAlike wanted reserved n enter? enter) {c : Code} {d : Draft}
    (hd : d.unseen d.stored ≤ n) {used : Nat} {after : List Code} (h : d.Serves wanted reserved (.code c after) used) :
    c.emitReserved? reserved enter? used after d = some (c.emitWith enter used after d) := by
  induction c generalizing d used after with
  | op o ty => rfl
  | done ty => rfl
  | raw ty ops => rfl
  | andThen first rest ihf ihr =>
    have hfirst : d.Serves wanted reserved (.code first (rest :: after)) used :=
      h.of_advances (.refl d) (List.subset_append_left _ _) (List.subset_append_left _ _)
    have hadvances := hfirst.advances (isBuilt_emitWith henter.built first hd used (rest :: after))
    have hrest : (first.emitWith enter used (rest :: after) d).draft.Serves wanted reserved (.code rest after) used :=
      h.of_advances hadvances (List.subset_append_right _ _) (List.subset_append_right _ _)
    simp only [emitReserved?, ihf hd hfirst, ihr (hadvances.unseen_le.trans hd) hrest, Option.bind_eq_bind,
      Option.bind_some]
    rfl
  | shared id ty => exact emitShared?_eq henter hd h
  | getVariable name =>
    obtain ⟨slot, hslot⟩ := h.names name List.mem_cons_self
    simp only [emitReserved?, emitWith, hslot, variableSlot_of_some hslot]
    rfl
  | setVariable name value ih =>
    have hvalue : d.Serves wanted reserved (.code value after) used :=
      h.of_advances (.refl d) (List.Subset.refl _) (List.subset_cons_self _ _)
    have hadvances := hvalue.advances (isBuilt_emitWith henter.built value hd used after)
    obtain ⟨slot, hslot⟩ := hadvances.named.mpr (h.names name List.mem_cons_self)
    simp only [emitReserved?, emitWith, ih hd hvalue, Option.bind_eq_bind, Option.bind_some, hslot,
      variableSlot_of_some hslot]
    rfl
  | loop times body iht ihb =>
    have htimes : d.Serves wanted reserved (.code times (body :: after)) used :=
      h.of_advances (.refl d) (List.subset_append_left _ _) (List.subset_append_left _ _)
    have hadvances := htimes.advances (isBuilt_emitWith henter.built times hd used (body :: after))
    generalize ht : times.emitWith enter used (body :: after) d = t at hadvances
    -- behind the count come two slots, then what the body shares with the code after it
    have hinner : t.draft.Serves wanted reserved (.code body after) used :=
      h.of_advances hadvances (List.subset_append_right _ _) (List.subset_append_right _ _)
    have hunseen : (t.draft.enterLoop used).unseen (t.draft.enterLoop used).stored ≤ n := hadvances.unseen_le.trans hd
    have hahead := hinner.enterLoop.ahead [body] after (body :: after) (by simp [Job.roots])
    have hadvances' := hahead.advances (isBuilt_storeAll henter.built _ (body :: after) _ hunseen)
    rw [emitReserved?_loop h.reserved (ht ▸ iht hd htimes) (storeAll?_eq henter hunseen hahead)
      (ihb (hadvances'.unseen_le.trans hunseen) (hinner.enterLoop.later hadvances')),
      emitWith_enterLoop enter times body used after d ht rfl rfl]
  | branch condition yes no ihc ihy ihn =>
    have hcondition : d.Serves wanted reserved (.code condition (yes :: no :: after)) used :=
      h.of_advances (.refl d) (by simp [Job.roots, mentions]) (by simp [Job.names, names])
    have hadvances := hcondition.advances (isBuilt_emitWith henter.built condition hd used (yes :: no :: after))
    generalize hc : condition.emitWith enter used (yes :: no :: after) d = c at hadvances
    have hunseen := hadvances.unseen_le.trans hd
    -- what the arms share is stored ahead of both
    have hahead := (h.later hadvances).ahead [yes, no] after (yes :: no :: after) (by simp [Job.roots, mentions])
    have hadvances' := hadvances.trans (hahead.advances (isBuilt_storeAll henter.built used (yes :: no :: after) _ hunseen))
    generalize hs : c.draft.storeAll enter used (yes :: no :: after) (c.draft.toHoist [yes, no] after) = s at hadvances'
    have hbegin := hadvances'.trans s.draft.advances_beginBranch
    have hyes : s.draft.beginBranch.Serves wanted reserved (.code yes after) used :=
      h.of_advances hbegin (by simp [Job.roots, mentions]) (by simp [Job.names, names])
    have hadvancesYes := hyes.advances (isBuilt_emitWith henter.built yes (hbegin.unseen_le.trans hd) used after)
    generalize hy : yes.emitWith enter used after s.draft.beginBranch = y at hadvancesYes
    -- the second arm starts with the marks from before the first one
    have hmiddle := hadvances'.trans (s.draft.advances_beginBranch.trans hadvancesYes).restore
    have hno : (y.draft.restoreMarks s.draft.stored).Serves wanted reserved (.code no after) used :=
      h.of_advances hmiddle (by simp [Job.roots, mentions]) (by simp [Job.names, names])
    rw [emitReserved?_branch (hc ▸ ihc hd hcondition) (hs ▸ storeAll?_eq henter hunseen hahead)
      (hy ▸ ihy (hbegin.unseen_le.trans hd) hyes) (ihn (hmiddle.unseen_le.trans hd) hno),
      emitWith_branch enter condition yes no used after d hc hs hy rfl]

end Code

namespace Draft

/-- Depth for as many computations as are not stored is depth enough. -/
theorem emitReservedNested?_eq {wanted : SharedId → Prop} {reserved n : Nat} {c : Code} {d : Draft}
    (hd : d.unseen d.stored ≤ n) {used : Nat} {after : List Code} (h : d.Serves wanted reserved (.code c after) used) :
    emitReservedNested? reserved n c used after d = some (emitNested n c used after d) := by
  induction n generalizing c d used after with
  | zero =>
    have halike : EntersAlike wanted reserved 0 (fun _ _ _ _ => none) fun _ _ _ d => ⟨.ops [], d⟩ :=
      ⟨fun _ _ _ _ hlt => absurd hlt (Nat.not_lt_zero _), fun _ _ _ _ hlt => absurd hlt (Nat.not_lt_zero _)⟩
    exact Code.emitReserved?_eq halike hd h
  | succ n ih =>
    -- a computation counts as stored when it is entered, so one less is left
    have halike : EntersAlike wanted reserved (n + 1) (emitReservedNested? reserved n) (emitNested n) :=
      ⟨entersBuilt_emitNested n, fun c used after d hlt h => ih (Nat.le_of_lt_succ hlt) h⟩
    exact Code.emitReserved?_eq halike hd h

/-- Reserving serves the code for which it is done. -/
theorem Fresh.serves {d : Draft} (hd : d.Fresh) (body : Code) :
    (d.prepare body).Serves (d.Reaches body) (d.prepare body).nextSlot (.code body []) (d.prepare body).nextSlot where
  stocked := hd.stocked body
  roots _ hid := .mention hid
  names := (d.searchedFor_prepare body).holds.names
  reserved := Nat.le_refl _
  used := Nat.le_refl _

/-- A second walk reserves nothing more, and code is laid out with what the
    first one has reserved: each variable and each computation that is there
    has its slot, and temporaries lie behind. -/
theorem finish_reserved {d : Draft} (hd : Grows {} d) (body : Code) :
    (d.prepare body).prepare body = d.prepare body ∧
    (d.prepare body).emitReserved? body (d.prepare body).nextSlot = some (d.layout body) ∧
    d.finishReserved? body = some (d.finish body) ∧
    (d.layout body).draft.variableSlots = (d.prepare body).variableSlots ∧
    (d.layout body).draft.shared = (d.prepare body).shared := by
  have hserves := (hd.fresh fresh_empty).serves body
  -- there is depth for all computations
  have hunseen : (d.prepare body).unseen (d.prepare body).stored ≤ (d.prepare body).shared.length :=
    (Finset.card_filter_le _ _).trans_eq (Finset.card_range _)
  have hemit : (d.prepare body).emitReserved? body (d.prepare body).nextSlot = some (d.layout body) :=
    emitReservedNested?_eq hunseen hserves
  have hadvances := hserves.advances (isBuilt_emit (d.prepare body) body (d.prepare body).nextSlot)
  refine ⟨prepare_prepare d body, hemit, ?_, hadvances.variableSlots, hadvances.shared⟩
  simp only [finishReserved?, hemit, Option.bind_eq_bind, Option.bind_some]
  rfl

/-- Two computations that need one another, and a third one that is not there. -/
theorem finish_reserved_entangled :
    Grows {} entangled ∧ (entangled.prepare entangling).nextSlot = 3 ∧
      (entangled.prepare entangling).prepare entangling = entangled.prepare entangling ∧
      (entangled.prepare entangling).emitReserved? entangling 3 = some (entangled.layout entangling) ∧
      entangled.finishReserved? entangling = some (entangled.finish entangling) ∧
      (entangled.layout entangling).draft.variableSlots = [("turns", 2)] ∧
      (entangled.layout entangling).draft.shared = (entangled.prepare entangling).shared := by
  have hgrows : Grows {} entangled := .share _ _ _ (.share _ _ _ .refl)
  obtain ⟨hagain, hemit, hfinish, hvariables, hshared⟩ := finish_reserved hgrows entangling
  exact ⟨hgrows, rfl, hagain, hemit, hfinish, hvariables, hshared⟩

end Draft

end FlowGraph
