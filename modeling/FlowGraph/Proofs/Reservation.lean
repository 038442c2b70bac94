import FlowGraph.Draft.Finish
import FlowGraph.Proofs.Shape

/-! # Reserved slots

    Before code is laid out every variable that it names, and every shared
    computation, has a slot of its own, and the slots are numbered without
    gaps (`Draft.Complete.prepared`).

    Reserving changes nothing but slots (`Draft.Reserves`), and a slot that
    was given is never taken back. Entering the computation of a value when
    it gets its slot is a search in depth, so in the end all that is needed
    has been entered.
-/

namespace FlowGraph

namespace Draft

/-! ## Slots that are taken -/

/-- The shared computation has a slot. -/
def Slotted (d : Draft) (id : SharedId) : Prop :=
  ∃ entry slot, d.shared[id]? = some entry ∧ entry.slot = some slot

/-- The variable has a slot. -/
def Named (d : Draft) (name : String) : Prop := ∃ slot, d.variableSlots.lookup name = some slot

/-- All that the code names has a slot, except for computations that the draft
    does not know. -/
structure Holds (d : Draft) (c : Code) : Prop where
  mentions : ∀ id ∈ c.mentions, id < d.shared.length → d.Slotted id
  names : ∀ name ∈ c.names, d.Named name

/-- The slots that are taken are numbered from zero. -/
def Packed (d : Draft) : Prop := (d.initials.map Initial.slot).Perm (List.range d.nextSlot)

/-- A computation that is shared, without its slot. -/
def bare (entry : Shared) : Shared := { entry with slot := none }

/-- The draft with a slot for one more variable. -/
def addVariable (d : Draft) (name : String) : Draft :=
  { d with nextSlot := d.nextSlot + 1, variableSlots := (name, d.nextSlot) :: d.variableSlots }

/-- What reserving slots for code does to a draft. -/
inductive Reserves (d : Draft) : Draft → Prop
  | refl : Reserves d d
  | var {d' name} : Reserves d d' → d'.variableSlots.lookup name = none →
    Reserves d (d'.addVariable name)
  | shared {d' id} {entry : Shared} : Reserves d d' → d'.shared[id]? = some entry →
    entry.slot = none → Reserves d (d'.giveSlot id)

theorem Reserves.trans {d d' d'' : Draft} (h : Reserves d d') (h' : Reserves d' d'') :
    Reserves d d'' := by
  induction h' with
  | refl => exact h
  | var _ hnone ih => exact ih.var hnone
  | shared _ hentry hslot ih => exact ih.shared hentry hslot

/-! ## One step -/

theorem variableSlot_of_some {d : Draft} {name : String} {slot : Nat}
    (h : d.variableSlots.lookup name = some slot) : d.variableSlot name = (slot, d) := by
  simp [variableSlot, h]

theorem variableSlot_of_none {d : Draft} {name : String} (h : d.variableSlots.lookup name = none) :
    d.variableSlot name = (d.nextSlot, d.addVariable name) := by
  simp [variableSlot, h, addVariable]

theorem reserves_variableSlot (d : Draft) (name : String) :
    d.Reserves (d.variableSlot name).2 ∧ (d.variableSlot name).2.Named name := by
  cases h : d.variableSlots.lookup name with
  | some slot =>
    rw [variableSlot_of_some h]
    exact ⟨.refl, slot, h⟩
  | none =>
    rw [variableSlot_of_none h]
    exact ⟨.var .refl h, d.nextSlot, by simp [addVariable]⟩

theorem giveSlot_getElem? (d : Draft) (id id' : SharedId) :
    (d.giveSlot id).shared[id']? =
      if id = id' then d.shared[id']?.map fun entry => { entry with slot := some d.nextSlot }
      else d.shared[id']? := by
  simp only [giveSlot, List.getElem?_modify]
  split
  · rfl
  · simp

theorem slotted_giveSlot {d : Draft} {id : SharedId} {entry : Shared}
    (h : d.shared[id]? = some entry) : (d.giveSlot id).Slotted id := by
  refine ⟨{ entry with slot := some d.nextSlot }, d.nextSlot, ?_, rfl⟩
  simp [giveSlot_getElem?, h]

/-- One more computation has a slot. -/
theorem slotted_of_giveSlot {d : Draft} {id id' : SharedId} (h : (d.giveSlot id).Slotted id') :
    id' = id ∨ d.Slotted id' := by
  obtain ⟨entry, slot, hentry, hslot⟩ := h
  rw [giveSlot_getElem?] at hentry
  split at hentry
  · next heq => exact .inl heq.symm
  · exact .inr ⟨entry, slot, hentry, hslot⟩

/-! ## What reserving keeps -/

/-- Nothing but slots changes. -/
theorem Reserves.bare_eq {d d' : Draft} (h : Reserves d d') :
    d'.shared.map bare = d.shared.map bare := by
  induction h with
  | refl => rfl
  | var _ _ ih => exact ih
  | @shared d' id entry _ _ _ ih =>
    rw [← ih]
    apply List.ext_getElem?
    intro i
    simp only [List.getElem?_map, giveSlot_getElem?]
    split
    · cases d'.shared[i]? <;> rfl
    · rfl

theorem Reserves.getElem? {d d' : Draft} (h : Reserves d d') {id : SharedId} {entry' : Shared}
    (hentry' : d'.shared[id]? = some entry') :
    ∃ entry, d.shared[id]? = some entry ∧ entry'.value = entry.value ∧ entry'.ty = entry.ty ∧
      entry'.default = entry.default := by
  have heq : d'.shared[id]?.map bare = d.shared[id]?.map bare := by
    rw [← List.getElem?_map, ← List.getElem?_map, h.bare_eq]
  rw [hentry'] at heq
  obtain ⟨entry, hentry, hbare⟩ := Option.map_eq_some_iff.mp heq.symm
  simp only [bare, Shared.mk.injEq, and_true] at hbare
  exact ⟨entry, hentry, hbare.1.symm, hbare.2.1.symm, hbare.2.2.symm⟩

theorem Reserves.types_eq {d d' : Draft} (h : Reserves d d') : d'.types = d.types := by
  have heq := congrArg (List.map Shared.ty) h.bare_eq
  rwa [List.map_map, List.map_map] at heq

theorem Reserves.ordered {d d' : Draft} (h : Reserves d d') (hd : d.Ordered) : d'.Ordered := by
  intro id entry' hentry'
  obtain ⟨entry, hentry, hvalue, -⟩ := h.getElem? hentry'
  rw [hvalue, h.types_eq]
  exact hd id entry hentry

theorem Reserves.stored_eq {d d' : Draft} (h : Reserves d d') : d'.stored = d.stored := by
  induction h with
  | refl => rfl
  | var _ _ ih => exact ih
  | shared _ _ _ ih => exact ih

theorem Reserves.nextLabel_eq {d d' : Draft} (h : Reserves d d') : d'.nextLabel = d.nextLabel := by
  induction h with
  | refl => rfl
  | var _ _ ih => exact ih
  | shared _ _ _ ih => exact ih

theorem Reserves.slotted {d d' : Draft} (h : Reserves d d') {id : SharedId} (hid : d.Slotted id) :
    d'.Slotted id := by
  induction h with
  | refl => exact hid
  | var _ _ ih => exact ih
  | @shared d' id' entry' _ hentry' hslot' ih =>
    obtain ⟨entry, slot, hentry, hslot⟩ := ih
    refine ⟨entry, slot, ?_, hslot⟩
    rw [giveSlot_getElem?, if_neg, hentry]
    rintro rfl
    rw [hentry'] at hentry
    cases hentry
    rw [hslot'] at hslot
    cases hslot

theorem Reserves.named {d d' : Draft} (h : Reserves d d') {name : String} (hname : d.Named name) :
    d'.Named name := by
  induction h with
  | refl => exact hname
  | @var d' name' _ hnone ih =>
    obtain ⟨slot, hslot⟩ := ih
    have hne : name ≠ name' := by
      rintro rfl
      rw [hnone] at hslot
      cases hslot
    refine ⟨slot, ?_⟩
    rw [addVariable, List.lookup_cons, beq_false_of_ne hne]
    exact hslot
  | shared _ _ _ ih => exact ih

/-- A variable gets one slot. -/
theorem Reserves.nodup_names {d d' : Draft} (h : Reserves d d') (hd : (d.variableSlots.map Prod.fst).Nodup) :
    (d'.variableSlots.map Prod.fst).Nodup := by
  induction h with
  | refl => exact hd
  | @var d' name _ hnone ih =>
    refine List.nodup_cons.mpr ⟨fun hmem => ?_, ih⟩
    obtain ⟨x, hx, rfl⟩ := List.mem_map.mp hmem
    simpa using List.lookup_eq_none_iff.mp hnone x hx
  | shared _ _ _ ih => exact ih

theorem named_of_mem {d : Draft} {x : String × Nat} (h : x ∈ d.variableSlots) : d.Named x.1 := by
  cases hlookup : d.variableSlots.lookup x.1 with
  | some slot => exact ⟨slot, hlookup⟩
  | none => simpa using List.lookup_eq_none_iff.mp hlookup x h

theorem Reserves.length_eq {d d' : Draft} (h : Reserves d d') : d'.shared.length = d.shared.length := by
  simpa using congrArg List.length h.bare_eq

theorem Holds.of_reserves {d d' : Draft} {c : Code} (h : d.Holds c) (hd : Reserves d d') :
    d'.Holds c :=
  ⟨fun id hid hlt => hd.slotted (h.mentions id hid (hd.length_eq ▸ hlt)),
    fun name hname => hd.named (h.names name hname)⟩

/-! ## Slots without gaps -/

theorem initials_slots (d : Draft) :
    d.initials.map Initial.slot =
      (d.variableSlots.map Prod.snd).reverse ++ d.shared.filterMap Shared.slot := by
  simp only [initials, List.map_append, List.map_reverse, List.map_map, List.map_filterMap,
    Option.map_map]
  congr 2
  funext entry
  cases entry.slot <;> rfl

theorem filterMap_slot_modify (n : Nat) {shared : List Shared} {id : SharedId} {entry : Shared}
    (hentry : shared[id]? = some entry) (hslot : entry.slot = none) :
    ((shared.modify id fun entry => { entry with slot := some n }).filterMap Shared.slot).Perm
      (n :: shared.filterMap Shared.slot) := by
  induction shared generalizing id with
  | nil => cases hentry
  | cons head rest ih =>
    cases id with
    | zero =>
      cases hentry
      simp [hslot]
    | succ id =>
      have hrest := ih hentry
      rw [List.modify_succ_cons, List.filterMap_cons, List.filterMap_cons]
      cases head.slot with
      | none => exact hrest
      | some slot => exact (hrest.cons slot).trans (List.Perm.swap _ _ _)

/-- The next slot is the one after all that are taken. -/
theorem Packed.of_perm {d d' : Draft} (h : d.Packed) (hnext : d'.nextSlot = d.nextSlot + 1)
    (hslots : (d'.initials.map Initial.slot).Perm (d.nextSlot :: d.initials.map Initial.slot)) :
    d'.Packed := by
  unfold Packed
  rw [hnext, List.range_succ]
  exact hslots.trans ((h.cons _).trans (List.perm_append_singleton _ _).symm)

theorem Reserves.packed {d d' : Draft} (h : Reserves d d') (hd : d.Packed) : d'.Packed := by
  induction h with
  | refl => exact hd
  | var _ _ ih =>
    refine ih.of_perm rfl ?_
    rw [initials_slots, initials_slots]
    simp only [addVariable, List.map_cons, List.reverse_cons, List.append_assoc]
    exact List.perm_middle
  | @shared d' id _ _ hentry hslot ih =>
    refine ih.of_perm rfl ?_
    rw [initials_slots, initials_slots]
    exact ((filterMap_slot_modify d'.nextSlot hentry hslot).append_left _).trans List.perm_middle

end Draft

/-! ## The search -/

namespace Draft

/-- Which computations are needed does not depend on slots. -/
theorem Reaches.of_bare_eq {d d' : Draft} (h : d'.shared.map bare = d.shared.map bare) {c : Code}
    {id : SharedId} (hid : d.Reaches c id) : d'.Reaches c id := by
  induction hid with
  | mention hid => exact .mention hid
  | @through id id' entry _ hentry hid ih =>
    have heq : d'.shared[id']?.map bare = some (bare entry) := by
      rw [← List.getElem?_map, h, List.getElem?_map, hentry, Option.map_some]
    obtain ⟨entry', hentry', hbare⟩ := Option.map_eq_some_iff.mp heq
    have hvalue : (bare entry').value = (bare entry).value := by rw [hbare]
    exact .through ih hentry' (hvalue ▸ hid)

theorem Reserves.reaches_iff {d d' : Draft} (h : Reserves d d') {c : Code} {id : SharedId} :
    d'.Reaches c id ↔ d.Reaches c id :=
  ⟨.of_bare_eq h.bare_eq.symm, .of_bare_eq h.bare_eq⟩

/-- The code names the variable, itself or in a computation that it needs. -/
def Names (d : Draft) (c : Code) (name : String) : Prop :=
  name ∈ c.names ∨ ∃ (id : SharedId) (entry : Shared),
    d.Reaches c id ∧ d.shared[id]? = some entry ∧ name ∈ entry.value.names

theorem Names.of_code {d : Draft} {c c' : Code} (hnames : ∀ name ∈ c.names, d.Names c' name)
    (hmentions : ∀ id ∈ c.mentions, d.Reaches c' id) {name : String} (h : d.Names c name) :
    d.Names c' name := by
  rcases h with hname | ⟨id, entry, hid, hentry, hname⟩
  · exact hnames name hname
  · exact .inr ⟨id, entry, hid.of_mentions hmentions, hentry, hname⟩

theorem Reserves.names {d d' : Draft} (h : Reserves d d') {c : Code} {name : String}
    (hname : d'.Names c name) : d.Names c name := by
  rcases hname with hname | ⟨id, entry', hid, hentry', hname⟩
  · exact .inl hname
  · obtain ⟨entry, hentry, hvalue, -⟩ := h.getElem? hentry'
    exact .inr ⟨id, entry, h.reaches_iff.mp hid, hentry, hvalue ▸ hname⟩

/-- What got a slot on the way has been searched. -/
def Searched (d d' : Draft) : Prop :=
  ∀ id entry, d'.shared[id]? = some entry → d'.Slotted id → d.Slotted id ∨ d'.Holds entry.value

theorem Searched.refl (d : Draft) : d.Searched d := fun _ _ _ h => .inl h

theorem Searched.trans {d₁ d₂ d₃ : Draft} (h₁ : d₁.Searched d₂) (hd : d₂.Reserves d₃)
    (h₂ : d₂.Searched d₃) : d₁.Searched d₃ := by
  intro id entry hentry hslotted
  rcases h₂ id entry hentry hslotted with hslotted | hholds
  · obtain ⟨entry₂, hentry₂, hvalue, -⟩ := hd.getElem? hentry
    rw [hvalue]
    exact (h₁ id entry₂ hentry₂ hslotted).imp_right fun h => h.of_reserves hd
  · exact .inr hholds

theorem variableSlot_slotted {d : Draft} {name : String} {id : SharedId}
    (h : (d.variableSlot name).2.Slotted id) : d.Slotted id := by
  cases hlookup : d.variableSlots.lookup name with
  | some slot => rwa [variableSlot_of_some hlookup] at h
  | none => rwa [variableSlot_of_none hlookup] at h

theorem named_of_variableSlot {d : Draft} {name name' : String}
    (h : (d.variableSlot name).2.Named name') : d.Named name' ∨ name' = name := by
  cases hlookup : d.variableSlots.lookup name with
  | some slot =>
    rw [variableSlot_of_some hlookup] at h
    exact .inl h
  | none =>
    rw [variableSlot_of_none hlookup] at h
    obtain ⟨slot, hslot⟩ := h
    rw [addVariable, List.lookup_cons] at hslot
    split at hslot
    · next heq => exact .inr (beq_iff_eq.mp heq)
    · exact .inl ⟨slot, hslot⟩

theorem holds_of_nil {d : Draft} {c : Code} (hmentions : c.mentions = []) (hnames : c.names = []) :
    d.Holds c :=
  ⟨by simp [hmentions], by simp [hnames]⟩

/-- All that the code names has a slot after the search, and so has all that
    is needed for what got a slot. Nothing else has got one. -/
structure SearchedFor (d d' : Draft) (c : Code) : Prop where
  reserves : d.Reserves d'
  holds : d'.Holds c
  searched : d.Searched d'
  slotted : ∀ id, d'.Slotted id → d.Slotted id ∨ d.Reaches c id
  named : ∀ name, d'.Named name → d.Named name ∨ d.Names c name

theorem SearchedFor.refl {d : Draft} {c : Code} (h : d.Holds c) : SearchedFor d d c :=
  ⟨.refl, h, .refl d, fun _ h => .inl h, fun _ h => .inl h⟩

/-- It matters only what the code names. -/
theorem SearchedFor.congr {d d' : Draft} {c c' : Code} (h : SearchedFor d d' c)
    (hmentions : c'.mentions = c.mentions) (hnames : c'.names = c.names) : SearchedFor d d' c' where
  reserves := h.reserves
  holds := ⟨hmentions ▸ h.holds.mentions, hnames ▸ h.holds.names⟩
  searched := h.searched
  slotted id hid := (h.slotted id hid).imp_right fun hreaches =>
    hreaches.of_mentions fun _ hid => .mention (hmentions ▸ hid)
  named name hname := (h.named name hname).imp_right fun hnamed =>
    hnamed.of_code (fun _ hname => .inl (hnames ▸ hname)) fun _ hid => .mention (hmentions ▸ hid)

theorem SearchedFor.andThen {d₁ d₂ d₃ : Draft} {first rest : Code} (hf : SearchedFor d₁ d₂ first)
    (hr : SearchedFor d₂ d₃ rest) : SearchedFor d₁ d₃ (.andThen first rest) where
  reserves := hf.reserves.trans hr.reserves
  holds := by
    have hf' := hf.holds.of_reserves hr.reserves
    exact ⟨fun id hid => (List.mem_append.mp hid).elim (hf'.mentions id) (hr.holds.mentions id),
      fun name hname => (List.mem_append.mp hname).elim (hf'.names name) (hr.holds.names name)⟩
  searched := hf.searched.trans hr.reserves hr.searched
  slotted id hid := by
    rcases hr.slotted id hid with hslotted | hreaches
    · exact (hf.slotted id hslotted).imp_right fun hreaches =>
        hreaches.of_mentions fun id hid => .mention (List.mem_append_left _ hid)
    · refine .inr ((hf.reserves.reaches_iff.mp hreaches).of_mentions fun id hid => ?_)
      exact .mention (List.mem_append_right _ hid)
  named name hname := by
    rcases hr.named name hname with hnamed | hnames
    · exact (hf.named name hnamed).imp_right fun hnames =>
        hnames.of_code (fun name hname => .inl (List.mem_append_left _ hname))
          fun id hid => .mention (List.mem_append_left _ hid)
    · exact .inr ((hf.reserves.names hnames).of_code
        (fun name hname => .inl (List.mem_append_right _ hname))
        fun id hid => .mention (List.mem_append_right _ hid))

/-- A variable gets its slot. -/
theorem searchedFor_variable (d : Draft) (name : String) :
    SearchedFor d (d.variableSlot name).2 (.getVariable name) where
  reserves := (reserves_variableSlot d name).1
  holds := by
    refine ⟨by simp [Code.mentions], fun other hother => ?_⟩
    obtain rfl := List.mem_singleton.mp hother
    exact (reserves_variableSlot d other).2
  searched _ _ _ hslotted := .inl (variableSlot_slotted hslotted)
  slotted _ hslotted := .inl (variableSlot_slotted hslotted)
  named other hnamed := by
    refine (named_of_variableSlot hnamed).imp_right fun heq => .inl ?_
    rw [heq]
    exact List.mem_singleton.mpr rfl

/-- A computation gets its slot before it is searched. -/
theorem SearchedFor.shared {d d' : Draft} {id : SharedId} {entry : Shared} {ty : Ty}
    (hentry : d.shared[id]? = some entry) (hslot : entry.slot = none)
    (h : SearchedFor (d.giveSlot id) d' entry.value) : SearchedFor d d' (.shared id ty) := by
  have hgive : d.Reserves (d.giveSlot id) := .shared .refl hentry hslot
  have hself : d.Reaches (.shared id ty) id := .mention (List.mem_singleton.mpr rfl)
  have hvalue : ∀ other ∈ entry.value.mentions, d.Reaches (.shared id ty) other := fun other hother =>
    .through hself hentry hother
  refine ⟨hgive.trans h.reserves, ⟨fun other hother _ => ?_, by simp [Code.names]⟩, ?_, ?_, ?_⟩
  · obtain rfl := List.mem_singleton.mp hother
    exact h.reserves.slotted (slotted_giveSlot hentry)
  · intro other entry' hentry' hslotted
    rcases h.searched other entry' hentry' hslotted with hslotted | hholds
    · rcases slotted_of_giveSlot hslotted with rfl | hslotted
      · -- the computation itself: its value is the one that was searched
        obtain ⟨entry₂, hentry₂, heq, -⟩ := (hgive.trans h.reserves).getElem? hentry'
        obtain rfl : entry₂ = entry := by simpa [hentry₂] using hentry
        rw [heq]
        exact .inr h.holds
      · exact .inl hslotted
    · exact .inr hholds
  · intro other hslotted
    rcases h.slotted other hslotted with hslotted | hreaches
    · rcases slotted_of_giveSlot hslotted with rfl | hslotted
      · exact .inr hself
      · exact .inl hslotted
    · exact .inr ((hgive.reaches_iff.mp hreaches).of_mentions hvalue)
  · intro name hnamed
    refine (h.named name hnamed).imp_right fun hnames => (hgive.names hnames).of_code ?_ hvalue
    exact fun name hname => .inr ⟨id, entry, hself, hentry, hname⟩

/-- The number of shared computations that have no slot. -/
def unslotted (d : Draft) : Nat := d.shared.countP (·.slot.isNone)

theorem unslotted_giveSlot_lt {d : Draft} {id : SharedId} {entry : Shared}
    (hentry : d.shared[id]? = some entry) (hslot : entry.slot = none) :
    (d.giveSlot id).unslotted < d.unslotted := by
  obtain ⟨hlt, rfl⟩ := List.getElem?_eq_some_iff.mp hentry
  have hsplit : d.shared = d.shared.take id ++ d.shared[id] :: d.shared.drop (id + 1) := by simp
  unfold unslotted giveSlot
  rw [List.modify_eq_take_cons_drop hlt]
  conv_rhs => rw [hsplit]
  simp only [List.countP_append, List.countP_cons, hslot]
  simp

theorem Reserves.unslotted_le {d d' : Draft} (h : Reserves d d') : d'.unslotted ≤ d.unslotted := by
  induction h with
  | refl => exact Nat.le_refl _
  | var _ _ ih => exact ih
  | shared _ hentry hslot ih => exact Nat.le_trans (Nat.le_of_lt (unslotted_giveSlot_lt hentry hslot)) ih

end Draft

namespace Code

open Draft

/-- The walk that reserves slots for a piece of code, from one draft to the
    next. A computation is walked through when it gets its slot, however deep
    this leads. -/
inductive Prepares : Code → Draft → Draft → Prop
  | op {o ty d} : Prepares (.op o ty) d d
  | done {ty d} : Prepares (.done ty) d d
  | andThen {first rest d d₁ d₂} : Prepares first d d₁ → Prepares rest d₁ d₂ →
    Prepares (.andThen first rest) d d₂
  | raw {ty ops d} : Prepares (.raw ty ops) d d
  | unknown {id ty} {d : Draft} : d.shared[id]? = none → Prepares (.shared id ty) d d
  | slotted {id ty} {d : Draft} {entry : Shared} {slot} : d.shared[id]? = some entry → entry.slot = some slot →
    Prepares (.shared id ty) d d
  | enter {id ty} {d : Draft} {entry : Shared} {d₁} : d.shared[id]? = some entry → entry.slot = none →
    Prepares entry.value (d.giveSlot id) d₁ → Prepares (.shared id ty) d d₁
  | getVariable {name} {d : Draft} : Prepares (.getVariable name) d (d.variableSlot name).2
  | setVariable {name value} {d d₁ : Draft} : Prepares value (d.variableSlot name).2 d₁ →
    Prepares (.setVariable name value) d d₁
  | loop {times body d d₁ d₂} : Prepares times d d₁ → Prepares body d₁ d₂ → Prepares (.loop times body) d d₂
  | branch {condition yes no d d₁ d₂ d₃} : Prepares condition d d₁ → Prepares yes d₁ d₂ → Prepares no d₂ d₃ →
    Prepares (.branch condition yes no) d d₃

theorem Prepares.searchedFor {c : Code} {d d' : Draft} (h : c.Prepares d d') : SearchedFor d d' c := by
  induction h with
  | op => exact .refl (holds_of_nil rfl rfl)
  | done => exact .refl (holds_of_nil rfl rfl)
  | andThen _ _ ihf ihr => exact ihf.andThen ihr
  | raw => exact .refl (holds_of_nil rfl rfl)
  | unknown hnone =>
    refine .refl ⟨fun other hother hlt => ?_, by simp [names]⟩
    obtain rfl := List.mem_singleton.mp hother
    exact absurd hlt (Nat.not_lt.mpr (List.getElem?_eq_none_iff.mp hnone))
  | slotted hentry hslot =>
    refine .refl ⟨fun other hother _ => ?_, by simp [names]⟩
    obtain rfl := List.mem_singleton.mp hother
    exact ⟨_, _, hentry, hslot⟩
  | enter hentry hslot _ ih => exact .shared hentry hslot ih
  | @getVariable name d => exact searchedFor_variable d name
  | @setVariable name _ d _ _ ih => exact ((searchedFor_variable d name).andThen ih).congr rfl rfl
  | loop _ _ iht ihb => exact (iht.andThen ihb).congr rfl rfl
  | branch _ _ _ ihc ihy ihn => exact ((ihc.andThen ihy).andThen ihn).congr rfl rfl

/-- `enter` has to walk through computations only while fewer than `n` have
    no slot. -/
theorem prepares_prepareWith {enter : Code → Draft → Draft} {n : Nat}
    (henter : ∀ (c : Code) (d : Draft), d.unslotted < n → c.Prepares d (enter c d)) (c : Code) {d : Draft}
    (hd : d.unslotted ≤ n) : c.Prepares d (c.prepareWith enter d) := by
  -- slots are only ever given, so every part leaves no more without one than it has found
  induction c generalizing d with
  | op o ty => exact .op
  | done ty => exact .done
  | raw ty ops => exact .raw
  | andThen first rest ihf ihr =>
    have hf := ihf hd
    exact .andThen hf (ihr (Nat.le_trans hf.searchedFor.reserves.unslotted_le hd))
  | shared id ty =>
    simp only [prepareWith]
    split
    · next value ty' default heq =>
      exact .enter heq rfl (henter _ _ (Nat.lt_of_lt_of_le (unslotted_giveSlot_lt heq rfl) hd))
    · next hne =>
      cases hentry : d.shared[id]? with
      | none => exact .unknown hentry
      | some entry =>
        cases hslot : entry.slot with
        | none => exact absurd (hentry.trans (by rw [← hslot])) (hne _ _ _)
        | some slot => exact .slotted hentry hslot
  | getVariable name => exact .getVariable
  | setVariable name value ih =>
    have hv := searchedFor_variable d name
    exact .setVariable (ih (Nat.le_trans hv.reserves.unslotted_le hd))
  | loop times body iht ihb =>
    have ht := iht hd
    exact .loop ht (ihb (Nat.le_trans ht.searchedFor.reserves.unslotted_le hd))
  | branch condition yes no ihc ihy ihn =>
    have hc := ihc hd
    have hyes := Nat.le_trans hc.searchedFor.reserves.unslotted_le hd
    have hy := ihy hyes
    exact .branch hc hy (ihn (Nat.le_trans hy.searchedFor.reserves.unslotted_le hyes))

end Code

namespace Draft

/-- As many may be open at once as have no slot. -/
theorem prepares_prepareNested {n : Nat} (c : Code) {d : Draft} (hd : d.unslotted ≤ n) :
    c.Prepares d (prepareNested n c d) := by
  induction n generalizing c d with
  | zero => exact Code.prepares_prepareWith (fun _ _ hlt => absurd hlt (Nat.not_lt_zero _)) c hd
  | succ n ih => exact Code.prepares_prepareWith (fun c _ hlt => ih c (Nat.le_of_lt_succ hlt)) c hd

theorem prepares_prepare (d : Draft) (c : Code) : c.Prepares d (d.prepare c) :=
  prepares_prepareNested c List.countP_le_length

theorem searchedFor_prepare (d : Draft) (c : Code) : SearchedFor d (d.prepare c) c :=
  (d.prepares_prepare c).searchedFor

/-- Reserving slots for code gives out slots and does nothing else. -/
theorem reserves_prepare (d : Draft) (c : Code) : d.Reserves (d.prepare c) := (d.searchedFor_prepare c).reserves

/-! ## After the search -/

/-- Every shared computation has a slot, and so has every variable that they
    name. -/
structure Reserved (d : Draft) : Prop where
  ordered : d.Ordered
  slots : ∀ (id : SharedId) (entry : Shared), d.shared[id]? = some entry →
    ∃ slot, entry.slot = some slot
  names : ∀ (id : SharedId) (entry : Shared), d.shared[id]? = some entry →
    ∀ name ∈ entry.value.names, d.Named name
  types : ∀ entry ∈ d.shared, entry.ty = entry.value.ty

/-- A draft in which code can be laid out. -/
structure Prepared (d : Draft) : Prop extends Reserved d where
  packed : d.Packed
  defaults : ∀ entry ∈ d.shared, (Value.ofConst entry.default).conforms entry.ty = true
  stored : d.stored = []

theorem Fresh.packed {d : Draft} (h : d.Fresh) : d.Packed := by
  have hslots : d.shared.filterMap Shared.slot = [] :=
    List.filterMap_eq_nil_iff.mpr fun entry hentry => (h.entries entry hentry).1
  unfold Packed
  rw [initials_slots, h.variableSlots, hslots, h.nextSlot]
  exact List.Perm.refl _

theorem Fresh.not_slotted {d : Draft} (h : d.Fresh) (id : SharedId) : ¬d.Slotted id := by
  rintro ⟨entry, slot, hentry, hslot⟩
  rw [(h.entries entry (List.mem_of_getElem? hentry)).1] at hslot
  cases hslot

/-- All that is needed has a slot once the code of the program is prepared. -/
theorem Fresh.slotted {d : Draft} (h : d.Fresh) {body : Code} {id : SharedId} (hid : d.Reaches body id)
    (hlt : id < d.shared.length) : (d.prepare body).Slotted id := by
  have hsearched := d.searchedFor_prepare body
  have hlength := hsearched.reserves.length_eq
  induction hid with
  | mention hid => exact hsearched.holds.mentions _ hid (hlength ▸ hlt)
  | @through id id' entry _ hentry hid ih =>
    obtain ⟨entry', slot, hentry', hslot⟩ := ih (List.getElem?_eq_some_iff.mp hentry).1
    rcases hsearched.searched id' entry' hentry' ⟨entry', slot, hentry', hslot⟩ with hslotted | hholds
    · exact absurd hslotted (h.not_slotted id')
    · obtain ⟨entry₂, hentry₂, hvalue, -⟩ := hsearched.reserves.getElem? hentry'
      obtain rfl : entry₂ = entry := by simpa [hentry₂] using hentry
      exact hholds.mentions id (hvalue ▸ hid) (hlength ▸ hlt)

theorem Complete.reserves {d : Draft} {body : Code} (_ : d.Complete body) : d.Reserves (d.prepare body) :=
  d.reserves_prepare body

theorem Complete.prepared {d : Draft} {body : Code} (h : d.Complete body) :
    (d.prepare body).Prepared ∧ body.Fits (d.prepare body).types (d.prepare body).shared.length ∧
      ∀ name ∈ body.names, (d.prepare body).Named name := by
  have hsearched := d.searchedFor_prepare body
  have hreserves := hsearched.reserves
  have hlength := hreserves.length_eq
  -- the body reaches every computation, so the walk has given all of them a slot
  have hslotted : ∀ id entry, (d.prepare body).shared[id]? = some entry →
      (d.prepare body).Slotted id := by
    intro id entry hentry
    obtain ⟨hlt, -⟩ := List.getElem?_eq_some_iff.mp hentry
    exact h.fresh.slotted (h.reaches id (hlength ▸ hlt)) (hlength ▸ hlt)
  refine ⟨⟨⟨hreserves.ordered h.ordered, ?_, ?_, ?_⟩, hreserves.packed h.fresh.packed, ?_, ?_⟩, ?_,
    hsearched.holds.names⟩
  · intro id entry hentry
    obtain ⟨entry', slot, hentry', hslot⟩ := hslotted id entry hentry
    obtain rfl : entry' = entry := by simpa [hentry'] using hentry
    exact ⟨slot, hslot⟩
  · intro id entry hentry
    rcases hsearched.searched id entry hentry (hslotted id entry hentry) with hold | hholds
    · exact absurd hold (h.fresh.not_slotted id)
    · exact hholds.names
  · intro entry hmem
    obtain ⟨id, hlt, rfl⟩ := List.getElem_of_mem hmem
    obtain ⟨entry', hentry', hvalue, hty, -⟩ := hreserves.getElem? (List.getElem?_eq_getElem hlt)
    rw [hty, hvalue]
    exact (h.fresh.entries entry' (List.mem_of_getElem? hentry')).2
  · intro entry hmem
    obtain ⟨id, hlt, rfl⟩ := List.getElem_of_mem hmem
    obtain ⟨entry', hentry', -, hty, hdefault⟩ := hreserves.getElem? (List.getElem?_eq_getElem hlt)
    rw [hty, hdefault]
    exact h.defaults entry' (List.mem_of_getElem? hentry')
  · rw [hreserves.stored_eq, h.fresh.stored]
  · rw [hreserves.types_eq, hlength]
    exact h.fits

end Draft

end FlowGraph
