import FlowGraph.Proofs.Contents
import FlowGraph.Proofs.Labels
import FlowGraph.Proofs.Needs

/-! # Every shared value is computed in one place

    What an arm of a branch or the body of a loop has stored is forgotten
    behind it, and is still never computed again: whatever is needed there
    and once more was computed ahead.

    * Code for a value runs straight through. It stores what it leads to and
      what was not stored, each once (`Lays.fills`).
    * Any code stores what it needs and what was not stored, each once. If
      the code that follows needs one of these too, it is stored from then on
      (`Lays.places`).
-/

namespace FlowGraph

namespace Op

/-- The operation stores to the slot. -/
def stores (slot : Nat) : Op → Bool
  | .store s _ => s == slot
  | _ => false

theorem stores_of_touchesSlot {o : Op} (h : o.touchesSlot = false) (slot : Nat) : o.stores slot = false := by
  cases o <;> first | rfl | cases h

theorem touchesSlot_of_isPlain {o : Op} (h : o.isPlain = true) : o.touchesSlot = false := by
  cases o <;> first | rfl | cases h

end Op

/-- How often the operations store to the slot. -/
def storeCount (slot : Nat) (ops : List Op) : Nat := ops.countP (Op.stores slot)

@[simp] theorem storeCount_nil (slot : Nat) : storeCount slot [] = 0 := rfl

@[simp] theorem storeCount_append (slot : Nat) (ops ops' : List Op) :
    storeCount slot (ops ++ ops') = storeCount slot ops + storeCount slot ops' := List.countP_append

@[simp] theorem storeCount_cons (slot : Nat) (o : Op) (ops : List Op) :
    storeCount slot (o :: ops) = storeCount slot ops + if o.stores slot then 1 else 0 := List.countP_cons

theorem storeCount_of_touchesSlot {ops : List Op} (h : ∀ o ∈ ops, o.touchesSlot = false) (slot : Nat) :
    storeCount slot ops = 0 :=
  List.countP_eq_zero.mpr fun o ho => by simp [Op.stores_of_touchesSlot (h o ho)]

namespace Draft

theorem Advances.mentions_eq {d d' : Draft} (h : d.Advances d') : d'.mentions = d.mentions := by
  funext id
  rw [mentions, mentions, h.shared]

theorem Advances.at_shared {d d' : Draft} (h : d.Advances d') {id : SharedId} {slot : Nat} :
    d'.At (.shared id) slot ↔ d.At (.shared id) slot := by
  simp only [At, h.shared]

theorem Advances.at_of_at {d d' : Draft} (h : d.Advances d') {place : Place} {slot : Nat}
    (hat : d'.At place slot) : d.At place slot := by
  cases place with
  | var name => simpa only [At, h.variableSlots] using hat
  | shared id => exact h.at_shared.mp hat
  | temp n => exact ⟨hat.1, Nat.le_trans h.nextSlot hat.2⟩

theorem Apart.of_advances {d d' : Draft} (h : d.Apart) (hd : d.Advances d') : d'.Apart :=
  fun place place' slot h₁ h₂ => h place place' slot (hd.at_of_at h₁) (hd.at_of_at h₂)

end Draft

/-! ## Straight code -/

/-- The operations store what the roots lead to and is not stored, each once. -/
structure Fills (d : Draft) (roots : List SharedId) (ops : List Op) (d' : Draft) : Prop where
  search : Search d.mentions d.stored roots d'.stored
  count {id slot} : d.At (.shared id) slot →
    storeCount slot ops + (if id ∈ d.stored then 1 else 0) = if id ∈ d'.stored then 1 else 0

namespace Fills

variable {d d' d'' : Draft} {roots roots' : List SharedId} {ops ops' : List Op}

/-- Nothing is stored, and nothing has to be. -/
theorem idle (hroots : ∀ id ∈ roots, id ∈ d.stored) (hops : ∀ slot, storeCount slot ops = 0)
    (hd : d'.stored = d.stored) : Fills d roots ops d' where
  search := by rw [hd]; exact .known hroots
  count := by simp [hops, hd]

theorem append (h : Fills d roots ops d') (hd : d.Advances d') (h' : Fills d' roots' ops' d'') :
    Fills d (roots ++ roots') (ops ++ ops') d'' where
  search := h.search.append (hd.mentions_eq ▸ h'.search)
  count {id slot} hat := by
    have h₁ := h.count hat
    have h₂ := h'.count (hd.at_shared.mpr hat)
    rw [storeCount_append]
    omega

/-- A shared value is computed, and then stored by the last operations. -/
theorem enter {id : SharedId} {slot : Nat} (hat : d.At (.shared id) slot) (hapart : d.Apart)
    (hnew : d.isStored id = false) (h : Fills (d.markStored id) (d.mentions id) ops d')
    (hlast : ∀ slot', storeCount slot' ops' = if slot = slot' then 1 else 0) :
    Fills d [id] (ops ++ ops') d' where
  search := .enter h.search
  count {id' slot'} hat' := by
    have hcount := h.count hat'
    rw [storeCount_append, hlast]
    by_cases heq : id' = id
    · subst heq
      -- it counts as stored while its own computation is laid out
      have hmem : id' ∈ d'.stored := h.search.kept id' List.mem_cons_self
      have hnew' : id' ∉ d.stored := by simpa [Draft.isStored] using hnew
      simp only [Draft.markStored, List.mem_cons, true_or, if_true, hmem] at hcount
      simp only [hnew', if_false, hmem, if_true, Draft.at_unique hat hat']
      omega
    · have hslot : slot ≠ slot' := fun hslot => heq (by
        cases hapart _ _ _ hat' (hslot ▸ hat)
        rfl)
      simpa [hslot, Draft.markStored, heq] using hcount

end Fills

namespace Job

/-- The shared values that the job names. -/
def roots : Job → List SharedId
  | .code c _ => c.mentions
  | .stores ids _ => ids

/-- What is laid out runs straight through. -/
def IsStraight : Job → Prop
  | .code c _ => c.isValue = true
  | .stores _ _ => True

end Job

theorem Lays.fills {job : Job} {d d' : Draft} {ops : List Op} (h : Lays job d ops d') (hd : d.Reserved)
    (hapart : d.Apart) (hjob : job.Fits d) (hstraight : job.IsStraight) : Fills d job.roots ops d' := by
  -- what runs straight through passes every store that it has, and only computing stores
  induction h with
  | op =>
    obtain ⟨_, hplain⟩ := hjob
    refine .idle (by simp [Job.roots, Code.mentions]) (storeCount_of_touchesSlot fun o ho => ?_) rfl
    rw [List.mem_singleton.mp ho]
    exact Op.touchesSlot_of_isPlain hplain
  | done => exact .idle (by simp [Job.roots, Code.mentions]) (fun _ => rfl) rfl
  | @andThen first rest after d _ _ _ _ hf _ ihf ihr =>
    obtain ⟨n, hfits⟩ := hjob
    obtain ⟨hvalue, hvalue'⟩ := Bool.and_eq_true_iff.mp hstraight
    have hrest : (Job.code rest after).Fits d := ⟨n, hfits.2⟩
    exact (ihf hd hapart ⟨n, hfits.1⟩ hvalue).append hf.advances (ihr (hd.of_advances hf.advances)
      (hapart.of_advances hf.advances) (hrest.of_advances hf.advances) hvalue')
  | raw =>
    obtain ⟨_, hclosed⟩ := hjob
    refine .idle (by simp [Job.roots, Code.mentions]) (storeCount_of_touchesSlot fun o ho => ?_) rfl
    obtain ⟨o, hmem, rfl⟩ := List.mem_map.mp (by simpa [Emission.ops, Draft.emitRaw] using ho)
    rw [Op.touchesSlot_relabel]
    exact (hclosed.slots o hmem).1
  | load _ _ hstored =>
    refine .idle (fun id hid => ?_) (fun _ => rfl) rfl
    rw [List.mem_singleton.mp hid]
    simpa [Draft.isStored] using hstored
  | @compute id _ _ d entry slot _ _ hentry hslot hnew _ ih =>
    have hmark := d.advances_markStored id
    have hvalue := ih (hd.of_advances hmark) (hapart.of_advances hmark)
      ((hd.of_advances hmark).fits_value hentry _) (hd.ordered id entry hentry).1
    refine .enter ⟨entry, hentry, hslot⟩ hapart hnew ?_ (by simp [Op.stores])
    rw [Draft.mentions_eq hentry]
    exact hvalue
  | getVariable => exact .idle (by simp [Job.roots, Code.mentions]) (fun _ => rfl) rfl
  | setVariable => cases hstraight
  | loop => cases hstraight
  | branch => cases hstraight
  | nil => exact .idle (by simp [Job.roots]) (fun _ => rfl) rfl
  | @skip id rest _ d _ _ hstored _ ih =>
    have hfirst : Fills d [id] [] d := .idle (by simpa [Draft.isStored] using hstored) (fun _ => rfl) rfl
    exact hfirst.append (.refl d) (ih hd hapart trivial trivial)
  | @store id rest _ d entry slot _ _ _ _ hentry hslot hnew hvalue _ ihv ihr =>
    have hmark := d.advances_markStored id
    have hadvances := hmark.trans hvalue.advances
    have hfirst := ihv (hd.of_advances hmark) (hapart.of_advances hmark)
      ((hd.of_advances hmark).fits_value hentry _) (hd.ordered id entry hentry).1
    have hothers := ihr (hd.of_advances hadvances) (hapart.of_advances hadvances) trivial trivial
    refine Fills.append (.enter ⟨entry, hentry, hslot⟩ hapart hnew ?_ (by simp [Op.stores])) hadvances hothers
    rw [Draft.mentions_eq hentry]
    exact hfirst

/-! ## Any code -/

namespace Draft

theorem Advances.reaches_iff {d d' : Draft} (h : d.Advances d') {c : Code} {id : SharedId} :
    d'.Reaches c id ↔ d.Reaches c id := by
  constructor
  · refine fun hreaches => hreaches.least (fun id hid => .mention hid) fun id hid id' hid' => ?_
    exact hid.mentions (h.mentions_eq ▸ hid')
  · refine fun hreaches => hreaches.least (fun id hid => .mention hid) fun id hid id' hid' => ?_
    exact hid.mentions (h.mentions_eq ▸ hid')

theorem Advances.needs_iff {d d' : Draft} (h : d.Advances d') {pieces : List Code} {id : SharedId} :
    d'.Needs pieces id ↔ d.Needs pieces id := by
  simp only [Needs, h.reaches_iff]

theorem Sealed.restore {d d' : Draft} (h : d.Sealed) (hd : d.Advances d') :
    (d'.restoreMarks d.stored).Sealed := by
  intro id hid id' hid'
  refine h id hid id' ?_
  rwa [hd.restore.mentions_eq] at hid'

theorem lt_of_at_shared {d : Draft} {id : SharedId} {slot : Nat} (h : d.At (.shared id) slot) :
    id < d.shared.length := by
  obtain ⟨entry, hentry, -⟩ := h
  exact (List.getElem?_eq_some_iff.mp hentry).1

end Draft

namespace Fills

variable {d d' : Draft} {roots : List SharedId} {ops : List Op}

theorem isSealed (h : Fills d roots ops d') (hadvances : d.Advances d') (hd : d.Sealed) : d'.Sealed := by
  intro id hid id' hid'
  rw [hadvances.mentions_eq] at hid'
  by_cases hstored : id ∈ d.stored
  · exact h.search.kept id' (hd id hstored id' hid')
  · exact h.search.closed id hid hstored id' hid'

theorem storeCount_eq_zero (h : Fills d roots ops d') {id : SharedId} {slot : Nat}
    (hat : d.At (.shared id) slot) (hid : id ∈ d.stored ∨ id ∉ d'.stored) : storeCount slot ops = 0 := by
  have hcount := h.count hat
  rcases hid with hmem | hnot
  · simp only [hmem, h.search.kept id hmem, if_true] at hcount
    omega
  · simp only [hnot, if_false] at hcount
    omega

theorem storeCount_eq_one (h : Fills d roots ops d') {id : SharedId} {slot : Nat}
    (hat : d.At (.shared id) slot) (hnew : id ∉ d.stored) (hid : id ∈ d'.stored) :
    storeCount slot ops = 1 := by
  have hcount := h.count hat
  simpa only [hnew, hid, if_true, if_false, Nat.add_zero] using hcount

/-- What is newly stored has every property that the roots pass on. -/
theorem of_mem_stored {P : SharedId → Prop} (h : Fills d roots ops d') (hd : d.Sealed)
    (hroots : ∀ id ∈ roots, id ∉ d.stored → P id) (hP : ∀ id, P id → ∀ id' ∈ d.mentions id, P id')
    {id : SharedId} (hid : id ∈ d'.stored) (hnew : id ∉ d.stored) : P id := by
  refine (h.search.least (fun id => id ∈ d.stored ∨ P id) ?_ ?_ id hid hnew).resolve_left hnew
  · exact fun id hid => or_iff_not_imp_left.mpr (hroots id hid)
  · exact fun id hor id' hid' => hor.imp (hd id · id' hid') (hP id · id' hid')

end Fills

/-- The operations store what the code needs and is not stored, each once, and
    what the code that follows needs as well is stored afterwards. -/
structure Places (d : Draft) (c : Code) (after : List Code) (ops : List Op) (d' : Draft) : Prop where
  isSealed : d'.Sealed
  reached : ∀ id ∈ d'.stored, id ∉ d.stored → d.Reaches c id
  kept : ∀ id < d.shared.length, d.Reaches c id → d.Needs after id → id ∈ d'.stored
  never {id slot} : d.At (.shared id) slot → id ∈ d.stored ∨ ¬d.Reaches c id → storeCount slot ops = 0
  once {id slot} : d.At (.shared id) slot → id ∉ d.stored → d.Reaches c id → storeCount slot ops = 1

theorem Fills.places {d d' : Draft} {c : Code} {ops : List Op} (h : Fills d c.mentions ops d')
    (hadvances : d.Advances d') (hd : d.Sealed) (after : List Code) : Places d c after ops d' := by
  have hsealed := h.isSealed hadvances hd
  have hreached : ∀ id ∈ d'.stored, id ∉ d.stored → d.Reaches c id :=
    h.search.least (d.Reaches c) (fun id hid => .mention hid) fun id hid id' hid' => hid.mentions hid'
  have hstored : ∀ id, d.Reaches c id → id ∈ d'.stored := by
    intro id hid
    refine hid.least h.search.found fun id hid id' hid' => ?_
    exact hsealed id hid id' (hadvances.mentions_eq ▸ hid')
  refine ⟨hsealed, hreached, fun id _ hid _ => hstored id hid, ?_, ?_⟩
  · intro id slot hat hor
    refine h.storeCount_eq_zero hat (or_iff_not_imp_left.mpr fun hnew hid => ?_)
    exact hor.resolve_left hnew (hreached id hid hnew)
  · intro id slot hat hnew hid
    exact h.storeCount_eq_one hat hnew (hstored id hid)

namespace Places

variable {d d₁ d₂ d₃ d₄ : Draft} {after : List Code} {ops₁ ops₂ ops₃ ops₄ : List Op}

/-- What the first part has stored, the second one does not store again. -/
theorem andThen {first rest : Code} (hf : Places d first (rest :: after) ops₁ d₁) (hd₁ : d.Advances d₁)
    (hr : Places d₁ rest after ops₂ d₂) (hd₂ : d₁.Advances d₂) :
    Places d (.andThen first rest) after (ops₁ ++ ops₂) d₂ := by
  have hreaches : ∀ id, d.Reaches (.andThen first rest) id ↔ d.Reaches first id ∨ d.Reaches rest id :=
    fun _ => Draft.reaches_iff_of_mentions rfl
  refine ⟨hr.isSealed, ?_, ?_, ?_, ?_⟩
  · intro id hid hnew
    rw [hreaches]
    by_cases hid₁ : id ∈ d₁.stored
    · exact .inl (hf.reached id hid₁ hnew)
    · exact .inr (hd₁.reaches_iff.mp (hr.reached id hid hid₁))
  · intro id hlt hid hafter
    rcases (hreaches id).mp hid with hid | hid
    · exact hd₂.stored id (hf.kept id hlt hid (Draft.needs_cons.mpr (.inr hafter)))
    · exact hr.kept id (hd₁.shared ▸ hlt) (hd₁.reaches_iff.mpr hid) (hd₁.needs_iff.mpr hafter)
  · intro id slot hat hor
    have hat₁ := hd₁.at_shared.mpr hat
    rw [hreaches, not_or] at hor
    rw [storeCount_append, hf.never hat (hor.imp_right And.left),
      hr.never hat₁ (hor.imp (hd₁.stored id) fun hnot => mt hd₁.reaches_iff.mp hnot.2)]
  · intro id slot hat hnew hid
    have hat₁ := hd₁.at_shared.mpr hat
    rw [storeCount_append]
    by_cases hfirst : d.Reaches first id
    · -- if the rest needs it as well, it is stored by then
      have hrest : id ∈ d₁.stored ∨ ¬d₁.Reaches rest id := by
        refine or_iff_not_imp_right.mpr fun hrest => ?_
        have hneeds := hd₁.reaches_iff.mp (not_not.mp hrest)
        exact hf.kept id (Draft.lt_of_at_shared hat) hfirst (Draft.needs_cons.mpr (.inl hneeds))
      rw [hf.once hat hnew hfirst, hr.never hat₁ hrest]
    · have hnew₁ : id ∉ d₁.stored := fun hid₁ => hfirst (hf.reached id hid₁ hnew)
      have hrest := ((hreaches id).mp hid).resolve_left hfirst
      rw [hf.never hat (.inr hfirst), hr.once hat₁ hnew₁ (hd₁.reaches_iff.mpr hrest)]

/-- A store to a variable is no store to a shared value. -/
theorem setVariable {name : String} {value : Code} (h : Places d value after ops₁ d₁) (hapart : d.Apart)
    (hd₁ : d.Advances d₁) {var : Nat} (hvar : d₁.variableSlots.lookup name = some var) (ty : Ty) :
    Places d (.setVariable name value) after (ops₁ ++ [Op.store var ty]) d₁ := by
  have hreaches : ∀ id, d.Reaches (.setVariable name value) id ↔ d.Reaches value id := by
    intro id
    constructor
    · exact fun hid => hid.of_mentions fun _ hmention => .mention (by simpa [Code.mentions] using hmention)
    · exact fun hid => hid.of_mentions fun _ hmention => .mention (by simpa [Code.mentions] using hmention)
  have hlast : ∀ id slot, d.At (.shared id) slot → storeCount slot [.store var ty] = 0 := by
    intro id slot hat
    have hne : var ≠ slot := by
      rintro rfl
      have hat' : d.At (.var name) var := by rwa [Draft.At, ← hd₁.variableSlots]
      cases hapart _ _ _ hat hat'
    simp [Op.stores, hne]
  refine ⟨h.isSealed, fun id hid hnew => (hreaches id).mpr (h.reached id hid hnew),
    fun id hlt hid hafter => h.kept id hlt ((hreaches id).mp hid) hafter, ?_, ?_⟩
  · intro id slot hat hor
    rw [storeCount_append, hlast id slot hat, h.never hat (by rwa [← hreaches])]
  · intro id slot hat hnew hid
    rw [storeCount_append, hlast id slot hat, h.once hat hnew ((hreaches id).mp hid)]

/-- Paths part behind `head`, into arms that are laid out with `ops₃`. What
    the arms need and is not stored ahead of them they store themselves; what
    is needed behind them too is stored ahead. -/
theorem parted (arms : List Code) (ops₃ : List Op) {head whole : Code} {ids : List SharedId}
    {ops : List Op} {d' : Draft} (hwhole : ∀ id, d.Reaches whole id ↔ d.Reaches head id ∨ d.Needs arms id)
    (hhead : Places d head (arms ++ after) ops₁ d₁) (hd₁ : d.Advances d₁)
    (hahead : Fills d₁ ids ops₂ d₂) (hd₂ : d₁.Advances d₂)
    (hneeded : ∀ id, id ∉ d₁.stored → id ∈ d₂.stored → d.Needs arms id)
    (hboth : ∀ id < d.shared.length, id ∉ d₁.stored → d.Needs arms id → d.Needs after id → id ∈ d₂.stored)
    (hnever : ∀ {id slot}, d.At (.shared id) slot → id ∈ d₂.stored ∨ ¬d.Needs arms id →
      storeCount slot ops₃ = 0)
    (honce : ∀ {id slot}, d.At (.shared id) slot → id ∉ d₂.stored → d.Needs arms id →
      storeCount slot ops₃ = 1)
    (hops : ∀ {id slot}, d.At (.shared id) slot →
      storeCount slot ops = storeCount slot ops₁ + storeCount slot ops₂ + storeCount slot ops₃)
    (hd' : d₂.Advances d') (hstored : d'.stored = d₂.stored) : Places d whole after ops d' := by
  have hneeds : ∀ id, d.Needs (arms ++ after) id ↔ d.Needs arms id ∨ d.Needs after id := by
    simp [Draft.Needs, or_and_right, exists_or]
  refine ⟨?_, ?_, ?_, ?_, ?_⟩
  · intro id hid id' hid'
    rw [hstored] at hid ⊢
    rw [hd'.mentions_eq] at hid'
    exact hahead.isSealed hd₂ hhead.isSealed id hid id' hid'
  · intro id hid hnew
    rw [hstored] at hid
    rw [hwhole]
    by_cases hid₁ : id ∈ d₁.stored
    · exact .inl (hhead.reached id hid₁ hnew)
    · exact .inr (hneeded id hid₁ hid)
  · intro id hlt hid hafter
    rw [hstored]
    by_cases hid₁ : id ∈ d₁.stored
    · exact hd₂.stored id hid₁
    · rcases (hwhole id).mp hid with hid | hid
      · exact absurd (hhead.kept id hlt hid ((hneeds id).mpr (.inr hafter))) hid₁
      · exact hboth id hlt hid₁ hid hafter
  · intro id slot hat hor
    rw [hwhole, not_or] at hor
    rw [hops hat, hhead.never hat (hor.imp_right And.left)]
    have hat₁ := hd₁.at_shared.mpr hat
    rcases hor with hmem | ⟨-, hnot⟩
    · have hmem₁ := hd₁.stored id hmem
      rw [hahead.storeCount_eq_zero hat₁ (.inl hmem₁), hnever hat (.inl (hd₂.stored id hmem₁))]
    · rw [hnever hat (.inr hnot), hahead.storeCount_eq_zero hat₁]
      exact or_iff_not_imp_left.mpr fun hnew hmem => hnot (hneeded id hnew hmem)
  · -- it is stored by the first of the three parts that needs it
    intro id slot hat hnew hid
    have hlt := Draft.lt_of_at_shared hat
    have hat₁ := hd₁.at_shared.mpr hat
    rw [hops hat]
    by_cases hid₁ : id ∈ d₁.stored
    · -- the part before has stored it
      have hfirst := hhead.reached id hid₁ hnew
      rw [hhead.once hat hnew hfirst, hahead.storeCount_eq_zero hat₁ (.inl hid₁),
        hnever hat (.inl (hd₂.stored id hid₁))]
    by_cases hfirst : d.Reaches head id
    · -- it was left to the part before alone
      have hnot : ¬d.Needs arms id := fun harms =>
        hid₁ (hhead.kept id hlt hfirst ((hneeds id).mpr (.inl harms)))
      have hid₂ : id ∉ d₂.stored := fun hid₂ => hnot (hneeded id hid₁ hid₂)
      rw [hhead.once hat hnew hfirst, hahead.storeCount_eq_zero hat₁ (.inr hid₂), hnever hat (.inr hnot)]
    · have harms := ((hwhole id).mp hid).resolve_left hfirst
      rw [hhead.never hat (.inr hfirst)]
      by_cases hid₂ : id ∈ d₂.stored
      · rw [hahead.storeCount_eq_one hat₁ hid₁ hid₂, hnever hat (.inl hid₂)]
      · rw [hahead.storeCount_eq_zero hat₁ (.inr hid₂), honce hat hid₂ harms]

/-- A temporary is no slot of a shared value. -/
theorem ne_of_at_shared (hapart : d.Apart) {id : SharedId} {slot temp : Nat} (hat : d.At (.shared id) slot)
    (htemp : d.nextSlot ≤ temp) : temp ≠ slot := by
  rintro rfl
  have hat' : d.At (.temp temp) temp := ⟨rfl, htemp⟩
  cases hapart _ _ _ hat hat'

theorem loop {times body : Code} (ht : Places d times (body :: after) ops₁ d₁) (hd₁ : d.Advances d₁)
    (hh : Fills d₁.beginLoop (d₁.toHoist [body] after) ops₂ d₂) (hd₂ : d₁.beginLoop.Advances d₂)
    (hb : Places d₂ body after ops₃ d₃) (hd₃ : d₂.Advances d₃) (hapart : d.Apart) :
    Places d (.loop times body) after
      (ops₁ ++ loopStart d₁.nextSlot ++ ops₂ ++ loopTest d₁.nextSlot d₁.nextLabel ++ ops₃ ++
        loopEnd d₁.nextSlot d₁.nextLabel)
      (d₃.restoreMarks d₂.stored) := by
  have hbegin := hd₁.trans d₁.advances_beginLoop
  have hadvances := hbegin.trans hd₂
  -- taking slots and labels changes nothing for shared values
  have hhead : Places d times ([body] ++ after) ops₁ d₁.beginLoop :=
    ⟨ht.isSealed, ht.reached, ht.kept, ht.never, ht.once⟩
  refine parted [body] ops₃ ?_ hhead hbegin hh hd₂ ?_ ?_ ?_ ?_ ?_ hd₃.restore rfl
  · intro id
    rw [Draft.needs_singleton]
    exact Draft.reaches_iff_of_mentions rfl
  · intro id hnew hid
    refine hh.of_mem_stored (P := d.Needs [body]) hhead.isSealed ?_ ?_ hid hnew
    · intro id hid hnew
      rw [Draft.needs_singleton, ← hd₁.reaches_iff]
      exact ((Draft.mem_toHoist_loop_iff ht.isSealed (Draft.lt_of_mem_toHoist hid) hnew).mp hid).1
    · exact fun id hneeds id' hid' => hneeds.mentions (hbegin.mentions_eq ▸ hid')
  · intro id hlt hnew hbody hafter
    refine hh.search.found id ((Draft.mem_toHoist_loop_iff ht.isSealed (hd₁.shared ▸ hlt) hnew).mpr ?_)
    exact ⟨hd₁.reaches_iff.mpr (Draft.needs_singleton.mp hbody), hd₁.needs_iff.mpr hafter⟩
  · intro id slot hat hor
    rw [Draft.needs_singleton, ← hadvances.reaches_iff] at hor
    exact hb.never (hadvances.at_shared.mpr hat) hor
  · intro id slot hat hnew hbody
    rw [Draft.needs_singleton, ← hadvances.reaches_iff] at hbody
    exact hb.once (hadvances.at_shared.mpr hat) hnew hbody
  · intro id slot hat
    have hlimit := ne_of_at_shared hapart hat hd₁.nextSlot
    have hcounter := ne_of_at_shared hapart hat (Nat.le_succ_of_le hd₁.nextSlot)
    simp [loopStart, loopTest, loopEnd, Op.stores, hlimit, hcounter, Nat.add_assoc]

theorem branch {condition yes no : Code} (hc : Places d condition (yes :: no :: after) ops₁ d₁)
    (hd₁ : d.Advances d₁) (hh : Fills d₁ (d₁.toHoist [yes, no] after) ops₂ d₂) (hd₂ : d₁.Advances d₂)
    (hy : Places d₂.beginBranch yes after ops₃ d₃) (hd₃ : d₂.beginBranch.Advances d₃)
    (hn : Places (d₃.restoreMarks d₂.stored) no after ops₄ d₄)
    (hd₄ : (d₃.restoreMarks d₂.stored).Advances d₄) :
    Places d (.branch condition yes no) after
      (ops₁ ++ ops₂ ++ [Op.jumpUnless d₂.nextLabel] ++ ops₃ ++
        [Op.jump (d₂.nextLabel + 1), .label d₂.nextLabel] ++ ops₄ ++ [Op.label (d₂.nextLabel + 1)])
      (d₄.restoreMarks d₂.stored) := by
  have hyes := (hd₁.trans hd₂).trans d₂.advances_beginBranch
  have hrestore := (d₂.advances_beginBranch.trans hd₃).restore
  have hno := (hd₁.trans hd₂).trans hrestore
  refine parted [yes, no] (ops₃ ++ ops₄) ?_ hc hd₁ hh hd₂ ?_ ?_ ?_ ?_ ?_ (hrestore.trans hd₄).restore rfl
  · intro id
    rw [Draft.needs_cons, Draft.needs_singleton]
    exact Draft.reaches_branch_iff
  · intro id hnew hid
    refine hh.of_mem_stored (P := d.Needs [yes, no]) hc.isSealed ?_ ?_ hid hnew
    · intro id hid hnew
      rw [Draft.needs_cons, Draft.needs_singleton, ← hd₁.reaches_iff, ← hd₁.reaches_iff]
      rcases (Draft.mem_toHoist_branch_iff hc.isSealed (Draft.lt_of_mem_toHoist hid) hnew).mp hid with
        ⟨hyes, -⟩ | ⟨hor, -⟩
      · exact .inl hyes
      · exact hor
    · exact fun id hneeds id' hid' => hneeds.mentions (hd₁.mentions_eq ▸ hid')
  · intro id hlt hnew harms hafter
    refine hh.search.found id ((Draft.mem_toHoist_branch_iff hc.isSealed (hd₁.shared ▸ hlt) hnew).mpr ?_)
    rw [Draft.needs_cons, Draft.needs_singleton] at harms
    exact .inr ⟨harms.imp hd₁.reaches_iff.mpr hd₁.reaches_iff.mpr, hd₁.needs_iff.mpr hafter⟩
  · intro id slot hat hor
    rw [Draft.needs_cons, Draft.needs_singleton, not_or] at hor
    rw [storeCount_append,
      hy.never (hyes.at_shared.mpr hat) (hor.imp_right fun h => mt hyes.reaches_iff.mp h.1),
      hn.never (hno.at_shared.mpr hat) (hor.imp_right fun h => mt hno.reaches_iff.mp h.2)]
  · intro id slot hat hnew harms
    rw [Draft.needs_cons, Draft.needs_singleton] at harms
    have hlt : id < d₁.shared.length := hd₁.shared ▸ Draft.lt_of_at_shared hat
    have hnew₁ : id ∉ d₁.stored := fun hid₁ => hnew (hd₂.stored id hid₁)
    -- what both arms need is stored ahead of them
    have hone : ¬(d.Reaches yes id ∧ d.Reaches no id) := by
      rintro ⟨hy, hn⟩
      refine hnew (hh.search.found id ((Draft.mem_toHoist_branch_iff hc.isSealed hlt hnew₁).mpr ?_))
      exact .inl ⟨hd₁.reaches_iff.mpr hy, hd₁.reaches_iff.mpr hn⟩
    rw [storeCount_append]
    rcases harms with harm | harm
    · have hnot : ¬(d₃.restoreMarks d₂.stored).Reaches no id := fun h => hone ⟨harm, hno.reaches_iff.mp h⟩
      rw [hy.once (hyes.at_shared.mpr hat) hnew (hyes.reaches_iff.mpr harm),
        hn.never (hno.at_shared.mpr hat) (.inr hnot)]
    · have hnot : ¬d₂.beginBranch.Reaches yes id := fun h => hone ⟨hyes.reaches_iff.mp h, harm⟩
      rw [hy.never (hyes.at_shared.mpr hat) (.inr hnot),
        hn.once (hno.at_shared.mpr hat) hnew (hno.reaches_iff.mpr harm)]
  · intro id slot hat
    simp [Op.stores, Nat.add_assoc]

end Places

theorem Lays.places_of_isValue {c : Code} {after : List Code} {d d' : Draft} {ops : List Op}
    (h : Lays (.code c after) d ops d') (hd : d.Reserved) (hapart : d.Apart)
    (hfits : (Job.code c after).Fits d) (hsealed : d.Sealed) (hvalue : c.isValue = true) :
    Places d c after ops d' :=
  (h.fills hd hapart hfits hvalue).places h.advances hsealed after

/-- Code stores what it needs and is not stored, each once. -/
theorem Lays.places {job : Job} {d d' : Draft} {ops : List Op} (h : Lays job d ops d') (hd : d.Reserved)
    (hapart : d.Apart) (hjob : job.Fits d) (hsealed : d.Sealed) {c : Code} {after : List Code}
    (hcode : job = .code c after) : Places d c after ops d' := by
  induction h generalizing c after with
  | op => cases hcode; exact Lays.op.places_of_isValue hd hapart hjob hsealed rfl
  | done => cases hcode; exact Lays.done.places_of_isValue hd hapart hjob hsealed rfl
  | raw => cases hcode; exact Lays.raw.places_of_isValue hd hapart hjob hsealed rfl
  | load hentry hslot hstored =>
    cases hcode
    exact (Lays.load hentry hslot hstored).places_of_isValue hd hapart hjob hsealed rfl
  | compute hentry hslot hnew hvalue =>
    cases hcode
    exact (Lays.compute hentry hslot hnew hvalue).places_of_isValue hd hapart hjob hsealed rfl
  | getVariable hslot =>
    cases hcode
    exact (Lays.getVariable hslot).places_of_isValue hd hapart hjob hsealed rfl
  | @andThen first rest after d _ _ _ _ hf hr ihf ihr =>
    cases hcode
    obtain ⟨n, hfits⟩ := hjob
    have hrest : (Job.code rest after).Fits d := ⟨n, hfits.2⟩
    have hfirst := ihf hd hapart ⟨n, hfits.1⟩ hsealed rfl
    exact hfirst.andThen hf.advances (ihr (hd.of_advances hf.advances) (hapart.of_advances hf.advances)
      (hrest.of_advances hf.advances) hfirst.isSealed rfl) hr.advances
  | setVariable hv hslot ih =>
    cases hcode
    exact (ih hd hapart hjob hsealed rfl).setVariable hapart hv.advances hslot _
  | @loop times body after d _ d₁ _ d₂ _ _ ht hh hb iht _ ihb =>
    cases hcode
    obtain ⟨n, hfits⟩ := hjob
    have hadv₁ := ht.advances.trans d₁.advances_beginLoop
    have hadv₂ := hadv₁.trans hh.advances
    have hbody : (Job.code body after).Fits d := ⟨n, hfits.2⟩
    have htimes := iht hd hapart ⟨n, hfits.1⟩ hsealed rfl
    have hahead := hh.fills (hd.of_advances hadv₁) (hapart.of_advances hadv₁) trivial trivial
    -- the body, or an arm, starts with all that is stored ahead, and what that names
    have hsealed₂ := hahead.isSealed hh.advances htimes.isSealed
    exact htimes.loop ht.advances hahead hh.advances (ihb (hd.of_advances hadv₂) (hapart.of_advances hadv₂)
      (hbody.of_advances hadv₂) hsealed₂ rfl) hb.advances hapart
  | @branch condition yes no after d _ d₁ _ d₂ _ d₃ _ _ hc hh hy hn ihc _ ihy ihn =>
    cases hcode
    obtain ⟨n, hfits⟩ := hjob
    have hadv₂ := hc.advances.trans hh.advances
    have hadv₃ := hadv₂.trans d₂.advances_beginBranch
    have hadv₄ := hadv₂.trans (d₂.advances_beginBranch.trans hy.advances).restore
    have hyes : (Job.code yes after).Fits d := ⟨n, hfits.2.1⟩
    have hno : (Job.code no after).Fits d := ⟨n, hfits.2.2⟩
    have hcondition := ihc hd hapart ⟨n, hfits.1⟩ hsealed rfl
    have hahead := hh.fills (hd.of_advances hc.advances) (hapart.of_advances hc.advances) trivial trivial
    have hsealed₂ := hahead.isSealed hh.advances hcondition.isSealed
    exact hcondition.branch hc.advances hahead hh.advances
      (ihy (hd.of_advances hadv₃) (hapart.of_advances hadv₃) (hyes.of_advances hadv₃) hsealed₂ rfl)
      hy.advances (ihn (hd.of_advances hadv₄) (hapart.of_advances hadv₄) (hno.of_advances hadv₄)
        (hsealed₂.restore (d₂.advances_beginBranch.trans hy.advances)) rfl) hn.advances
  | nil => cases hcode
  | skip => cases hcode
  | store => cases hcode

end FlowGraph
