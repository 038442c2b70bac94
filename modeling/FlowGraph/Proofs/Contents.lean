import FlowGraph.Proofs.Evaluation
import FlowGraph.Proofs.Layout

/-! # What the slots hold

    Every slot of a program belongs to one variable, to one shared value, or
    is a temporary (`Draft.Apart`). While code runs, a variable is in its
    slot, and so is a shared value that is stored on the way to this point,
    unless it is just being computed (`Draft.Agrees`).
-/

namespace FlowGraph

variable {σ : Type}

/-- What a slot is for. -/
inductive Place where
  | var (name : String)
  | shared (id : SharedId)
  | temp (slot : Nat)

namespace Draft

/-- The slot of a place. Temporaries come behind the slots that the draft has
    reserved. -/
def At (d : Draft) : Place → Nat → Prop
  | .var name, slot => d.variableSlots.lookup name = some slot
  | .shared id, slot => ∃ entry : Shared, d.shared[id]? = some entry ∧ entry.slot = some slot
  | .temp n, slot => slot = n ∧ d.nextSlot ≤ n

/-- No slot has two uses. -/
def Apart (d : Draft) : Prop :=
  ∀ (place place' : Place) (slot : Nat), d.At place slot → d.At place' slot → place = place'

theorem at_unique {d : Draft} {place : Place} {slot slot' : Nat} (h : d.At place slot)
    (h' : d.At place slot') : slot = slot' := by
  cases place with
  | var name => exact Option.some.inj (h.symm.trans h')
  | shared id =>
    obtain ⟨entry, hentry, hslot⟩ := h
    obtain ⟨entry', hentry', hslot'⟩ := h'
    cases Option.some.inj (hentry.symm.trans hentry')
    exact Option.some.inj (hslot.symm.trans hslot')
  | temp n => exact h.1.trans h'.1.symm

/-- The slot of a variable is in the list of them. -/
theorem mem_of_at_var {d : Draft} {name : String} {slot : Nat} (h : d.At (.var name) slot) :
    (name, slot) ∈ d.variableSlots := by
  obtain ⟨before, behind, heq, -⟩ := List.lookup_eq_some_iff.mp h
  simp [heq]

theorem mem_of_at_shared {d : Draft} {id : SharedId} {slot : Nat} (h : d.At (.shared id) slot) :
    slot ∈ d.shared.filterMap Shared.slot := by
  obtain ⟨entry, hentry, hslot⟩ := h
  exact List.mem_filterMap.mpr ⟨entry, List.mem_of_getElem? hentry, hslot⟩

/-- Slots that are numbered without gaps have one use each. -/
theorem Packed.apart {d : Draft} (h : d.Packed) : d.Apart := by
  rw [Packed, initials_slots] at h
  have hlt : ∀ slot ∈ (d.variableSlots.map Prod.snd).reverse ++ d.shared.filterMap Shared.slot,
      slot < d.nextSlot := fun slot hslot => List.mem_range.mp (h.mem_iff.mp hslot)
  obtain ⟨hvars, hshared, hdisjoint⟩ := List.nodup_append.mp (h.nodup_iff.mpr List.nodup_range)
  have hmem {name : String} {slot : Nat} (hat : d.At (.var name) slot) :
      slot ∈ (d.variableSlots.map Prod.snd).reverse :=
    List.mem_reverse.mpr (List.mem_map_of_mem (mem_of_at_var hat))
  -- variables and computations are in one list, which has no slot twice; temporaries lie above it
  rintro (name | id | n) (name' | id' | n') slot hat hat'
  · have heq := List.inj_on_of_nodup_map (List.nodup_reverse.mp hvars) (mem_of_at_var hat)
      (mem_of_at_var hat') rfl
    rw [(Prod.mk.inj heq).1]
  · exact absurd rfl (hdisjoint slot (hmem hat) slot (mem_of_at_shared hat'))
  · have hslot := hlt slot (List.mem_append_left _ (hmem hat))
    exact absurd (hat'.1 ▸ hat'.2) (Nat.not_le.mpr hslot)
  · exact absurd rfl (hdisjoint slot (hmem hat') slot (mem_of_at_shared hat))
  · -- two computations are told apart by their places in the list
    obtain ⟨entry, hentry, hslot⟩ := hat
    obtain ⟨entry', hentry', hslot'⟩ := hat'
    obtain ⟨hid, rfl⟩ := List.getElem?_eq_some_iff.mp hentry
    obtain ⟨hid', rfl⟩ := List.getElem?_eq_some_iff.mp hentry'
    have hpairwise := List.pairwise_iff_getElem.mp (List.pairwise_filterMap.mp hshared)
    rcases Nat.lt_trichotomy id id' with hlt | heq | hlt
    · exact absurd rfl (hpairwise id id' hid hid' hlt slot hslot slot hslot')
    · rw [heq]
    · exact absurd rfl (hpairwise id' id hid' hid hlt slot hslot' slot hslot)
  · have hslot := hlt slot (List.mem_append_right _ (mem_of_at_shared hat))
    exact absurd (hat'.1 ▸ hat'.2) (Nat.not_le.mpr hslot)
  · have hslot := hlt slot (List.mem_append_left _ (hmem hat'))
    exact absurd (hat.1 ▸ hat.2) (Nat.not_le.mpr hslot)
  · have hslot := hlt slot (List.mem_append_right _ (mem_of_at_shared hat'))
    exact absurd (hat.1 ▸ hat.2) (Nat.not_le.mpr hslot)
  · rw [← hat.1, ← hat'.1]

/-- A slot that is no temporary is reserved. -/
theorem Apart.lt {d : Draft} (h : d.Apart) {place : Place} {slot : Nat} (hat : d.At place slot)
    (hplace : place ≠ .temp slot) : slot < d.nextSlot := by
  refine Nat.lt_of_not_le fun hle => hplace ?_
  exact h place (.temp slot) slot hat ⟨rfl, hle⟩

end Draft

/-! ## Contents -/

namespace Sharing

/-- The shared computation can be settled to have this value, from now on. -/
def Settled (s : Sharing σ) (id : SharedId) (v : Value) : Prop :=
  ∀ vars w, s.value id vars w (.ok (v, vars), w)

end Sharing

/-- What code may rely on: which shared values are stored, which of them are
    being computed, what the temporaries hold, and the variables. -/
structure Contents where
  stored : List SharedId
  busy : SharedId → Prop
  temps : Nat → Option Double
  vars : Variables

namespace Contents

/-- What the slot of a place has to hold. -/
def Allows (c : Contents) (s : Sharing σ) : Place → Option Value → Prop
  | .var name, content => content = some (.ref (c.vars name))
  | .shared id, content => id ∈ c.stored → ¬c.busy id → ∃ v, content = some v ∧ s.Settled id v
  | .temp n, content => ∀ x, c.temps n = some x → content = some (.double x)

end Contents

namespace Draft

/-- The locals hold the contents, in the slots that the draft has reserved
    and in temporaries behind them. -/
structure Agrees (d : Draft) (s : Sharing σ) (total : Nat) (c : Contents)
    (locals : Array (Option Value)) : Prop where
  size : locals.size = total
  holds : ∀ place slot, d.At place slot → c.Allows s place locals[slot]?.join

variable {d : Draft} {s : Sharing σ} {total : Nat} {c c' : Contents} {locals : Array (Option Value)}

theorem Agrees.mono (h : d.Agrees s total c locals)
    (hc : ∀ place content, c.Allows s place content → c'.Allows s place content) :
    d.Agrees s total c' locals :=
  ⟨h.size, fun place slot hat => hc place _ (h.holds place slot hat)⟩

/-- Writing a slot changes what one place holds. -/
theorem Agrees.set (hd : d.Apart) (h : d.Agrees s total c locals) {place : Place} {slot : Nat}
    {v : Value} (hat : d.At place slot) (hslot : slot < total) (hv : c'.Allows s place (some v))
    (hc : ∀ place' content, place' ≠ place → c.Allows s place' content → c'.Allows s place' content) :
    d.Agrees s total c' (locals.setIfInBounds slot (some v)) := by
  refine ⟨by rw [Array.size_setIfInBounds, h.size], fun place' slot' hat' => ?_⟩
  by_cases heq : slot' = slot
  · subst heq
    obtain rfl := hd place place' slot' hat hat'
    have hsize : slot' < locals.size := h.size ▸ hslot
    simpa [Array.getElem?_setIfInBounds, hsize] using hv
  · have hne : place' ≠ place := by
      rintro rfl
      exact heq (at_unique hat' hat)
    rw [Array.getElem?_setIfInBounds_ne (Ne.symm heq)]
    exact hc place' _ hne (h.holds place' slot' hat')

/-! ## Reading -/

theorem Agrees.var (h : d.Agrees s total c locals) {name : String} {slot : Nat}
    (hat : d.At (.var name) slot) : locals[slot]? = some (some (.ref (c.vars name))) :=
  Option.join_eq_some_iff.mp (h.holds _ _ hat)

theorem Agrees.shared (h : d.Agrees s total c locals) {id : SharedId} {slot : Nat}
    (hat : d.At (.shared id) slot) (hstored : id ∈ c.stored) (hbusy : ¬c.busy id) :
    ∃ v, locals[slot]? = some (some v) ∧ s.Settled id v := by
  obtain ⟨v, hv, hsettled⟩ := h.holds _ _ hat hstored hbusy
  exact ⟨v, Option.join_eq_some_iff.mp hv, hsettled⟩

theorem Agrees.temp (h : d.Agrees s total c locals) {slot : Nat} {x : Double} (hslot : d.nextSlot ≤ slot)
    (hx : c.temps slot = some x) : locals[slot]? = some (some (.double x)) :=
  Option.join_eq_some_iff.mp (h.holds (.temp slot) slot ⟨rfl, hslot⟩ x hx)

end Draft

end FlowGraph
