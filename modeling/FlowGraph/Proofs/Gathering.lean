import Mathlib.Order.Bounds.Basic
import FlowGraph.Proofs.Slots

/-! # What a search for uses finds

    A search starts from pieces of code and follows the computations that are
    not stored. It keeps one list of what it has found, passes it on from
    piece to piece, and passes over what is in it already. While it is under
    way, the list is not closed: what a computation names may be missing as
    long as the computation is being searched.

    * Pieces may be taken from the list of those that are left in any order,
      parts of code one by one, and computations whenever they are met
      (`Draft.Visits`). All these searches find the same.
    * What was found in other pieces of code before neither adds to nor takes
      away from what is found in the rest.

    Main statement: a search finds the least set that has what the code names
    and is closed under what is named by those not stored
    (`Draft.uses_isLeast`).
-/

namespace FlowGraph

/-! ## Searches with several roots -/

namespace Search

variable {next : SharedId → List SharedId} {before after after' roots roots' : List SharedId} {id : SharedId}

/-- It matters only which roots there are. -/
theorem of_roots (h : Search next before roots after) (hroots : ∀ id, id ∈ roots ↔ id ∈ roots') :
    Search next before roots' after where
  kept := h.kept
  found id hid := h.found id ((hroots id).mpr hid)
  closed := h.closed
  least P hP := h.least P fun id hid => hP id ((hroots id).mp hid)

/-- One that is new is entered ahead of the other roots, and what it leads to
    becomes a root. -/
theorem enter_cons (h : Search next (id :: before) (next id ++ roots) after) :
    Search next before (id :: roots) after where
  kept id' hid' := h.kept id' (List.mem_cons_of_mem _ hid')
  found id' hid' := by
    rcases List.mem_cons.mp hid' with rfl | hid'
    · exact h.kept id' List.mem_cons_self
    · exact h.found id' (List.mem_append_right _ hid')
  closed id' hid' hnew id'' hid'' := by
    by_cases heq : id' = id
    · subst heq
      exact h.found id'' (List.mem_append_left _ hid'')
    · exact h.closed id' hid' (by simp [heq, hnew]) id'' hid''
  least P hroots hP id' hid' hnew := by
    obtain ⟨hid, hroots⟩ := List.forall_mem_cons.mp hroots
    by_cases heq : id' = id
    · exact heq ▸ hid
    · exact h.least P (List.forall_mem_append.mpr ⟨hP id hid, hroots⟩) hP id' hid' (by simp [heq, hnew])

/-- Searches that know nothing find the same from the same roots. -/
theorem mem_iff (h : Search next [] roots after) (h' : Search next [] roots after') : id ∈ after ↔ id ∈ after' := by
  constructor
  · intro hid
    apply h.least (· ∈ after') h'.found ?_ id hid (by simp)
    intro id hid
    exact h'.closed id hid (by simp)
  · intro hid
    apply h'.least (· ∈ after) h.found ?_ id hid (by simp)
    intro id hid
    exact h.closed id hid (by simp)

end Search

namespace Draft

/-! ## Any order -/

/-- What is left to do behind a piece of code, and what is found then. Its
    parts are left, or the computation that it names, if that is new and not
    stored. -/
def expand (d : Draft) : Code → List SharedId → List Code × List SharedId
  | .andThen first rest, found => ([first, rest], found)
  | .setVariable _ value, found => ([value], found)
  | .loop times body, found => ([times, body], found)
  | .branch condition yes no, found => ([condition, yes, no], found)
  | .shared id _, found => if found.contains id then ([], found) else ((d.pending? id).toList, id :: found)
  | _, found => ([], found)

/-- A search that takes any of the pieces of code that are left, one after the
    other. -/
inductive Visits (d : Draft) : List Code → List SharedId → List SharedId → Prop
  | nil {found} : Visits d [] found found
  | next {todo c rest found found'} : todo.Perm (c :: rest) →
    Visits d ((d.expand c found).1 ++ rest) (d.expand c found).2 found' → Visits d todo found found'

variable {d : Draft}

/-- One step of a search. -/
theorem search_expand {c : Code} {rest : List Code} {found found' : List SharedId}
    (h : Search d.awaits (d.expand c found).2 (((d.expand c found).1 ++ rest).flatMap Code.mentions) found') :
    Search d.awaits found ((c :: rest).flatMap Code.mentions) found' := by
  cases c with
  | shared id ty =>
    by_cases hknown : id ∈ found
    · -- a root that is known adds nothing
      simp only [expand, List.contains_iff_mem, hknown, if_true, List.nil_append] at h
      exact (Search.known (by simpa [Code.mentions] using hknown)).append h
    · simp only [expand, List.contains_iff_mem, hknown, if_false] at h
      refine Search.enter_cons (h.of_roots fun id' => ?_)
      rw [List.flatMap_append, List.mem_append, List.mem_append, awaits]
      cases d.pending? id <;> simp
  | _ => simpa [expand, Code.mentions] using h

theorem Visits.search {todo : List Code} {found found' : List SharedId} (h : d.Visits todo found found') :
    Search d.awaits found (todo.flatMap Code.mentions) found' := by
  induction h with
  | nil => exact .known (by simp)
  | next hperm _ ih => exact (search_expand ih).of_roots fun id => (hperm.flatMap_right _).mem_iff.symm

/-- The search in depth is one of them. -/
theorem Collects.visits {c : Code} {rest : List Code} {found found₁ found' : List SharedId}
    (h : d.Collects c found found₁) (hrest : d.Visits rest found₁ found') : d.Visits (c :: rest) found found' := by
  induction h generalizing rest found' with
  | op => exact .next (.refl _) hrest
  | done => exact .next (.refl _) hrest
  | raw => exact .next (.refl _) hrest
  | getVariable => exact .next (.refl _) hrest
  | andThen _ _ ihf ihr => exact .next (.refl _) (ihf (ihr hrest))
  | known hknown => exact .next (.refl _) (by simpa [expand, hknown] using hrest)
  | settled hnew hpending => exact .next (.refl _) (by simpa [expand, hnew, hpending] using hrest)
  | enter hnew hpending _ ih => exact .next (.refl _) (by simpa [expand, hnew, hpending] using ih hrest)
  | setVariable _ ih => exact .next (.refl _) (ih hrest)
  | loop _ _ iht ihb => exact .next (.refl _) (iht (ihb hrest))
  | branch _ _ _ ihc ihy ihn => exact .next (.refl _) (ihc (ihy (ihn hrest)))

theorem visits_foldl_uses (pieces : List Code) (found : List SharedId) :
    d.Visits pieces found (pieces.foldl (fun found c => d.usesNested d.shared.length c found) found) := by
  induction pieces generalizing found with
  | nil => exact .nil
  | cons c rest ih => exact (collects_usesNested c (unseen_le_length found)).visits (ih _)

theorem visits_uses (d : Draft) (pieces : List Code) : d.Visits pieces [] (d.uses pieces) := visits_foldl_uses pieces []

/-! ## Pieces that were searched before -/

/-- What is found in two groups of pieces is what is found in either. -/
theorem mem_uses_append {pieces pieces' : List Code} {id : SharedId} :
    id ∈ d.uses (pieces ++ pieces') ↔ id ∈ d.uses pieces ∨ id ∈ d.uses pieces' := by
  have hboth := d.search_uses (pieces ++ pieces')
  have hfirst := d.search_uses pieces
  have hsecond := d.search_uses pieces'
  rw [List.flatMap_append] at hboth
  constructor
  · -- what is found in either group is closed
    intro hid
    refine hboth.least (fun id => id ∈ d.uses pieces ∨ id ∈ d.uses pieces') ?_ ?_ id hid (by simp)
    · exact fun id hid => (List.mem_append.mp hid).imp (hfirst.found id) (hsecond.found id)
    · intro id hor id' hid'
      exact hor.imp (hfirst.closed id · (by simp) id' hid') (hsecond.closed id · (by simp) id' hid')
  · have hclosed : ∀ id ∈ d.uses (pieces ++ pieces'), ∀ id' ∈ d.awaits id, id' ∈ d.uses (pieces ++ pieces') :=
      fun id hid => hboth.closed id hid (by simp)
    rintro (hid | hid)
    · exact hfirst.least _ (fun id hid => hboth.found id (List.mem_append_left _ hid)) hclosed id hid (by simp)
    · exact hsecond.least _ (fun id hid => hboth.found id (List.mem_append_right _ hid)) hclosed id hid (by simp)

/-! ## The least set -/

/-- The set has all that the pieces of code name, and all that is named by the
    computations of those in it that are there and not stored. -/
structure Encloses (d : Draft) (pieces : List Code) (ids : Set SharedId) : Prop where
  named : ∀ c ∈ pieces, ∀ id ∈ c.mentions, id ∈ ids
  closed : ∀ id ∈ ids, ∀ entry : Shared, d.shared[id]? = some entry → d.isStored id = false →
    ∀ id' ∈ entry.value.mentions, id' ∈ ids

theorem mem_awaits_iff {id id' : SharedId} : id' ∈ d.awaits id ↔
    ∃ entry : Shared, d.shared[id]? = some entry ∧ d.isStored id = false ∧ id' ∈ entry.value.mentions := by
  unfold awaits pending?
  cases d.isStored id <;> cases d.shared[id]? <;> simp

theorem encloses_iff {pieces : List Code} {ids : Set SharedId} : d.Encloses pieces ids ↔
    (∀ id ∈ pieces.flatMap Code.mentions, id ∈ ids) ∧ ∀ id ∈ ids, ∀ id' ∈ d.awaits id, id' ∈ ids := by
  constructor
  · intro h
    constructor
    · intro id hid
      obtain ⟨c, hc, hmention⟩ := List.mem_flatMap.mp hid
      exact h.named c hc id hmention
    · intro id hid id' hid'
      obtain ⟨entry, hentry, hstored, hmention⟩ := mem_awaits_iff.mp hid'
      exact h.closed id hid entry hentry hstored id' hmention
  · rintro ⟨hnamed, hclosed⟩
    constructor
    · intro c hc id hid
      exact hnamed id (List.mem_flatMap.mpr ⟨c, hc, hid⟩)
    · intro id hid entry hentry hstored id' hid'
      exact hclosed id hid id' (mem_awaits_iff.mpr ⟨entry, hentry, hstored, hid'⟩)

/-- A search for uses finds the least set that encloses the code. It is one of
    those that take what is left in any order, which all find this set. Going
    on from what was found in earlier pieces of code, it adds this set and
    nothing else. -/
theorem uses_isLeast (d : Draft) (after : List Code) :
    IsLeast {ids | d.Encloses after ids} {id | id ∈ d.uses after} ∧
    d.Visits after [] (d.uses after) ∧
    (∀ found, d.Visits after [] found → ∀ id, id ∈ found ↔ id ∈ d.uses after) ∧
    ∀ earlier id, id ∈ d.uses (earlier ++ after) ↔ id ∈ d.uses earlier ∨ id ∈ d.uses after := by
  have hsearch := d.search_uses after
  refine ⟨⟨?_, ?_⟩, d.visits_uses after, ?_, fun _ _ => mem_uses_append⟩
  · exact encloses_iff.mpr ⟨hsearch.found, fun id hid => hsearch.closed id hid (by simp)⟩
  · intro ids hids id hid
    obtain ⟨hnamed, hclosed⟩ := encloses_iff.mp hids
    exact hsearch.least (· ∈ ids) hnamed hclosed id hid (by simp)
  · intro found hvisits id
    exact hvisits.search.mem_iff hsearch

/-- Two numbers that need each other, and a third one that is not there. The
    third one may be found first or last. -/
theorem uses_isLeast_entangled :
    entangled.uses [.shared 1 .double, .shared 2 .double] = [2, 0, 1] ∧
    entangled.Visits [.shared 1 .double, .shared 2 .double] [] [0, 1, 2] ∧
    (∀ id, id ∈ [0, 1, 2] ↔ id ∈ entangled.uses [.shared 1 .double, .shared 2 .double]) ∧
    (1 ∈ entangled.uses [.shared 0 .double] ∧ 1 ∈ entangled.uses ([.shared 0 .double] ++ [.shared 2 .double])) := by
  have hvisits : entangled.Visits [.shared 1 .double, .shared 2 .double] [] [0, 1, 2] :=
    .next (.swap _ _ _) (visits_foldl_uses [.shared 1 .double] [2])
  obtain ⟨-, -, hany, -⟩ := uses_isLeast entangled [.shared 1 .double, .shared 2 .double]
  obtain ⟨-, -, -, hearlier⟩ := uses_isLeast entangled [.shared 2 .double]
  have hone : 1 ∈ entangled.uses [.shared 0 .double] := by decide
  refine ⟨rfl, hvisits, hany _ hvisits, hone, ?_⟩
  exact (hearlier _ 1).mpr (.inl hone)

end Draft

end FlowGraph
