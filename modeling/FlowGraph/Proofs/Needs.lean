import Mathlib.Data.Finset.Card
import FlowGraph.Proofs.Shape

/-! # What code needs

    Before the paths of a program part, the draft looks for the shared
    computations that more than one of them needs. This search follows what
    computations name, but not beyond those that are stored.

    Main statement: if all that the stored ones name is stored as well, the
    search finds of the others exactly those that are needed
    (`Draft.mem_uses_iff`). It does not matter in which order they are found,
    nor how deep they are nested.
-/

namespace FlowGraph

/-! ## Searches -/

/-- A search from some roots: what is known after it and was not before is all
    that the roots lead to, and nothing else. -/
structure Search (next : SharedId → List SharedId) (before roots after : List SharedId) : Prop where
  kept : ∀ id ∈ before, id ∈ after
  found : ∀ id ∈ roots, id ∈ after
  closed : ∀ id ∈ after, id ∉ before → ∀ id' ∈ next id, id' ∈ after
  least (P : SharedId → Prop) : (∀ id ∈ roots, P id) → (∀ id, P id → ∀ id' ∈ next id, P id') →
    ∀ id ∈ after, id ∉ before → P id

namespace Search

variable {next : SharedId → List SharedId} {before between after roots roots' : List SharedId}

/-- Nothing new comes from roots that are known. -/
theorem known (h : ∀ id ∈ roots, id ∈ before) : Search next before roots before where
  kept _ hid := hid
  found := h
  closed _ hid hnew := absurd hid hnew
  least _ _ _ _ hid hnew := absurd hid hnew

theorem append (h : Search next before roots between) (h' : Search next between roots' after) :
    Search next before (roots ++ roots') after where
  kept id hid := h'.kept id (h.kept id hid)
  found id hid := by
    rcases List.mem_append.mp hid with hid | hid
    · exact h'.kept id (h.found id hid)
    · exact h'.found id hid
  closed id hid hnew id' hid' := by
    by_cases hbetween : id ∈ between
    · exact h'.kept id' (h.closed id hbetween hnew id' hid')
    · exact h'.closed id hid hbetween id' hid'
  least P hroots hP id hid hnew := by
    by_cases hbetween : id ∈ between
    · exact h.least P (fun id hid => hroots id (List.mem_append_left _ hid)) hP id hbetween hnew
    · exact h'.least P (fun id hid => hroots id (List.mem_append_right _ hid)) hP id hid hbetween

/-- One that counts as known is entered. -/
theorem enter {id : SharedId} (h : Search next (id :: before) (next id) after) :
    Search next before [id] after where
  kept id' hid' := h.kept id' (List.mem_cons_of_mem _ hid')
  found id' hid' := by
    obtain rfl := List.mem_singleton.mp hid'
    exact h.kept id' List.mem_cons_self
  closed id' hid' hnew := by
    by_cases heq : id' = id
    · subst heq
      exact h.found
    · exact h.closed id' hid' (by simp [heq, hnew])
  least P hroots hP id' hid' hnew := by
    have hid : P id := hroots id (List.mem_singleton.mpr rfl)
    by_cases heq : id' = id
    · exact heq ▸ hid
    · exact h.least P (hP id hid) hP id' hid' (by simp [heq, hnew])

end Search

/-! ## The search for uses -/

namespace Draft

variable {d : Draft}

/-- What the computation behind a shared value names. -/
def mentions (d : Draft) (id : SharedId) : List SharedId :=
  (d.shared[id]?).elim [] fun entry => entry.value.mentions

theorem mentions_eq {id : SharedId} {entry : Shared} (h : d.shared[id]? = some entry) :
    d.mentions id = entry.value.mentions := by
  simp [mentions, h]

/-- What it names as long as it is not stored. -/
def awaits (d : Draft) (id : SharedId) : List SharedId := (d.pending? id).elim [] Code.mentions

theorem awaits_of_stored {id : SharedId} (h : id ∈ d.stored) : d.awaits id = [] := by
  simp [awaits, pending?, isStored, h]

theorem awaits_of_not_stored {id : SharedId} (h : id ∉ d.stored) : d.awaits id = d.mentions id := by
  simp only [awaits, pending?, isStored, mentions, List.contains_iff_mem, h, if_false]
  cases d.shared[id]? <;> rfl

theorem Reaches.mentions {c : Code} {id id' : SharedId} (h : d.Reaches c id) (hid' : id' ∈ d.mentions id) :
    d.Reaches c id' := by
  unfold Draft.mentions at hid'
  cases hentry : d.shared[id]? with
  | none => simp [hentry] at hid'
  | some entry => exact .through h hentry (by simpa [hentry] using hid')

/-- What the code needs is in every set with what it names that is closed. -/
theorem Reaches.least {c : Code} {P : SharedId → Prop} (hroots : ∀ id ∈ c.mentions, P id)
    (hP : ∀ id, P id → ∀ id' ∈ d.mentions id, P id') {id : SharedId} (h : d.Reaches c id) : P id := by
  induction h with
  | mention hid => exact hroots _ hid
  | through _ hentry hid ih => exact hP _ ih _ (mentions_eq hentry ▸ hid)

/-- The number of shared values that have not been found. -/
def unseen (d : Draft) (found : List SharedId) : Nat :=
  ((Finset.range d.shared.length).filter (· ∉ found)).card

theorem unseen_le_length (found : List SharedId) : d.unseen found ≤ d.shared.length :=
  (Finset.card_filter_le _ _).trans_eq (Finset.card_range _)

theorem unseen_mono {found found' : List SharedId} (h : ∀ id ∈ found, id ∈ found') :
    d.unseen found' ≤ d.unseen found := by
  refine Finset.card_le_card fun id hid => ?_
  simp only [Finset.mem_filter] at hid ⊢
  exact ⟨hid.1, fun hfound => hid.2 (h id hfound)⟩

theorem unseen_cons_lt {id : SharedId} (hlt : id < d.shared.length) {found : List SharedId}
    (hid : id ∉ found) : d.unseen (id :: found) < d.unseen found := by
  refine Finset.card_lt_card (Finset.ssubset_iff_subset_ne.mpr ⟨fun id' hid' => ?_, fun heq => ?_⟩)
  · simp only [Finset.mem_filter, List.mem_cons, not_or] at hid' ⊢
    exact ⟨hid'.1, hid'.2.2⟩
  · have hmem : id ∈ (Finset.range d.shared.length).filter (· ∉ found) := by simp [hlt, hid]
    simp [← heq] at hmem

theorem lt_of_pending {id : SharedId} {value : Code} (h : d.pending? id = some value) :
    id < d.shared.length := by
  unfold pending? at h
  split at h
  · cases h
  · obtain ⟨entry, hentry, -⟩ := Option.map_eq_some_iff.mp h
    exact (List.getElem?_eq_some_iff.mp hentry).1

end Draft

namespace Draft

/-- The search in a piece of code, from what was found before it to what is
    found behind it. A computation that is new and not stored is searched as
    well, however deep this leads. -/
inductive Collects (d : Draft) : Code → List SharedId → List SharedId → Prop
  | op {o ty found} : Collects d (.op o ty) found found
  | done {ty found} : Collects d (.done ty) found found
  | andThen {first rest found found₁ found₂} : Collects d first found found₁ → Collects d rest found₁ found₂ →
    Collects d (.andThen first rest) found found₂
  | raw {ty ops found} : Collects d (.raw ty ops) found found
  | known {id ty found} : id ∈ found → Collects d (.shared id ty) found found
  | settled {id ty found} : id ∉ found → d.pending? id = none → Collects d (.shared id ty) found (id :: found)
  | enter {id ty value found found₁} : id ∉ found → d.pending? id = some value →
    Collects d value (id :: found) found₁ → Collects d (.shared id ty) found found₁
  | getVariable {name found} : Collects d (.getVariable name) found found
  | setVariable {name value found found₁} : Collects d value found found₁ →
    Collects d (.setVariable name value) found found₁
  | loop {times body found found₁ found₂} : Collects d times found found₁ → Collects d body found₁ found₂ →
    Collects d (.loop times body) found found₂
  | branch {condition yes no found found₁ found₂ found₃} : Collects d condition found found₁ →
    Collects d yes found₁ found₂ → Collects d no found₂ found₃ →
    Collects d (.branch condition yes no) found found₃

theorem Collects.search {d : Draft} {c : Code} {found found' : List SharedId} (h : d.Collects c found found') :
    Search d.awaits found c.mentions found' := by
  induction h with
  | op => exact .known (by simp [Code.mentions])
  | done => exact .known (by simp [Code.mentions])
  | andThen _ _ ihf ihr => exact ihf.append ihr
  | raw => exact .known (by simp [Code.mentions])
  | known hknown =>
    refine .known fun id hid => ?_
    obtain rfl := List.mem_singleton.mp hid
    exact hknown
  | settled _ hpending => exact .enter (.known (by simp [awaits, hpending]))
  | enter _ hpending _ ih => exact .enter (by simpa [awaits, hpending] using ih)
  | getVariable => exact .known (by simp [Code.mentions])
  | setVariable _ ih => exact ih
  | loop _ _ iht ihb => exact iht.append ihb
  | branch _ _ _ ihc ihy ihn => exact (ihc.append ihy).append ihn

end Draft

open Draft in
/-- Those that it enters need to be searched only while at most `n` have not
    been found. -/
theorem Code.collects_usesWith {d : Draft} {n : Nat} {enter : SharedId → List SharedId → List SharedId}
    (henter : ∀ id ty found, id ∉ found → d.unseen found ≤ n →
      d.Collects (.shared id ty) found (enter id (id :: found)))
    (c : Code) {found : List SharedId} (hfound : d.unseen found ≤ n) :
    d.Collects c found (c.usesWith enter found) := by
  -- what is found in one part is known in the next, and so there are no more unseen ones
  induction c generalizing found with
  | op o ty => exact .op
  | done ty => exact .done
  | raw ty ops => exact .raw
  | getVariable name => exact .getVariable
  | setVariable name value ih => exact .setVariable (ih hfound)
  | andThen first rest ihf ihr =>
    have hf := ihf hfound
    exact .andThen hf (ihr (Nat.le_trans (unseen_mono hf.search.kept) hfound))
  | shared id ty =>
    simp only [usesWith]
    split
    · next hknown => exact .known (List.contains_iff_mem.mp hknown)
    · next hnew => exact henter id ty found (by simpa using hnew) hfound
  | loop times body iht ihb =>
    have ht := iht hfound
    exact .loop ht (ihb (Nat.le_trans (unseen_mono ht.search.kept) hfound))
  | branch condition yes no ihc ihy ihn =>
    have hc := ihc hfound
    have hyes := Nat.le_trans (unseen_mono hc.search.kept) hfound
    have hy := ihy hyes
    exact .branch hc hy (ihn (Nat.le_trans (unseen_mono hy.search.kept) hyes))

namespace Draft

variable {d : Draft}

/-- As many may be open at once as have not been found. -/
theorem collects_usesNested {depth : Nat} (c : Code) {found : List SharedId} (h : d.unseen found ≤ depth) :
    d.Collects c found (d.usesNested depth c found) := by
  induction depth generalizing c found with
  | zero =>
    refine Code.collects_usesWith (fun id ty found hid hfound => .settled hid ?_) c h
    -- one that could be entered would be unseen
    by_contra hpending
    obtain ⟨value, hvalue⟩ := Option.ne_none_iff_exists'.mp hpending
    have hlt := unseen_cons_lt (lt_of_pending hvalue) hid
    omega
  | succ depth ih =>
    refine Code.collects_usesWith (fun id ty found hid hfound => ?_) c h
    cases hpending : d.pending? id with
    | none => exact .settled hid hpending
    | some value =>
      have hlt := unseen_cons_lt (lt_of_pending hpending) hid
      have hle : d.unseen (id :: found) ≤ depth := by omega
      exact .enter hid hpending (ih value hle)

theorem search_foldl_uses (pieces : List Code) (found : List SharedId) :
    Search d.awaits found (pieces.flatMap Code.mentions)
      (pieces.foldl (fun found c => d.usesNested d.shared.length c found) found) := by
  induction pieces generalizing found with
  | nil => exact .known (by simp)
  | cons c rest ih =>
    exact (collects_usesNested c (unseen_le_length found)).search.append (ih _)

/-- All that the stored ones name is stored. -/
def Sealed (d : Draft) : Prop := ∀ id ∈ d.stored, ∀ id' ∈ d.mentions id, id' ∈ d.stored

/-- Some of the pieces of code need it. -/
def Needs (d : Draft) (pieces : List Code) (id : SharedId) : Prop := ∃ c ∈ pieces, d.Reaches c id

theorem Needs.mentions {pieces : List Code} {id id' : SharedId} (h : d.Needs pieces id)
    (hid' : id' ∈ d.mentions id) : d.Needs pieces id' := by
  obtain ⟨c, hc, hreaches⟩ := h
  exact ⟨c, hc, hreaches.mentions hid'⟩

theorem search_uses (d : Draft) (pieces : List Code) :
    Search d.awaits [] (pieces.flatMap Code.mentions) (d.uses pieces) :=
  search_foldl_uses pieces []

/-- The search finds only what is needed. -/
theorem needs_of_mem_uses {pieces : List Code} {id : SharedId} (h : id ∈ d.uses pieces) : d.Needs pieces id := by
  refine (d.search_uses pieces).least (d.Needs pieces) ?_ ?_ id h (by simp)
  · intro id hid
    obtain ⟨c, hc, hmention⟩ := List.mem_flatMap.mp hid
    exact ⟨c, hc, .mention hmention⟩
  · intro id hneeds id' hid'
    by_cases hstored : id ∈ d.stored
    · simp [awaits_of_stored hstored] at hid'
    · exact hneeds.mentions (awaits_of_not_stored hstored ▸ hid')

/-- The search finds what is needed and not stored. -/
theorem mem_uses_iff (hd : d.Sealed) (pieces : List Code) {id : SharedId} (hid : id ∉ d.stored) :
    id ∈ d.uses pieces ↔ d.Needs pieces id := by
  have hsearch := d.search_uses pieces
  constructor
  · exact needs_of_mem_uses
  · rintro ⟨c, hc, hreaches⟩
    -- a way through one that is stored leads only to others that are
    refine (hreaches.least (P := fun id => id ∈ d.stored ∨ id ∈ d.uses pieces) ?_ ?_).resolve_left hid
    · exact fun id hmention => .inr (hsearch.found id (List.mem_flatMap.mpr ⟨c, hc, hmention⟩))
    · intro id hor id' hid'
      by_cases hstored : id ∈ d.stored
      · exact .inl (hd id hstored id' hid')
      · have hused := hor.resolve_left hstored
        exact .inr (hsearch.closed id hused (by simp) id' (by rwa [awaits_of_not_stored hstored]))

/-! ## What is computed ahead -/

theorem needs_singleton {c : Code} {id : SharedId} : d.Needs [c] id ↔ d.Reaches c id := by
  simp [Needs]

theorem needs_cons {c : Code} {rest : List Code} {id : SharedId} :
    d.Needs (c :: rest) id ↔ d.Reaches c id ∨ d.Needs rest id := by
  simp [Needs]

/-- Code needs what its parts need. -/
theorem reaches_iff_of_mentions {c first rest : Code} (h : c.mentions = first.mentions ++ rest.mentions)
    {id : SharedId} : d.Reaches c id ↔ d.Reaches first id ∨ d.Reaches rest id := by
  constructor
  · intro hreaches
    refine hreaches.least (P := fun id => d.Reaches first id ∨ d.Reaches rest id) (fun id hid => ?_)
      fun id hor id' hid' => ?_
    · rw [h] at hid
      exact (List.mem_append.mp hid).imp .mention .mention
    · exact hor.imp (Reaches.mentions · hid') (Reaches.mentions · hid')
  · rintro (hreaches | hreaches)
    · exact hreaches.of_mentions fun id hid => .mention (h ▸ List.mem_append_left _ hid)
    · exact hreaches.of_mentions fun id hid => .mention (h ▸ List.mem_append_right _ hid)

theorem reaches_branch_iff {condition yes no : Code} {id : SharedId} :
    d.Reaches (.branch condition yes no) id ↔
      d.Reaches condition id ∨ d.Reaches yes id ∨ d.Reaches no id := by
  have houter : d.Reaches (.branch condition yes no) id ↔
      d.Reaches (.andThen condition yes) id ∨ d.Reaches no id := reaches_iff_of_mentions rfl
  have hinner : d.Reaches (.andThen condition yes) id ↔ d.Reaches condition id ∨ d.Reaches yes id :=
    reaches_iff_of_mentions rfl
  rw [houter, hinner, or_assoc]

/-- What is computed ahead, without the test for drafts that share nothing. -/
theorem toHoist_eq (d : Draft) (regions after : List Code) :
    d.toHoist regions after = (List.range d.shared.length).reverse.filter fun id =>
      2 ≤ (d.uses after :: regions.map fun region => d.uses [region]).countP (·.contains id) := by
  unfold toHoist
  split
  · next hempty => simp [List.isEmpty_iff.mp hempty]
  · rfl

theorem mem_toHoist_iff {regions after : List Code} {id : SharedId} :
    id ∈ d.toHoist regions after ↔ id < d.shared.length ∧
      2 ≤ (d.uses after :: regions.map fun region => d.uses [region]).countP (·.contains id) := by
  rw [toHoist_eq]
  simp

/-- What goes ahead of the regions is needed by one of them. -/
theorem needs_of_mem_toHoist {regions after : List Code} {id : SharedId} (h : id ∈ d.toHoist regions after) :
    d.Needs regions id := by
  -- the code behind them counts once, and two are counted
  have htwo := (mem_toHoist_iff.mp h).2
  have hsome : 0 < (regions.map fun region => d.uses [region]).countP (·.contains id) := by
    rw [List.countP_cons] at htwo
    split at htwo <;> omega
  obtain ⟨found, hfound, hid⟩ := List.countP_pos_iff.mp hsome
  obtain ⟨region, hregion, rfl⟩ := List.mem_map.mp hfound
  exact ⟨region, hregion, needs_singleton.mp (needs_of_mem_uses (List.contains_iff_mem.mp hid))⟩

/-- Ahead of a loop goes what its body and the code behind it refer to. -/
theorem mem_toHoist_loop_iff_uses {body : Code} {after : List Code} {id : SharedId} :
    id ∈ d.toHoist [body] after ↔ id < d.shared.length ∧ id ∈ d.uses [body] ∧ id ∈ d.uses after := by
  rw [mem_toHoist_iff]
  by_cases h₁ : id ∈ d.uses after <;> by_cases h₂ : id ∈ d.uses [body] <;> simp [h₁, h₂]

/-- Ahead of a branch goes what its arms both refer to, and what one of them
    and the code behind them refer to. -/
theorem mem_toHoist_branch_iff_uses {yes no : Code} {after : List Code} {id : SharedId} :
    id ∈ d.toHoist [yes, no] after ↔ id < d.shared.length ∧ (id ∈ d.uses [yes] ∧ id ∈ d.uses [no] ∨
      (id ∈ d.uses [yes] ∨ id ∈ d.uses [no]) ∧ id ∈ d.uses after) := by
  rw [mem_toHoist_iff]
  by_cases h₁ : id ∈ d.uses after <;> by_cases h₂ : id ∈ d.uses [yes] <;>
    by_cases h₃ : id ∈ d.uses [no] <;> simp [h₁, h₂, h₃]

/-- Ahead of a loop goes what its body and the code behind it need. -/
theorem mem_toHoist_loop_iff (hd : d.Sealed) {body : Code} {after : List Code} {id : SharedId}
    (hlt : id < d.shared.length) (hid : id ∉ d.stored) :
    id ∈ d.toHoist [body] after ↔ d.Reaches body id ∧ d.Needs after id := by
  rw [mem_toHoist_loop_iff_uses, mem_uses_iff hd _ hid, mem_uses_iff hd _ hid, needs_singleton]
  exact and_iff_right hlt

/-- Ahead of a branch goes what its arms both need, and what one of them and
    the code behind them need. -/
theorem mem_toHoist_branch_iff (hd : d.Sealed) {yes no : Code} {after : List Code} {id : SharedId}
    (hlt : id < d.shared.length) (hid : id ∉ d.stored) :
    id ∈ d.toHoist [yes, no] after ↔ d.Reaches yes id ∧ d.Reaches no id ∨
      (d.Reaches yes id ∨ d.Reaches no id) ∧ d.Needs after id := by
  rw [mem_toHoist_branch_iff_uses, mem_uses_iff hd _ hid, mem_uses_iff hd _ hid, mem_uses_iff hd _ hid,
    needs_singleton, needs_singleton]
  exact and_iff_right hlt

end Draft

end FlowGraph
