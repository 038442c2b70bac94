import FlowGraph.Proofs.Pieces
import FlowGraph.Proofs.Sharing

/-! # What is computed ahead

    Ahead of the arms of a branch and of the body of a loop, the layout
    computes the shared values that two or more of them, and of the code
    behind them, refer to. It decides which these are in front of all of
    them, and does not look again when some of them are stored.

    * A computation that names others in arms or bodies of its own leaves
      them to these. So once it is stored, they may be computed ahead though
      nobody asks for them any more, and they are laid out twice
      (`Draft.finish_asks_twice`).
    * Nothing else goes wrong. Whoever no longer refers to a value when it is
      computed ahead refers to such a computation, stored meanwhile
      (`Hoist.Sound.uses_or_lost`). And if somebody still asks for each value
      by then, none is laid out twice (`Builds.once`).

    Main statement: `Draft.emit_hoists`.
-/

namespace FlowGraph

/-! ## References through what is not stored -/

namespace Draft

/-- The roots lead to it through values that are not stored. -/
inductive Seeks (d : Draft) (roots : List SharedId) : SharedId → Prop
  | root {id} : id ∈ roots → Seeks d roots id
  | next {id id'} : Seeks d roots id → id' ∈ d.awaits id → Seeks d roots id'

variable {d d' d'' : Draft} {roots roots' : List SharedId} {id : SharedId}

theorem Seeks.trans (h : d.Seeks roots id) (hroots : ∀ id ∈ roots, d.Seeks roots' id) : d.Seeks roots' id := by
  induction h with
  | root hid => exact hroots _ hid
  | next _ hid ih => exact .next ih hid

theorem Seeks.mono (h : d.Seeks roots id) (hroots : roots ⊆ roots') : d.Seeks roots' id :=
  h.trans fun _ hid => .root (hroots hid)

theorem not_seeks_nil : ¬d.Seeks [] id := by
  intro h
  induction h with
  | root hid => cases hid
  | next _ _ ih => exact ih

theorem seeks_append : d.Seeks (roots ++ roots') id ↔ d.Seeks roots id ∨ d.Seeks roots' id := by
  constructor
  · intro h
    induction h with
    | root hid => exact (List.mem_append.mp hid).imp .root .root
    | next _ hid ih => exact ih.imp (.next · hid) (.next · hid)
  · rintro (h | h)
    · exact h.mono (List.subset_append_left _ _)
    · exact h.mono (List.subset_append_right _ _)

/-- The search for uses finds all of them. -/
theorem mem_uses_iff_seeks {pieces : List Code} :
    id ∈ d.uses pieces ↔ d.Seeks (pieces.flatMap Code.mentions) id := by
  have hsearch := d.search_uses pieces
  constructor
  · intro h
    exact hsearch.least (d.Seeks _) (fun _ hid => .root hid) (fun _ hid _ hid' => .next hid hid') id h (by simp)
  · intro h
    induction h with
    | root hid => exact hsearch.found _ hid
    | next _ hid ih => exact hsearch.closed _ ih (by simp) _ hid

theorem mem_uses_singleton {c : Code} : id ∈ d.uses [c] ↔ d.Seeks c.mentions id := by
  rw [mem_uses_iff_seeks, List.flatMap_singleton]

theorem Precedes.mentions_eq (h : d.Precedes d') : d'.mentions = d.mentions := by
  have hbare : ∀ e : Draft, ∀ id, e.mentions id = ((e.shared.map bare)[id]?).elim [] (·.value.mentions) := by
    intro e id
    rw [Draft.mentions, List.getElem?_map]
    cases e.shared[id]? <;> rfl
  funext id
  rw [hbare, hbare, h.bare_eq]

/-- Less is sought when more is stored. -/
theorem Seeks.of_precedes (h : d.Precedes d') (hid : d'.Seeks roots id) : d.Seeks roots id := by
  induction hid with
  | root hid => exact .root hid
  | @next id id' _ hid' ih =>
    refine .next ih ?_
    by_cases hstored : id ∈ d'.stored
    · rw [awaits_of_stored hstored] at hid'
      cases hid'
    · rw [awaits_of_not_stored hstored, h.mentions_eq] at hid'
      rwa [awaits_of_not_stored fun hold => hstored (h.stored id hold)]

end Draft

open Draft

/-! ## On every path, or only on some -/

namespace Code

/-- What the code names on every path. -/
def surely : Code → List SharedId
  | .shared id _ => [id]
  | .andThen first rest => first.surely ++ rest.surely
  | .setVariable _ value => value.surely
  | .loop times _ => times.surely
  | .branch condition _ _ => condition.surely
  | _ => []

/-- What it names in arms of branches and bodies of loops. -/
def maybe : Code → List SharedId
  | .andThen first rest => first.maybe ++ rest.maybe
  | .setVariable _ value => value.maybe
  | .loop times body => times.maybe ++ body.mentions
  | .branch condition yes no => condition.maybe ++ (yes.mentions ++ no.mentions)
  | _ => []

theorem surely_or_maybe {c : Code} {id : SharedId} (h : id ∈ c.mentions) : id ∈ c.surely ∨ id ∈ c.maybe := by
  induction c with
  | shared id' ty => exact .inl h
  | setVariable name value ih => exact ih h
  | andThen first rest ihf ihr =>
    simp only [mentions, surely, maybe, List.mem_append] at h ⊢
    rcases h with h | h
    · exact (ihf h).imp .inl .inl
    · exact (ihr h).imp .inr .inr
  | loop times body iht ihb =>
    simp only [mentions, surely, maybe, List.mem_append] at h ⊢
    rcases h with h | h
    · exact (iht h).imp_right .inl
    · exact .inr (.inr h)
  | branch condition yes no ihc ihy ihn =>
    simp only [mentions, surely, maybe, List.mem_append] at h ⊢
    rcases h with (h | h) | h
    · exact (ihc h).imp_right .inl
    · exact .inr (.inr (.inl h))
    · exact .inr (.inr (.inr h))
  | _ => cases h

end Code

namespace Job

/-- What the job stores on every path. -/
def surely : Job → List SharedId
  | .code c _ => c.surely
  | .stores ids _ => ids

end Job

namespace Draft

variable {d d' d'' d₁ : Draft}

/-- What was stored between the drafts has brought with it what it names on
    every path. -/
def Filled (d d' : Draft) : Prop :=
  ∀ id entry, id ∈ d'.stored → id ∉ d.stored → d.shared[id]? = some entry →
    ∀ id' ∈ entry.value.surely, id' < d.shared.length → id' ∈ d'.stored

theorem Filled.of_stored (h : d'.stored = d.stored) : d.Filled d' :=
  fun _ _ hid hnew => absurd (h ▸ hid) hnew

theorem Filled.trans (h : d.Filled d') (hd : d.Precedes d') (h' : d'.Filled d'') (hd' : d'.Precedes d'') :
    d.Filled d'' := by
  intro id entry hid hnew hentry id' hid' hlt
  by_cases hold : id ∈ d'.stored
  · exact hd'.stored id' (h id entry hold hnew hentry id' hid' hlt)
  · obtain ⟨entry', hentry', hvalue⟩ := hd.getElem? hentry
    exact h' id entry' hid hold hentry' id' (hvalue ▸ hid') (hd.length_eq ▸ hlt)

/-- Only one more is stored when a computation is entered. -/
theorem stored_enter {id : SharedId} {entry : Shared} (hentry : d.shared[id]? = some entry) {slot : Nat}
    (hslot : d.slotOf id entry = (slot, d₁)) : (d₁.markStored id).stored = id :: d.stored := by
  rw [markStored, (reserves_slotOf hentry hslot).stored_eq]

theorem Filled.enter {id : SharedId} {entry : Shared} (hentry : d.shared[id]? = some entry) {slot : Nat}
    (hslot : d.slotOf id entry = (slot, d₁)) (h : (d₁.markStored id).Filled d')
    (hself : ∀ id' ∈ entry.value.surely, id' < (d₁.markStored id).shared.length → id' ∈ d'.stored) :
    d.Filled d' := by
  have hprecedes := precedes_enter hentry hslot
  intro other entry' hother hnew hentry' id' hid' hlt
  by_cases heq : other = id
  · subst heq
    cases Option.some.inj (hentry'.symm.trans hentry)
    exact hself id' hid' (hprecedes.length_eq ▸ hlt)
  · obtain ⟨entry₂, hentry₂, hvalue⟩ := hprecedes.getElem? hentry'
    refine h other entry₂ hother ?_ hentry₂ id' (hvalue ▸ hid') (hprecedes.length_eq ▸ hlt)
    rw [stored_enter hentry hslot]
    simp [heq, hnew]

end Draft

/-- All that a job names on every path is stored behind it, and the same goes
    for the computations that it has stored. -/
theorem Builds.filled {job : Job} {used : Nat} {d d' : Draft} {p : Piece} (h : Builds job used d p d') :
    d.Filled d' ∧ ∀ id ∈ job.surely, id < d.shared.length → id ∈ d'.stored := by
  induction h with
  | op => exact ⟨.of_stored rfl, by simp [Job.surely, Code.surely]⟩
  | done => exact ⟨.of_stored rfl, by simp [Job.surely, Code.surely]⟩
  | raw => exact ⟨.of_stored rfl, by simp [Job.surely, Code.surely]⟩
  | andThen h₁ h₂ ih₁ ih₂ =>
    refine ⟨ih₁.1.trans h₁.precedes ih₂.1 h₂.precedes, fun id hid hlt => ?_⟩
    rcases List.mem_append.mp hid with hid | hid
    · exact h₂.precedes.stored id (ih₁.2 id hid hlt)
    · exact ih₂.2 id hid (h₁.precedes.length_eq ▸ hlt)
  | unknown hnone =>
    refine ⟨.of_stored rfl, fun id hid hlt => ?_⟩
    cases List.mem_singleton.mp hid
    exact absurd hlt (Nat.not_lt.mpr (List.getElem?_eq_none_iff.mp hnone))
  | load hentry hslot hold =>
    have hstored := (reserves_slotOf hentry hslot).stored_eq
    refine ⟨.of_stored hstored, fun id hid _ => ?_⟩
    cases List.mem_singleton.mp hid
    simpa [hstored, isStored] using hold
  | compute hentry hslot _ hvalue ih =>
    -- it is marked before its value is laid out
    refine ⟨.enter hentry hslot ih.1 ih.2, fun id hid _ => ?_⟩
    cases List.mem_singleton.mp hid
    exact hvalue.precedes.stored _ List.mem_cons_self
  | getVariable hslot =>
    exact ⟨.of_stored (reserves_of_variableSlot hslot).stored_eq, by simp [Job.surely, Code.surely]⟩
  | setVariable h hslot ih =>
    have hreserves := reserves_of_variableSlot hslot
    refine ⟨ih.1.trans h.precedes (.of_stored hreserves.stored_eq) hreserves.precedes, fun id hid hlt => ?_⟩
    exact hreserves.stored_eq ▸ ih.2 id hid hlt
  | @loop _ _ _ used _ _ d₁ _ d₂ _ _ h₁ h₂ _ ih₁ ih₂ _ =>
    -- what the body has stored is forgotten
    have hprecedes := (d₁.precedes_enterLoop used).trans h₂.precedes
    have hahead : d₁.Filled d₂ := ih₂.1
    have hall := ih₁.1.trans h₁.precedes hahead hprecedes
    exact ⟨hall, fun id hid hlt => hprecedes.stored id (ih₁.2 id hid hlt)⟩
  | branch h₁ h₂ _ _ ih₁ ih₂ _ _ =>
    have hall := ih₁.1.trans h₁.precedes ih₂.1 h₂.precedes
    exact ⟨hall, fun id hid hlt => h₂.precedes.stored id (ih₁.2 id hid hlt)⟩
  | nil => exact ⟨.of_stored rfl, by simp [Job.surely]⟩
  | @skip id rest _ _ d _ _ hpending h ih =>
    refine ⟨ih.1, fun other hother hlt => ?_⟩
    rcases List.mem_cons.mp hother with rfl | hother
    · refine h.precedes.stored other (Classical.byContradiction fun hnew => ?_)
      simp [pending?, isStored, hnew, List.getElem?_eq_getElem hlt] at hpending
    · exact ih.2 other hother hlt
  | store hentry hslot _ hvalue hrest ih₁ ih₂ =>
    have hprecedes := (precedes_enter hentry hslot).trans hvalue.precedes
    have hfirst := Filled.enter hentry hslot ih₁.1 ih₁.2
    refine ⟨hfirst.trans hprecedes ih₂.1 hrest.precedes, fun other hother hlt => ?_⟩
    rcases List.mem_cons.mp hother with rfl | hother
    · exact hrest.precedes.stored other (hvalue.precedes.stored other List.mem_cons_self)
    · exact ih₂.2 other hother (hprecedes.length_eq ▸ hlt)

/-! ## The moments of computing ahead -/

/-- Computing ahead of regions: what was computed, each with the draft in
    front of it. -/
structure Hoist where
  start : Draft
  regions : List Code
  after : List Code
  moments : List (SharedId × Draft)

namespace Piece

/-- What is computed ahead, with the draft in front of it. -/
def moments : Piece → List (SharedId × Draft)
  | .append first second => first.moments ++ second.moments
  | .store moment id _ _ _ => [(id, moment)]
  | _ => []

/-- Every time that something is computed ahead. -/
def hoists : Piece → List Hoist
  | .append first second => first.hoists ++ second.hoists
  | .assign _ _ value => value.hoists
  | .compute _ _ _ value => value.hoists
  | .store _ _ _ _ value => value.hoists
  | .hoisted start regions after stores => ⟨start, regions, after, stores.moments⟩ :: stores.hoists
  | .loop _ _ times ahead body => times.hoists ++ ahead.hoists ++ body.hoists
  | .branch _ condition ahead yes no => condition.hoists ++ ahead.hoists ++ yes.hoists ++ no.hoists
  | _ => []

end Piece

namespace Hoist

/-- The code behind the regions, and each region. -/
def parts (h : Hoist) : List (List Code) := h.after :: h.regions.map fun region => [region]

/-- How many of them refer to the shared value through values that are not
    stored in this draft. -/
def demand (h : Hoist) (d : Draft) (id : SharedId) : Nat := h.parts.countP fun part => (d.uses part).contains id

/-- The choice was made behind this draft, and the moments lie behind the
    choice. -/
structure Sound (h : Hoist) (d : Draft) : Prop where
  behind : d.Precedes h.start
  moment : ∀ id moment, (id, moment) ∈ h.moments → id ∈ h.start.toHoist h.regions h.after ∧ id ∉ moment.stored ∧
    h.start.Precedes moment ∧ h.start.Filled moment

theorem Sound.of_precedes {h : Hoist} {d d' : Draft} (hsound : h.Sound d') (hd : d.Precedes d') : h.Sound d :=
  ⟨hd.trans hsound.behind, hsound.moment⟩

theorem mem_toHoist_iff_demand {h : Hoist} {id : SharedId} :
    id ∈ h.start.toHoist h.regions h.after ↔ id < h.start.shared.length ∧ 2 ≤ h.demand h.start id := by
  rw [mem_toHoist_iff, demand, parts]
  simp [List.countP_cons, List.countP_map, Function.comp_def]

end Hoist

theorem Builds.moments {ids : List SharedId} {after : List Code} {used : Nat} {d d' : Draft} {p : Piece}
    (h : Builds (.stores ids after) used d p d') {id : SharedId} {moment : Draft} (hid : (id, moment) ∈ p.moments) :
    id ∈ ids ∧ id ∉ moment.stored ∧ d.Precedes moment ∧ d.Filled moment := by
  generalize hjob : Job.stores ids after = job at h
  induction h generalizing ids with
  | nil => cases hid
  | skip _ _ ih =>
    cases hjob
    exact (ih hid rfl).imp_left (List.mem_cons_of_mem _)
  | store hentry hslot hnew hvalue _ _ ih =>
    cases hjob
    rcases List.mem_append.mp hid with hid | hid
    · cases List.mem_singleton.mp hid
      exact ⟨List.mem_cons_self, by simpa [isStored] using hnew, .refl _, .of_stored rfl⟩
    · obtain ⟨hmem, hlater, hprecedes, hfilled⟩ := ih hid rfl
      have hfirst := (precedes_enter hentry hslot).trans hvalue.precedes
      have hcomputed := Filled.enter hentry hslot hvalue.filled.1 hvalue.filled.2
      exact ⟨List.mem_cons_of_mem _ hmem, hlater, hfirst.trans hprecedes, hcomputed.trans hfirst hfilled hprecedes⟩
  | _ => cases hjob

theorem Builds.sound_hoisted {start d : Draft} {regions after behind : List Code} {used : Nat} {p : Piece}
    (h : Builds (.stores (start.toHoist regions after) behind) used start p d)
    (hp : ∀ hoist ∈ p.hoists, hoist.Sound start) :
    ∀ hoist ∈ (Piece.hoisted start regions after p).hoists, hoist.Sound start :=
  List.forall_mem_cons.mpr ⟨⟨.refl start, fun _ _ => h.moments⟩, hp⟩

theorem Builds.sound {job : Job} {used : Nat} {d d' : Draft} {p : Piece} (h : Builds job used d p d') :
    ∀ hoist ∈ p.hoists, hoist.Sound d := by
  -- what holds from a later draft on holds from the first one on, as that one precedes it
  induction h with
  | andThen h₁ _ ih₁ ih₂ =>
    exact List.forall_mem_append.mpr ⟨ih₁, fun hoist hmem => (ih₂ hoist hmem).of_precedes h₁.precedes⟩
  | compute hentry hslot _ _ ih => exact fun hoist hmem => (ih hoist hmem).of_precedes (precedes_enter hentry hslot)
  | setVariable _ _ ih => exact ih
  | @loop _ _ _ used _ _ d₁ _ _ _ _ h₁ h₂ _ ih₁ ih₂ ih₃ =>
    have hbegin := h₁.precedes.trans (d₁.precedes_enterLoop used)
    refine List.forall_mem_append.mpr ⟨List.forall_mem_append.mpr ⟨ih₁, fun hoist hmem => ?_⟩, fun hoist hmem => ?_⟩
    · exact (h₂.sound_hoisted ih₂ hoist hmem).of_precedes hbegin
    · exact (ih₃ hoist hmem).of_precedes (hbegin.trans h₂.precedes)
  | @branch _ _ _ _ _ _ _ _ _ d₂ _ _ _ _ h₁ h₂ h₃ _ ih₁ ih₂ ih₃ ih₄ =>
    have hfront := h₁.precedes.trans h₂.precedes
    have hbegin := d₂.precedes_beginBranch
    refine List.forall_mem_append.mpr ⟨List.forall_mem_append.mpr ⟨List.forall_mem_append.mpr
      ⟨ih₁, fun hoist hmem => ?_⟩, fun hoist hmem => ?_⟩, fun hoist hmem => ?_⟩
    · exact (h₂.sound_hoisted ih₂ hoist hmem).of_precedes h₁.precedes
    · exact (ih₃ hoist hmem).of_precedes (hfront.trans hbegin)
    · exact (ih₄ hoist hmem).of_precedes (hfront.trans (hbegin.trans h₃.precedes).restore)
  | skip _ _ ih => exact ih
  | store hentry hslot _ h₁ _ ih₁ ih₂ =>
    have henter := precedes_enter hentry hslot
    refine List.forall_mem_append.mpr ⟨fun hoist hmem => ?_, fun hoist hmem => ?_⟩
    · exact (ih₁ hoist hmem).of_precedes henter
    · exact (ih₂ hoist hmem).of_precedes (henter.trans h₁.precedes)
  | _ => exact List.forall_mem_nil _

/-- Whoever sought a value seeks it still, or has lost it to a computation
    that was stored meanwhile and leads there by an arm or a body. -/
theorem Draft.Filled.seeks_or_lost {start moment : Draft} (h : start.Filled moment) (hd : start.Precedes moment)
    {roots : List SharedId} {id : SharedId} (hid : start.Seeks roots id) (hlt : id < start.shared.length)
    (hnew : id ∉ moment.stored) :
    moment.Seeks roots id ∨ ∃ (lost : SharedId) (entry : Shared), start.Seeks roots lost ∧
      lost ∈ moment.stored ∧ lost ∉ start.stored ∧ start.shared[lost]? = some entry ∧
      start.Seeks entry.value.maybe id := by
  -- on the way from the roots, what is stored meanwhile may come in between
  suffices hcases : start.shared.length ≤ id ∨ id ∈ moment.stored ∨ moment.Seeks roots id ∨
      ∃ (lost : SharedId) (entry : Shared), start.Seeks roots lost ∧ lost ∈ moment.stored ∧ lost ∉ start.stored ∧
        start.shared[lost]? = some entry ∧ start.Seeks entry.value.maybe id by
    exact (hcases.resolve_left (Nat.not_le.mpr hlt)).resolve_left hnew
  clear hlt hnew
  induction hid with
  | root hid => exact .inr (.inr (.inl (.root hid)))
  | @next id id' hseeks hid' ih =>
    have hold : id ∉ start.stored := by
      intro hstored
      rw [awaits_of_stored hstored] at hid'
      cases hid'
    have hmention := hid'
    rw [awaits_of_not_stored hold] at hmention
    obtain ⟨entry, hentry⟩ : ∃ entry, start.shared[id]? = some entry := by
      refine Option.ne_none_iff_exists'.mp fun hnone => ?_
      simp [Draft.mentions, hnone] at hmention
    rw [mentions_eq hentry] at hmention
    by_cases hstored : id ∈ moment.stored
    · -- stored meanwhile, with all that it names on every path
      rcases Code.surely_or_maybe hmention with hsurely | hmaybe
      · refine (Nat.lt_or_ge id' start.shared.length).symm.imp_right fun hlt => .inl ?_
        exact h id entry hstored hold hentry id' hsurely hlt
      · exact .inr (.inr (.inr ⟨id, entry, hseeks, hstored, hold, hentry, .root hmaybe⟩))
    · rcases ih with hge | hstored' | hstill | ⟨lost, entry', hlost, hin, hout, hentry', hway⟩
      · exact absurd (List.getElem?_eq_some_iff.mp hentry).1 (Nat.not_lt.mpr hge)
      · exact absurd hstored' hstored
      · refine .inr (.inr (.inl (.next hstill ?_)))
        rwa [awaits_of_not_stored hstored, hd.mentions_eq, mentions_eq hentry]
      · exact .inr (.inr (.inr ⟨lost, entry', hlost, hin, hout, hentry', .next hway hid'⟩))

/-! ## Every computation at most once -/

/-- A computation that is still to be laid out for the roots. -/
structure Draft.Due (d : Draft) (roots : List SharedId) (id : SharedId) : Prop where
  new : id ∉ d.stored
  known : id < d.shared.length
  sought : d.Seeks roots id

namespace Draft.Due

variable {d d' d₁ : Draft} {roots roots' : List SharedId} {id : SharedId}

theorem trans (h : d.Due roots id) (hroots : ∀ id ∈ roots, d.Seeks roots' id) : d.Due roots' id :=
  ⟨h.new, h.known, h.sought.trans hroots⟩

theorem mono (h : d.Due roots id) (hroots : roots ⊆ roots') : d.Due roots' id :=
  h.trans fun _ hid => .root (hroots hid)

/-- What is due later was due before. -/
theorem of_precedes (h : d'.Due roots id) (hd : d.Precedes d') : d.Due roots id :=
  ⟨fun hold => h.new (hd.stored id hold), hd.length_eq ▸ h.known, h.sought.of_precedes hd⟩

/-- A computation that is entered was due, and so is all that it needs. -/
theorem enter {entry : Shared} (hentry : d.shared[id]? = some entry) {slot : Nat}
    (hslot : d.slotOf id entry = (slot, d₁)) (hnew : d.isStored id = false) {ids : List SharedId}
    (h : ∀ other ∈ ids, (d₁.markStored id).Due entry.value.mentions other) :
    ∀ other ∈ id :: ids, d.Due [id] other := by
  have hout : id ∉ d.stored := by simpa [isStored] using hnew
  have hself : d.Due [id] id := ⟨hout, (List.getElem?_eq_some_iff.mp hentry).1, .root List.mem_cons_self⟩
  refine List.forall_mem_cons.mpr ⟨hself, fun other hother => ?_⟩
  refine ((h other hother).of_precedes (precedes_enter hentry hslot)).trans fun id' hid' => ?_
  refine .next hself.sought ?_
  rwa [awaits_of_not_stored hout, mentions_eq hentry]

end Draft.Due

theorem Draft.seeks_of_mem_toHoist {d : Draft} {yes no : Code} {after : List Code} {id : SharedId}
    (h : id ∈ d.toHoist [yes, no] after) : d.Seeks (yes.mentions ++ no.mentions) id := by
  rw [seeks_append, ← mem_uses_singleton, ← mem_uses_singleton]
  exact (mem_toHoist_branch_iff_uses.mp h).2.elim (fun h => .inl h.1) And.left

/-- Whatever a job lays out was due for it. -/
theorem Builds.due {job : Job} {used : Nat} {d d' : Draft} {p : Piece} (h : Builds job used d p d') :
    ∀ id ∈ p.computed, d.Due job.roots id := by
  induction h with
  | andThen h₁ _ ih₁ ih₂ =>
    refine List.forall_mem_append.mpr ⟨fun id hid => ?_, fun id hid => ?_⟩
    · exact (ih₁ id hid).mono (List.subset_append_left _ _)
    · exact ((ih₂ id hid).of_precedes h₁.precedes).mono (List.subset_append_right _ _)
  | compute hentry hslot hnew _ ih => exact .enter hentry hslot hnew ih
  | setVariable _ _ ih => exact ih
  | @loop times body after used d p₁ d₁ p₂ d₂ p₃ d₃ h₁ h₂ _ ih₁ ih₂ ih₃ =>
    have hbegin := h₁.precedes.trans (d₁.precedes_enterLoop used)
    refine List.forall_mem_append.mpr
      ⟨List.forall_mem_append.mpr ⟨fun id hid => ?_, fun id hid => ?_⟩, fun id hid => ?_⟩
    · exact (ih₁ id hid).mono (List.subset_append_left _ _)
    · -- what goes ahead is sought by the body
      have hbody := (ih₂ id hid).trans fun _ hid => mem_uses_singleton.mp (mem_toHoist_loop_iff_uses.mp hid).2.1
      exact (hbody.of_precedes hbegin).mono (List.subset_append_right _ _)
    · exact ((ih₃ id hid).of_precedes (hbegin.trans h₂.precedes)).mono (List.subset_append_right _ _)
  | @branch condition yes no after used d p₁ d₁ p₂ d₂ p₃ d₃ p₄ d₄ h₁ h₂ h₃ _ ih₁ ih₂ ih₃ ih₄ =>
    have hfront := h₁.precedes.trans h₂.precedes
    have hbegin := d₂.precedes_beginBranch
    have hmiddle := (hbegin.trans h₃.precedes).restore
    refine List.forall_mem_append.mpr ⟨List.forall_mem_append.mpr ⟨List.forall_mem_append.mpr
      ⟨fun id hid => ?_, fun id hid => ?_⟩, fun id hid => ?_⟩, fun id hid => ?_⟩
    · exact (ih₁ id hid).mono (by simp [Job.roots, Code.mentions])
    · -- what goes ahead is sought by one of the arms
      have harms := (ih₂ id hid).trans fun _ hid => seeks_of_mem_toHoist hid
      exact (harms.of_precedes h₁.precedes).mono (by simp [Job.roots, Code.mentions])
    · exact ((ih₃ id hid).of_precedes (hfront.trans hbegin)).mono (by simp [Job.roots, Code.mentions])
    · exact ((ih₄ id hid).of_precedes (hfront.trans hmiddle)).mono (by simp [Job.roots, Code.mentions])
  | skip _ _ ih => exact fun id hid => (ih id hid).mono (List.subset_cons_self _ _)
  | store hentry hslot hnew h₁ _ ih₁ ih₂ =>
    have hvalue := Due.enter hentry hslot hnew ih₁
    have hprecedes := (precedes_enter hentry hslot).trans h₁.precedes
    refine List.forall_mem_append.mpr ⟨fun id hid => ?_, fun id hid => ?_⟩
    · exact (hvalue id hid).mono (by simp [Job.roots])
    · exact ((ih₂ id hid).of_precedes hprecedes).mono (List.subset_cons_self _ _)
  | _ => exact List.forall_mem_nil _

/-- Each shared value that is computed ahead is still asked for by then. -/
def Hoist.Wanted (h : Hoist) : Prop := ∀ id moment, (id, moment) ∈ h.moments → h.demand moment id ≠ 0

theorem Hoist.Wanted.seeks {h : Hoist} (hwanted : h.Wanted) {id : SharedId} {moment : Draft}
    (hid : (id, moment) ∈ h.moments) : moment.Seeks ((h.regions ++ h.after).flatMap Code.mentions) id := by
  -- one of the parts asks for it
  have hpos := Nat.pos_of_ne_zero (hwanted id moment hid)
  obtain ⟨part, hpart, huses⟩ := List.countP_pos_iff.mp hpos
  refine (mem_uses_iff_seeks.mp (List.contains_iff_mem.mp huses)).mono ?_
  rcases List.mem_cons.mp hpart with rfl | hregion
  · simp
  · obtain ⟨region, hmem, rfl⟩ := List.mem_map.mp hregion
    intro id' hid'
    simp only [List.flatMap_singleton] at hid'
    exact List.mem_flatMap.mpr ⟨region, List.mem_append_left _ hmem, hid'⟩

/-- What is computed ahead is sought by this code. -/
def Piece.AskedBy (p : Piece) (after : List Code) : Prop :=
  ∀ id moment, (id, moment) ∈ p.moments → moment.Seeks (after.flatMap Code.mentions) id

theorem Builds.due_of_askedBy {ids : List SharedId} {after : List Code} {used : Nat} {d d' : Draft} {p : Piece}
    (h : Builds (.stores ids after) used d p d') (hasked : p.AskedBy after) :
    ∀ id ∈ p.computed, d.Due (after.flatMap Code.mentions) id := by
  generalize hjob : Job.stores ids after = job at h
  induction h generalizing ids with
  | nil => exact List.forall_mem_nil _
  | skip _ _ ih =>
    cases hjob
    exact ih hasked rfl
  | store hentry hslot hnew h₁ _ _ ih =>
    cases hjob
    have hself := hasked _ _ List.mem_cons_self
    have hrest := ih (fun id moment hid => hasked id moment (List.mem_cons_of_mem _ hid)) rfl
    refine List.forall_mem_append.mpr ⟨fun id hid => ?_, fun id hid => ?_⟩
    · exact (Due.enter hentry hslot hnew h₁.due id hid).trans (List.forall_mem_singleton.mpr hself)
    · exact (hrest id hid).of_precedes ((precedes_enter hentry hslot).trans h₁.precedes)
  | _ => cases hjob

/-- For a job that computes ahead, what it computes is sought behind it. -/
def Job.Asked : Job → Piece → Prop
  | .code _ _, _ => True
  | .stores _ after, p => p.AskedBy after

/-- No computation is laid out twice, and those that are sought behind it are
    stored there. -/
structure Once (behind ids : List SharedId) (d : Draft) : Prop where
  nodup : ids.Nodup
  kept : ∀ id ∈ ids, d.Seeks behind id → id ∈ d.stored

namespace Once

variable {d d' e : Draft} {behind behind' ids ids' : List SharedId}

theorem nil (behind : List SharedId) (d : Draft) : Once behind [] d := ⟨.nil, List.forall_mem_nil _⟩

/-- What comes next was due behind the first part, and so is nothing that the
    first part has laid out. -/
theorem append (h : Once behind ids d) (hnodup : ids'.Nodup) (hdue : ∀ id ∈ ids', d.Due behind id)
    (hd : d.Precedes d') (hbehind : behind' ⊆ behind) (hkept : ∀ id ∈ ids', d'.Seeks behind' id → id ∈ d'.stored) :
    Once behind' (ids ++ ids') d' where
  nodup := by
    refine List.nodup_append.mpr ⟨h.nodup, hnodup, ?_⟩
    -- what is due behind the first part is sought there, and not stored
    rintro id hid _ hid' rfl
    exact (hdue id hid').new (h.kept id hid (hdue id hid').sought)
  kept := by
    refine List.forall_mem_append.mpr ⟨fun id hid hseeks => ?_, hkept⟩
    exact hd.stored id (h.kept id hid ((hseeks.of_precedes hd).mono hbehind))

/-- What a computation needs is laid out while it counts as stored. -/
theorem enter {id : SharedId} {c : Code} {after : List Code} {used : Nat} {p : Piece}
    (h : Once behind p.computed d') (hp : Builds (.code c after) used (d.markStored id) p d') :
    Once behind (id :: p.computed) d' where
  nodup := List.nodup_cons.mpr ⟨fun hid => (hp.due id hid).new List.mem_cons_self, h.nodup⟩
  kept := List.forall_mem_cons.mpr ⟨fun _ => hp.precedes.stored id List.mem_cons_self, h.kept⟩

/-- What is computed ahead is due behind the first part. -/
theorem ahead {after : List Code} {used : Nat} {chosen : List SharedId} {p : Piece}
    (h : Once (after.flatMap Code.mentions) ids d) (he : d.Precedes e) (hp : Builds (.stores chosen after) used e p d')
    (hstores : Once (after.flatMap Code.mentions) p.computed d') (hasked : p.AskedBy after) :
    Once (after.flatMap Code.mentions) (ids ++ p.computed) d' :=
  h.append hstores.nodup (fun id hid => (hp.due_of_askedBy hasked id hid).of_precedes he) (he.trans hp.precedes)
    (List.Subset.refl _) hstores.kept

/-- A region is laid out from the marks ahead of it, and none of what it stores
    is sought behind it. -/
theorem region {c : Code} {after : List Code} (h : Once ((c :: after).flatMap Code.mentions) ids d)
    (hnodup : ids'.Nodup) (hdue : ∀ id ∈ ids', d.Due c.mentions id)
    (hparted : ∀ id ∈ ids', d.Seeks (after.flatMap Code.mentions) id → id ∈ d.stored) :
    Once (after.flatMap Code.mentions) (ids ++ ids') d :=
  h.append hnodup (fun id hid => (hdue id hid).mono (List.subset_append_left _ _)) (.refl d)
    (List.subset_append_right _ _) hparted

theorem of_stored_eq (h : Once behind ids d) (hd : d.Precedes d') (hstored : d'.stored = d.stored) :
    Once behind ids d' :=
  ⟨h.nodup, fun id hid hseeks => hstored ▸ h.kept id hid (hseeks.of_precedes hd)⟩

end Once

theorem Builds.stored_of_mem_toHoist {start d : Draft} {regions after behind : List Code} {used : Nat} {p : Piece}
    (h : Builds (.stores (start.toHoist regions after) behind) used start p d) {id : SharedId}
    (hid : id ∈ start.toHoist regions after) : id ∈ d.stored :=
  h.filled.2 id hid (lt_of_mem_toHoist hid)

/-- If all that is computed ahead is still asked for by then, no computation is
    laid out twice. -/
theorem Builds.once {job : Job} {used : Nat} {d d' : Draft} {p : Piece} (h : Builds job used d p d')
    (hwanted : ∀ hoist ∈ p.hoists, hoist.Wanted) (hasked : job.Asked p) :
    Once (job.after.flatMap Code.mentions) p.computed d' := by
  induction h with
  | andThen h₁ h₂ ih₁ ih₂ =>
    obtain ⟨hwanted₁, hwanted₂⟩ := List.forall_mem_append.mp hwanted
    have hrest := ih₂ hwanted₂ trivial
    refine (ih₁ hwanted₁ trivial).append hrest.nodup (fun id hid => ?_) h₂.precedes (by simp [Job.after]) hrest.kept
    exact (h₂.due id hid).mono (by simp [Job.after, Job.roots])
  | compute _ _ _ h ih => exact (ih hwanted trivial).enter h
  | setVariable h hslot ih =>
    have hreserves := reserves_of_variableSlot hslot
    exact (ih hwanted trivial).of_stored_eq hreserves.precedes hreserves.stored_eq
  | @loop times body after used d p₁ d₁ p₂ d₂ p₃ d₃ h₁ h₂ h₃ ih₁ ih₂ ih₃ =>
    obtain ⟨hwanted, hwanted₃⟩ := List.forall_mem_append.mp hwanted
    obtain ⟨hwanted₁, hwanted⟩ := List.forall_mem_append.mp hwanted
    obtain ⟨hhere, hwanted₂⟩ := List.forall_mem_cons.mp hwanted
    have hasked : p₂.AskedBy (body :: after) := fun _ _ hid => hhere.seeks hid
    -- what the body computes and the code behind it seeks would have been computed ahead
    have hparted : ∀ id ∈ p₃.computed, d₂.Seeks (after.flatMap Code.mentions) id → id ∈ d₂.stored := by
      intro id hid hseeks
      have hdue := (h₃.due id hid).of_precedes h₂.precedes
      refine h₂.stored_of_mem_toHoist (mem_toHoist_loop_iff_uses.mpr ⟨hdue.known, ?_, ?_⟩)
      · exact mem_uses_singleton.mpr hdue.sought
      · exact mem_uses_iff_seeks.mpr (hseeks.of_precedes h₂.precedes)
    have hfront := (ih₁ hwanted₁ trivial).ahead (d₁.precedes_enterLoop used) h₂ (ih₂ hwanted₂ hasked) hasked
    have hall := hfront.region (ih₃ hwanted₃ trivial).nodup h₃.due hparted
    exact hall.of_stored_eq h₃.precedes.restore rfl
  | @branch condition yes no after used d p₁ d₁ p₂ d₂ p₃ d₃ p₄ d₄ h₁ h₂ h₃ h₄ ih₁ ih₂ ih₃ ih₄ =>
    obtain ⟨hwanted, hwanted₄⟩ := List.forall_mem_append.mp hwanted
    obtain ⟨hwanted, hwanted₃⟩ := List.forall_mem_append.mp hwanted
    obtain ⟨hwanted₁, hwanted⟩ := List.forall_mem_append.mp hwanted
    obtain ⟨hhere, hwanted₂⟩ := List.forall_mem_cons.mp hwanted
    have hasked : p₂.AskedBy (yes :: no :: after) := fun _ _ hid => hhere.seeks hid
    have hbegin := d₂.precedes_beginBranch
    have hmiddle := (hbegin.trans h₃.precedes).restore
    have hyes := fun id hid => (h₃.due id hid).of_precedes hbegin
    have hno := fun id hid => (h₄.due id hid).of_precedes hmiddle
    -- what one arm computes and the other one, or the code behind them, seeks would have been computed ahead
    have hparted : ∀ id ∈ p₃.computed, d₂.Seeks ((no :: after).flatMap Code.mentions) id → id ∈ d₂.stored := by
      intro id hid hseeks
      have hdue := (hyes id hid).of_precedes h₂.precedes
      have hsought := mem_uses_singleton.mpr hdue.sought
      refine h₂.stored_of_mem_toHoist (mem_toHoist_branch_iff_uses.mpr ⟨hdue.known, ?_⟩)
      rcases seeks_append.mp (hseeks.of_precedes h₂.precedes) with hother | hafter
      · exact .inl ⟨hsought, mem_uses_singleton.mpr hother⟩
      · exact .inr ⟨.inl hsought, mem_uses_iff_seeks.mpr hafter⟩
    have hparted' : ∀ id ∈ p₄.computed, d₂.Seeks (after.flatMap Code.mentions) id → id ∈ d₂.stored := by
      intro id hid hseeks
      have hdue := (hno id hid).of_precedes h₂.precedes
      refine h₂.stored_of_mem_toHoist (mem_toHoist_branch_iff_uses.mpr ⟨hdue.known, .inr ⟨.inr ?_, ?_⟩⟩)
      · exact mem_uses_singleton.mpr hdue.sought
      · exact mem_uses_iff_seeks.mpr (hseeks.of_precedes h₂.precedes)
    have hfront := (ih₁ hwanted₁ trivial).ahead (.refl d₁) h₂ (ih₂ hwanted₂ hasked) hasked
    have hfirst := hfront.region (ih₃ hwanted₃ trivial).nodup hyes hparted
    have hall := hfirst.region (ih₄ hwanted₄ trivial).nodup hno hparted'
    exact hall.of_stored_eq (hmiddle.trans h₄.precedes).restore rfl
  | skip _ _ ih => exact ih hwanted hasked
  | store hentry hslot hnew h₁ h₂ ih₁ ih₂ =>
    obtain ⟨hwanted₁, hwanted₂⟩ := List.forall_mem_append.mp hwanted
    have hasked₂ := fun id moment hid => hasked id moment (List.mem_cons_of_mem _ hid)
    -- what comes later in the list is asked for by the same code
    exact ((ih₁ hwanted₁ trivial).enter h₁).ahead (.refl _) h₂ (ih₂ hwanted₂ hasked₂) hasked₂
  | _ => exact .nil _ _

/-! ## Who still asks for what is computed ahead -/

namespace Draft

/-- No computation names shared values in arms or bodies of its own. -/
def NamesSurely (d : Draft) : Prop := ∀ entry ∈ d.shared, entry.value.maybe = []

theorem NamesSurely.of_precedes {d d' : Draft} (h : d.NamesSurely) (hd : d.Precedes d') : d'.NamesSurely := by
  intro entry' hmem
  obtain ⟨id, hentry'⟩ := List.getElem?_of_mem hmem
  have hlt : id < d.shared.length := hd.length_eq ▸ (List.getElem?_eq_some_iff.mp hentry').1
  obtain ⟨entry₂, hentry₂, hvalue⟩ := hd.getElem? (List.getElem?_eq_getElem hlt)
  cases Option.some.inj (hentry₂.symm.trans hentry')
  rw [hvalue]
  exact h _ (List.getElem_mem hlt)

end Draft

namespace Hoist

variable {h : Hoist} {d moment : Draft} {id : SharedId} {part : List Code}

/-- A computation that this part asked for is stored by now, and leads to the
    value by arms or bodies only. -/
def Lost (h : Hoist) (part : List Code) (id : SharedId) (moment : Draft) : Prop :=
  ∃ (lost : SharedId) (entry : Shared), lost ∈ h.start.uses part ∧ lost ∈ moment.stored ∧ lost ∉ h.start.stored ∧
    h.start.shared[lost]? = some entry ∧ h.start.Seeks entry.value.maybe id

theorem Sound.uses_or_lost (hsound : h.Sound d) (hid : (id, moment) ∈ h.moments) (huses : id ∈ h.start.uses part) :
    id ∈ moment.uses part ∨ h.Lost part id moment := by
  obtain ⟨hchosen, hnew, hprecedes, hfilled⟩ := hsound.moment id moment hid
  have hseeks := mem_uses_iff_seeks.mp huses
  have hcases := hfilled.seeks_or_lost hprecedes hseeks (lt_of_mem_toHoist hchosen) hnew
  rcases hcases with hstill | ⟨lost, entry, hlost, hway⟩
  · exact .inl (mem_uses_iff_seeks.mpr hstill)
  · exact .inr ⟨lost, entry, mem_uses_iff_seeks.mpr hlost, hway⟩

theorem not_lost (hnames : h.start.NamesSurely) : ¬h.Lost part id moment := by
  rintro ⟨lost, entry, -, -, -, hentry, hseeks⟩
  rw [hnames entry (List.mem_of_getElem? hentry)] at hseeks
  exact not_seeks_nil hseeks

/-- Where nothing is lost, all that asked for the value in front still do. -/
theorem Sound.two_le_demand (hsound : h.Sound d) (hid : (id, moment) ∈ h.moments)
    (hkept : ∀ part, ¬h.Lost part id moment) : 2 ≤ h.demand moment id := by
  have hchosen := (mem_toHoist_iff_demand.mp (hsound.moment id moment hid).1).2
  refine hchosen.trans (List.countP_mono_left fun part _ huses => ?_)
  have hstill := (hsound.uses_or_lost hid (List.contains_iff_mem.mp huses)).resolve_right (hkept part)
  exact List.contains_iff_mem.mpr hstill

end Hoist

/-- How shared values are computed ahead in a piece that starts in this draft. -/
structure Piece.Hoists (p : Piece) (d : Draft) : Prop where
  /-- Two or more ask for the value in front of all that is computed ahead.
      Each of them still asks for it when it is computed, or has lost it. -/
  chosen : ∀ h ∈ p.hoists, ∀ id moment, (id, moment) ∈ h.moments →
    id ∉ moment.stored ∧ 2 ≤ h.demand h.start id ∧
      ∀ part ∈ h.parts, id ∈ h.start.uses part → id ∈ moment.uses part ∨ h.Lost part id moment
  /-- None has lost it unless computations have arms or bodies of their own. -/
  needed : d.NamesSurely → ∀ h ∈ p.hoists, ∀ id moment, (id, moment) ∈ h.moments → 2 ≤ h.demand moment id
  /-- A computation is laid out twice only if all have lost some value. -/
  once : (∀ h ∈ p.hoists, h.Wanted) → p.computed.Nodup

theorem Builds.hoists {c : Code} {used : Nat} {d d' : Draft} {p : Piece} (h : Builds (.code c []) used d p d') :
    p.Hoists d where
  chosen := by
    intro hoist hmem id moment hid
    have hsound := h.sound hoist hmem
    obtain ⟨hchosen, hnew, -⟩ := hsound.moment id moment hid
    exact ⟨hnew, (Hoist.mem_toHoist_iff_demand.mp hchosen).2, fun part _ huses => hsound.uses_or_lost hid huses⟩
  needed := by
    intro hnames hoist hmem id moment hid
    have hsound := h.sound hoist hmem
    exact hsound.two_le_demand hid fun part => Hoist.not_lost (hnames.of_precedes hsound.behind)
  once hwanted := (h.once hwanted trivial).nodup

theorem Piece.Hoists.nodup {p : Piece} {d : Draft} (h : p.Hoists d) (hnames : d.NamesSurely) : p.computed.Nodup := by
  refine h.once fun hoist hmem id moment hid => ?_
  have hneeded := h.needed hnames hoist hmem id moment hid
  omega

namespace Draft

/-- What is computed ahead while code is laid out, from every draft, and in a
    finished program. If computations name others on every path only, a
    finished program has each of them at most once. -/
theorem emit_hoists (d : Draft) (c : Code) (used : Nat) :
    (∃ p : Piece, p.ops = (d.emit c used).ops ∧ Builds (.code c []) used d p (d.emit c used).draft ∧ p.Hoists d) ∧
    ∃ p : Piece, (d.finish c).program.ops = (d.layout c).draft.prologue ++ p.ops ++ [Op.ret] ∧
      Builds (.code c []) (d.prepare c).nextSlot (d.prepare c) p (d.layout c).draft ∧ p.Hoists (d.prepare c) ∧
      (d.NamesSurely → p.computed.Nodup) := by
  constructor
  · obtain ⟨p, hops, hp⟩ := d.isBuilt_emit c used
    exact ⟨p, hops, hp, hp.hoists⟩
  · obtain ⟨p, hops, hp⟩ := (d.prepare c).isBuilt_emit c (d.prepare c).nextSlot
    refine ⟨p, ?_, hp, hp.hoists, fun hnames => ?_⟩
    · rw [finish_ops, hops]
      rfl
    · exact hp.hoists.nodup (hnames.of_precedes (d.reserves_prepare c).precedes)

/-- The host is asked for a number, and a second one is made of it. -/
def asked (second : Code) : Draft :=
  let first := (({} : Draft).share ⟨1, 0⟩ (.op (.invoke "ask" 0 .double) .double) (.number .zero)).2
  (first.share ⟨2, 0⟩ second (.number .zero)).2

/-- Shows the second number. -/
def showing : Code := Code.block .void [.shared 1 .double, .op (.invoke "show" 1 .void) .void]

/-- Both arms show it. -/
def showEither : Code := .branch (.const (.boolean true)) showing showing

/-- The first number is on the way to both sums, and still laid out once. -/
theorem emit_hoists_sum :
    let d := asked (.arith .add (.shared 0 .double) (.shared 0 .double))
    d.NamesSurely ∧ (d.prepare showEither).toHoist [showing, showing] [] = [1, 0] ∧
      (d.finish showEither).program.ops.count (.invoke "ask" 0 .double) = 1 ∧
      ∃ p : Piece, (d.finish showEither).program.ops = (d.layout showEither).draft.prologue ++ p.ops ++ [Op.ret] ∧
        p.computed.Nodup := by
  intro d
  have hnames : d.NamesSurely := by simp [d, NamesSurely, asked, share, Code.arith, Code.block, Code.maybe]
  obtain ⟨p, hops, -, -, hnodup⟩ := (d.emit_hoists showEither 0).2
  exact ⟨hnames, by decide, by decide, p, hops, hnodup hnames⟩

/-- The second number may be the first one. It is computed ahead of both arms,
    and the first one behind it, though no arm asks for that any more. So the
    host is asked in two places. -/
theorem finish_asks_twice :
    let d := asked (.branch (.const (.boolean true)) (.shared 0 .double) (.const (.number .one)))
    let start := d.prepare showEither
    let moment := (start.storeAll (emitNested 1) start.nextSlot [showing, showing] [1]).draft
    let h : Hoist := ⟨start, [showing, showing], [], [(1, start), (0, moment)]⟩
    Grows {} d ∧ d.shared.map (·.value.mentions) = [[], [0]] ∧
      start.toHoist h.regions h.after = [1, 0] ∧ h.demand start 0 = 2 ∧
      0 ∉ moment.stored ∧ h.demand moment 0 = 0 ∧
      (d.finish showEither).program.ops.count (.invoke "ask" 0 .double) = 2 := by
  intro d start moment h
  exact ⟨.share _ _ _ (.share _ _ _ .refl), by decide, by decide, by decide, by decide, by decide, by decide⟩

end Draft

end FlowGraph
