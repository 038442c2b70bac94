import Mathlib
import FlowGraph.Proofs.Flow
import FlowGraph.Proofs.Sharing

/-! # Marks of stored computations

    While code is laid out, the draft marks the shared computations that are
    in their slots. The mark is set before the computation itself is laid
    out, and what an arm of a branch or the body of a loop has marked is
    forgotten behind it. So at every point a marked computation is stored on
    all paths that lead there, unless it is just being computed; and what is
    being computed is not read, since computations name only earlier ones.

    Nothing is asked of the shape of computations here: they may branch and
    loop, and may be laid out inside each other's arms.

    Main statement: no run of a finished program reads the slot of a shared
    computation before its code has stored to it (`finish_loads_stored`).
-/

namespace FlowGraph

/-! ## Code and drafts -/

/-- Operations that stand alone touch no slot and name no label, and raw code
    touches no slot. Raw code may jump: its labels are renamed to ones that
    only it has. -/
def Code.Tame : Code → Prop
  | .op o _ => o.touchesSlot = false ∧ o.label? = none
  | .andThen first rest => first.Tame ∧ rest.Tame
  | .raw _ ops => ∀ o ∈ ops, o.touchesSlot = false
  | .setVariable _ value => value.Tame
  | .loop times body => times.Tame ∧ body.Tame
  | .branch condition yes no => condition.Tame ∧ yes.Tame ∧ no.Tame
  | _ => True

namespace Draft

/-- Every shared computation is tame, and names only earlier ones. -/
def Layered (d : Draft) : Prop :=
  ∀ (id : SharedId) (entry : Shared), d.shared[id]? = some entry →
    entry.value.Tame ∧ ∀ id' ∈ entry.value.mentions, id' < id

/-- The slots of the shared computations. -/
def sharedSlots (d : Draft) : Set Nat := { slot | ∃ id, d.At (.shared id) slot }

/-- The slot is taken, but not by a shared computation. -/
structure Private (d : Draft) (slot : Nat) : Prop where
  taken : slot < d.nextSlot
  unshared : slot ∉ d.sharedSlots

/-- Shared computations that name earlier ones, and slots for one use each. -/
structure Tidy (d : Draft) : Prop where
  layered : d.Layered
  shared : ∀ slot ∈ d.sharedSlots, slot < d.nextSlot
  var : ∀ name slot, d.At (.var name) slot → d.Private slot

/-- How a draft changes while code is laid out: only slots and labels that
    were not in use are given out. -/
structure Adds (d d' : Draft) : Prop where
  bare_eq : d'.shared.map bare = d.shared.map bare
  nextSlot : d.nextSlot ≤ d'.nextSlot
  nextLabel : d.nextLabel ≤ d'.nextLabel
  kept : ∀ id slot, d.At (.shared id) slot → d'.At (.shared id) slot
  new : ∀ slot ∈ d'.sharedSlots, slot ∈ d.sharedSlots ∨ d.nextSlot ≤ slot
  tidy : d.Tidy → d'.Tidy

variable {d d' d'' : Draft}

theorem Private.of_adds (h : d.Adds d') {slot : Nat} (hslot : d.Private slot) : d'.Private slot := by
  refine ⟨Nat.lt_of_lt_of_le hslot.taken h.nextSlot, fun hshared => ?_⟩
  rcases h.new slot hshared with hold | hnew
  · exact hslot.unshared hold
  · exact Nat.not_le.mpr hslot.taken hnew

theorem Adds.trans (h : d.Adds d') (h' : d'.Adds d'') : d.Adds d'' where
  bare_eq := h'.bare_eq.trans h.bare_eq
  nextSlot := Nat.le_trans h.nextSlot h'.nextSlot
  nextLabel := Nat.le_trans h.nextLabel h'.nextLabel
  kept id slot hat := h'.kept id slot (h.kept id slot hat)
  new slot hslot := by
    rcases h'.new slot hslot with hold | hnew
    · exact h.new slot hold
    · exact .inr (Nat.le_trans h.nextSlot hnew)
  tidy hd := h'.tidy (h.tidy hd)

/-- Slots and labels may be taken without saying what for. -/
theorem Adds.of_eq (hshared : d'.shared = d.shared) (hvars : d'.variableSlots = d.variableSlots)
    (hslot : d.nextSlot ≤ d'.nextSlot) (hlabel : d.nextLabel ≤ d'.nextLabel) : d.Adds d' := by
  have hslots : d'.sharedSlots = d.sharedSlots := by
    simp only [sharedSlots, At, hshared]
  refine ⟨by rw [hshared], hslot, hlabel, ?_, fun slot hslot => .inl (hslots ▸ hslot), fun hd => ?_⟩
  · simp only [At, hshared]
    exact fun _ _ hat => hat
  · refine ⟨?_, fun slot hmem => ?_, fun name slot hat => ?_⟩
    · simp only [Layered, hshared]
      exact hd.layered
    · exact Nat.lt_of_lt_of_le (hd.shared slot (hslots ▸ hmem)) hslot
    · simp only [At, hvars] at hat
      have hprivate := hd.var name slot hat
      exact ⟨Nat.lt_of_lt_of_le hprivate.taken hslot, hslots ▸ hprivate.unshared⟩

theorem Adds.refl (d : Draft) : d.Adds d := .of_eq rfl rfl (Nat.le_refl _) (Nat.le_refl _)

theorem Advances.adds (h : d.Advances d') : d.Adds d' :=
  .of_eq h.shared h.variableSlots h.nextSlot h.nextLabel

theorem adds_restoreMarks (d : Draft) (marks : List SharedId) : d.Adds (d.restoreMarks marks) :=
  .of_eq rfl rfl (Nat.le_refl _) (Nat.le_refl _)

theorem adds_addVariable {name : String} : d.Adds (d.addVariable name) := by
  have hslots : (d.addVariable name).sharedSlots = d.sharedSlots := rfl
  refine ⟨rfl, Nat.le_succ _, Nat.le_refl _, fun _ _ hat => hat, fun slot hslot => .inl hslot, fun hd => ?_⟩
  refine ⟨hd.layered, fun slot hslot => Nat.lt_succ_of_lt (hd.shared slot hslot), fun name' slot hat => ?_⟩
  simp only [At, addVariable, List.lookup_cons] at hat
  split at hat
  · cases hat
    exact ⟨Nat.lt_succ_self _, fun hmem => Nat.lt_irrefl _ (hd.shared _ hmem)⟩
  · have hprivate := hd.var name' slot hat
    exact ⟨Nat.lt_succ_of_lt hprivate.taken, hprivate.unshared⟩

theorem adds_giveSlot {id : SharedId} {entry : Shared} (hentry : d.shared[id]? = some entry)
    (hnone : entry.slot = none) : d.Adds (d.giveSlot id) := by
  have hreserves : d.Reserves (d.giveSlot id) := .shared .refl hentry hnone
  -- the only new slot is the next one, which nobody has
  have hnew : ∀ slot ∈ (d.giveSlot id).sharedSlots, slot ∈ d.sharedSlots ∨ slot = d.nextSlot := by
    rintro slot ⟨id', entry', hentry', hslot'⟩
    rw [giveSlot_getElem?] at hentry'
    split at hentry'
    · obtain ⟨_, -, rfl⟩ := Option.map_eq_some_iff.mp hentry'
      exact .inr (Option.some.inj hslot').symm
    · exact .inl ⟨id', entry', hentry', hslot'⟩
  refine ⟨hreserves.bare_eq, Nat.le_succ _, Nat.le_refl _, ?_, fun slot hslot => ?_, fun hd => ⟨?_, ?_, ?_⟩⟩
  · rintro id' slot ⟨entry', hentry', hslot'⟩
    refine ⟨entry', ?_, hslot'⟩
    rw [giveSlot_getElem?, if_neg, hentry']
    rintro rfl
    rw [Option.some.inj (hentry'.symm.trans hentry), hnone] at hslot'
    cases hslot'
  · exact (hnew slot hslot).imp_right fun heq => Nat.le_of_eq heq.symm
  · intro id' entry' hentry'
    obtain ⟨before, hbefore, hvalue, -⟩ := hreserves.getElem? hentry'
    rw [hvalue]
    exact hd.layered id' before hbefore
  · intro slot hslot
    rcases hnew slot hslot with hold | rfl
    · exact Nat.lt_succ_of_lt (hd.shared slot hold)
    · exact Nat.lt_succ_self _
  · intro name slot hat
    have hprivate := hd.var name slot hat
    refine ⟨Nat.lt_succ_of_lt hprivate.taken, fun hslot => ?_⟩
    rcases hnew slot hslot with hold | rfl
    · exact hprivate.unshared hold
    · exact Nat.lt_irrefl _ hprivate.taken

theorem Reserves.adds (h : d.Reserves d') : d.Adds d' := by
  induction h with
  | refl => exact .refl d
  | var _ _ ih => exact ih.trans adds_addVariable
  | shared _ hentry hnone ih => exact ih.trans (adds_giveSlot hentry hnone)

theorem slotOf_spec {id : SharedId} {entry : Shared} (hentry : d.shared[id]? = some entry) {slot : Nat}
    (h : d.slotOf id entry = (slot, d')) : d.Adds d' ∧ d'.At (.shared id) slot ∧ d'.stored = d.stored := by
  unfold slotOf at h
  split at h
  · next hslot =>
    cases h
    exact ⟨.refl d, ⟨entry, hentry, hslot⟩, rfl⟩
  · next hnone =>
    cases h
    refine ⟨adds_giveSlot hentry hnone, ⟨{ entry with slot := some d.nextSlot }, ?_, rfl⟩, rfl⟩
    rw [giveSlot_getElem?, if_pos rfl, hentry]
    rfl

/-- A variable has a slot that is no shared computation's. -/
theorem Tidy.variableSlot (hd : d.Tidy) (name : String) :
    (d.variableSlot name).2.Private (d.variableSlot name).1 := by
  have hadds := (reserves_variableSlot d name).1.adds
  refine (hadds.tidy hd).var name _ ?_
  unfold Draft.variableSlot
  split
  · assumption
  · simp [At]

/-! ## What may be needed ahead -/

/-- Where code names only the first `n`, no other is computed ahead of it,
    whatever comes behind it. -/
theorem Layered.lt_of_mem_toHoist (hd : d.Layered) {n : Nat} (regions after : List Code)
    (hn : ∀ region ∈ regions, ∀ id ∈ region.mentions, id < n) {id : SharedId}
    (h : id ∈ d.toHoist regions after) : id < n := by
  -- two of the pieces need it, and only one of them is what comes behind
  obtain ⟨region, hregion, hid⟩ : ∃ region ∈ regions, id ∈ d.uses [region] := by
    have hcount := (mem_toHoist_iff.mp h).2
    rw [List.countP_cons] at hcount
    have hpos : 0 < (regions.map fun region => d.uses [region]).countP (·.contains id) := by
      split at hcount <;> omega
    obtain ⟨uses, huses, hid⟩ := List.countP_pos_iff.mp hpos
    obtain ⟨region, hregion, rfl⟩ := List.mem_map.mp huses
    exact ⟨region, hregion, List.contains_iff_mem.mp hid⟩
  have hsearch : Search d.awaits [] ([region].flatMap Code.mentions) (d.uses [region]) :=
    search_foldl_uses [region] []
  refine hsearch.least (· < n) (by simpa using hn region hregion) ?_ id hid List.not_mem_nil
  intro id hlt id' hid'
  by_cases hstored : id ∈ d.stored
  · rw [awaits_of_stored hstored] at hid'
    cases hid'
  · rw [awaits_of_not_stored hstored, Draft.mentions] at hid'
    cases hentry : d.shared[id]? with
    | none => simp [hentry] at hid'
    | some entry =>
      rw [hentry] at hid'
      exact Nat.lt_trans ((hd id entry hentry).2 id' hid') hlt

/-- The slots of the first `n` that are marked have been stored. -/
def HoldsMarked (d : Draft) (n : Nat) (marks : List SharedId) (held : Set Nat) : Prop :=
  ∀ id ∈ marks, id < n → ∀ slot, d.At (.shared id) slot → slot ∈ held

end Draft

/-! ## Laying out code -/

open Draft

/-- What laying out code that names only the first `n` shared computations
    does to a draft. The slots are those of a draft `final` that has them all. -/
structure Guards (n : Nat) (d : Draft) (e : Emission) : Prop where
  adds : d.Adds e.draft
  marks : ∀ id ∈ e.draft.stored, id ∈ d.stored ∨ id < n
  secures : ∀ final, e.draft.Adds final → ∀ before, final.HoldsMarked n d.stored before →
    ∃ after, before ⊆ after ∧ final.HoldsMarked n e.draft.stored after ∧
      Secures final.sharedSlots d.nextLabel e.draft.nextLabel before e.ops after

namespace Guards

variable {n : Nat} {d : Draft}

/-- Operations without labels that read no slot of a shared computation, or
    only one that is marked. -/
theorem straight {d' : Draft} {ops : List Op} (hadds : d.Adds d') (hstored : d'.stored = d.stored)
    (hlabel : ∀ o ∈ ops, o.label? = none)
    (hload : ∀ slot ty, .load slot ty ∈ ops → d'.Private slot ∨
      ∃ id < n, id ∈ d.stored ∧ d'.At (.shared id) slot) : Guards n d ⟨.ops ops, d'⟩ where
  adds := hadds
  marks id hid := .inl (hstored ▸ hid)
  secures final hfinal before hbefore := by
    refine ⟨before, subset_rfl, hstored ▸ hbefore, ?_⟩
    simp only [Emission.ops, Block.toList_ops]
    refine .straight hlabel fun slot ty hmem hslot => ?_
    rcases hload slot ty hmem with hprivate | ⟨id, hlt, hid, hat⟩
    · exact absurd hslot (hprivate.of_adds hfinal).unshared
    · exact hbefore id hid hlt slot (hfinal.kept id slot hat)

theorem nil (n : Nat) (d : Draft) : Guards n d ⟨.ops [], d⟩ := .straight (.refl d) rfl (by simp) (by simp)

/-- Slots may have been given out before. -/
theorem of_adds {d' : Draft} {e : Emission} (h : Guards n d' e) (hadds : d.Adds d')
    (hstored : d'.stored = d.stored) : Guards n d e where
  adds := hadds.trans h.adds
  marks := hstored ▸ h.marks
  secures final hfinal before hbefore := by
    obtain ⟨after, hsub, hafter, hlabels, hflows⟩ := h.secures final hfinal before (hstored ▸ hbefore)
    exact ⟨after, hsub, hafter, hlabels.mono hadds.nextLabel (Nat.le_refl _), hflows⟩

theorem append {a b : Emission} (ha : Guards n d a) (hb : Guards n a.draft b) :
    Guards n d ⟨a.block ++ b.block, b.draft⟩ where
  adds := ha.adds.trans hb.adds
  marks id hid := by
    rcases hb.marks id hid with hold | hlt
    · exact ha.marks id hold
    · exact .inr hlt
  secures final hfinal before hbefore := by
    obtain ⟨between, hsub, hbetween, hfirst⟩ := ha.secures final (hb.adds.trans hfinal) before hbefore
    obtain ⟨after, hsub', hafter, hsecond⟩ := hb.secures final hfinal between hbetween
    refine ⟨after, hsub.trans hsub', hafter, ?_⟩
    simp only [Emission.ops, Block.toList_append]
    exact hfirst.append hsecond ha.adds.nextLabel hb.adds.nextLabel

theorem raw {ops : List Op} (hslot : ∀ o ∈ ops, o.touchesSlot = false) : Guards n d (d.emitRaw ops) where
  adds := .of_eq rfl rfl (Nat.le_refl _) (Nat.le_add_right _ _)
  marks _ hid := .inl hid
  secures _ _ before hbefore := ⟨before, subset_rfl, hbefore, .raw hslot d⟩

/-- A computation is marked, laid out and stored. Its own code names only
    earlier ones, so it does not matter that the mark is there already. -/
theorem compute {id : SharedId} {slot : Nat} {value : Emission} {front : List Op} {ty : Ty} (hid : id < n)
    (hat : d.At (.shared id) slot) (hvalue : Guards id (d.markStored id) value)
    (hlabel : ∀ o ∈ front, o.label? = none) (hload : ∀ slot ty, .load slot ty ∉ front) :
    Guards n d ⟨value.block ++ .ops (front ++ [Op.store slot ty]), value.draft⟩ where
  adds := (d.advances_markStored id).adds.trans hvalue.adds
  marks id' hid' := by
    rcases hvalue.marks id' hid' with hmem | hlt
    · rcases List.mem_cons.mp hmem with rfl | hold
      · exact .inr hid
      · exact .inl hold
    · exact .inr (Nat.lt_trans hlt hid)
  secures final hfinal before hbefore := by
    -- the new mark is at the bound of its own code, and so is not relied on there
    have hmarked : final.HoldsMarked id (d.markStored id).stored before := by
      intro id' hid' hlt
      rcases List.mem_cons.mp hid' with rfl | hold
      · exact absurd hlt (Nat.lt_irrefl _)
      · exact hbefore id' hold (Nat.lt_trans hlt hid)
    obtain ⟨after, hsub, hafter, hcode⟩ := hvalue.secures final hfinal before hmarked
    refine ⟨insert slot after, hsub.trans (Set.subset_insert _ _), ?_, ?_⟩
    · intro id' hid' hlt slot' hat'
      rcases hvalue.marks id' hid' with hmem | hearlier
      · rcases List.mem_cons.mp hmem with rfl | hold
        · have hfinalAt := hfinal.kept id' slot (hvalue.adds.kept id' slot hat)
          rw [at_unique hat' hfinalAt]
          exact Set.mem_insert _ _
        · exact Set.mem_insert_of_mem _ (hsub (hbefore id' hold hlt slot' hat'))
      · exact Set.mem_insert_of_mem _ (hafter id' hid' hearlier slot' hat')
    · simp only [Emission.ops, Block.toList_append, Block.toList_ops]
      have hfront : Secures final.sharedSlots value.draft.nextLabel value.draft.nextLabel after front after :=
        .straight hlabel fun slot ty hmem => absurd hmem (hload slot ty)
      exact hcode.append (hfront.append (.store slot ty) (Nat.le_refl _) (Nat.le_refl _))
        hvalue.adds.nextLabel (Nat.le_refl _)

theorem branch {c h y n' : Emission} (hc : Guards n d c) (hh : Guards n c.draft h)
    (hy : Guards n h.draft.beginBranch y) (hn : Guards n (y.draft.restoreMarks h.draft.stored) n') :
    Guards n d ⟨c.block ++ h.block ++ .ops [.jumpUnless h.draft.nextLabel] ++
      y.block ++ .ops [.jump (h.draft.nextLabel + 1), .label h.draft.nextLabel] ++
      n'.block ++ .ops [.label (h.draft.nextLabel + 1)], n'.draft.restoreMarks h.draft.stored⟩ := by
  have hahead := hc.append hh
  have hbegin := h.draft.advances_beginBranch.adds
  have hmiddle := (y.draft.adds_restoreMarks h.draft.stored).trans hn.adds
  have hlast := n'.draft.adds_restoreMarks h.draft.stored
  refine ⟨hahead.adds.trans (hbegin.trans (hy.adds.trans (hmiddle.trans hlast))), hahead.marks, ?_⟩
  intro final hfinal before hbefore
  have hfinal' := hlast.trans hfinal
  obtain ⟨held, hsub, hheld, hcode⟩ := hahead.secures final
    (hbegin.trans (hy.adds.trans (hmiddle.trans hfinal'))) before hbefore
  -- each arm starts with what is stored ahead of the branch
  obtain ⟨after, hsubYes, -, hyes⟩ := hy.secures final (hmiddle.trans hfinal') held hheld
  obtain ⟨after', hsubNo, -, hno⟩ := hn.secures final hfinal' held hheld
  refine ⟨held, hsub, hheld, ?_⟩
  have harms := Secures.branch hyes hsubYes hno hsubNo hy.adds.nextLabel hn.adds.nextLabel
  have hall := hcode.append harms hahead.adds.nextLabel
    (hbegin.trans (hy.adds.trans hmiddle)).nextLabel
  simpa [Emission.ops, restoreMarks, List.append_assoc] using hall

theorem loop {t h b : Emission} (ht : Guards n d t) (htidy : t.draft.Tidy)
    (hh : Guards n t.draft.beginLoop h) (hb : Guards n h.draft b) :
    Guards n d ⟨t.block ++ .ops (loopStart t.draft.nextSlot) ++ h.block ++
      .ops (loopTest t.draft.nextSlot t.draft.nextLabel) ++ b.block ++
      .ops (loopEnd t.draft.nextSlot t.draft.nextLabel), b.draft.restoreMarks h.draft.stored⟩ := by
  have hbegin := t.draft.advances_beginLoop.adds
  have hlast := b.draft.adds_restoreMarks h.draft.stored
  refine ⟨ht.adds.trans (hbegin.trans (hh.adds.trans (hb.adds.trans hlast))), ?_, ?_⟩
  · intro id hid
    rcases hh.marks id hid with hold | hlt
    · exact ht.marks id hold
    · exact .inr hlt
  intro final hfinal before hbefore
  have hfinal' := hlast.trans hfinal
  have hfinal₂ := hbegin.trans (hh.adds.trans (hb.adds.trans hfinal'))
  obtain ⟨between, hsub, hbetween, hcode⟩ := ht.secures final hfinal₂ before hbefore
  obtain ⟨held, hsub', hheld, hahead⟩ := hh.secures final (hb.adds.trans hfinal') between hbetween
  obtain ⟨after, hsubBody, -, hbody⟩ := hb.secures final hfinal' held hheld
  refine ⟨held, hsub.trans hsub', hheld, ?_⟩
  -- the slots of the loop are taken for it, and so stay its own
  have hprivate : ∀ slot, t.draft.nextSlot ≤ slot → slot < t.draft.nextSlot + 2 →
      slot ∉ final.sharedSlots := by
    intro slot hle hlt
    have hbegun : t.draft.beginLoop.Private slot :=
      ⟨hlt, fun hslot => Nat.not_lt.mpr hle (htidy.shared slot hslot)⟩
    exact (hbegun.of_adds (hh.adds.trans (hb.adds.trans hfinal'))).unshared
  have hloop := Secures.loop (hprivate _ (Nat.le_refl _) (by omega))
    (hprivate _ (Nat.le_succ _) (by omega)) hahead hbody hsubBody hh.adds.nextLabel hb.adds.nextLabel
  have hall := hcode.append hloop ht.adds.nextLabel (hbegin.trans (hh.adds.trans hb.adds)).nextLabel
  simpa [Emission.ops, restoreMarks, List.append_assoc] using hall

end Guards

/-- How computations are entered: each of them names only earlier ones. -/
def EntersGuarded (enter : Enter) : Prop :=
  ∀ (id : SharedId) (entry : Shared) (used : Nat) (after : List Code) (d : Draft), d.Tidy →
    d.shared[id]? = some entry → used ≤ d.nextSlot → Guards id d (enter entry.value used after d)

namespace Draft

variable {d : Draft} {enter : Enter} {n used : Nat}

/-- The computation of a shared value is still there when it has its slot. -/
theorem Adds.getElem? {d' : Draft} (h : d.Adds d') {id : SharedId} {entry : Shared}
    (hentry : d.shared[id]? = some entry) :
    ∃ entry', d'.shared[id]? = some entry' ∧ entry'.value = entry.value := by
  have heq : d'.shared[id]?.map bare = d.shared[id]?.map bare := by
    rw [← List.getElem?_map, ← List.getElem?_map, h.bare_eq]
  rw [hentry] at heq
  obtain ⟨entry', hentry', hbare⟩ := Option.map_eq_some_iff.mp heq
  have hvalue : (bare entry').value = (bare entry).value := by rw [hbare]
  exact ⟨entry', hentry', hvalue⟩

/-- A computation that is not stored is computed into its slot. -/
theorem guards_enter (henter : EntersGuarded enter) (hd : d.Tidy) {id : SharedId} {entry : Shared}
    (hentry : d.shared[id]? = some entry) {slot : Nat} {d₁ : Draft} (hslot : d.slotOf id entry = (slot, d₁))
    (hid : id < n) (hused : used ≤ d.nextSlot) (after : List Code) (ty : Ty) (front : List Op)
    (hlabel : ∀ o ∈ front, o.label? = none) (hload : ∀ slot ty, .load slot ty ∉ front) :
    Guards n d
      ⟨(enter entry.value used after (d₁.markStored id)).block ++ .ops (front ++ [Op.store slot ty]),
        (enter entry.value used after (d₁.markStored id)).draft⟩ := by
  obtain ⟨hadds, hat, hstored⟩ := slotOf_spec hentry hslot
  obtain ⟨entry₁, hentry₁, hvalue⟩ := hadds.getElem? hentry
  have hmark := (d₁.advances_markStored id).adds
  have hguards := henter id entry₁ used after (d₁.markStored id) (hmark.tidy (hadds.tidy hd)) hentry₁
    (Nat.le_trans hused hadds.nextSlot)
  rw [hvalue] at hguards
  exact (Guards.compute hid hat hguards hlabel hload).of_adds hadds hstored

theorem guards_emitShared (henter : EntersGuarded enter) (hd : d.Tidy) {id : SharedId} (hid : id < n)
    (hused : used ≤ d.nextSlot) (ty : Ty) (after : List Code) :
    Guards n d (d.emitShared enter id ty used after) := by
  unfold emitShared
  cases hentry : d.shared[id]? with
  | none =>
    -- for a computation that is not there the zero of its type stands in, which reads nothing
    refine .straight (.refl d) rfl (fun o ho => ?_) fun slot ty' hmem => ?_
    · obtain ⟨c, -, rfl⟩ := List.mem_map.mp ho
      rfl
    · simp at hmem
  | some entry =>
    rcases hslot : d.slotOf id entry with ⟨slot, d₁⟩
    obtain ⟨hadds, hat, hstored⟩ := slotOf_spec hentry hslot
    simp only [hslot]
    split
    · next hmarked =>
      rw [isStored, hstored, List.contains_iff_mem] at hmarked
      refine .straight hadds hstored (fun o ho => ?_) fun slot' ty' hmem => .inr ⟨id, hid, hmarked, ?_⟩
      · rw [List.mem_singleton.mp ho]
        rfl
      · cases List.mem_singleton.mp hmem
        exact hat
    · refine guards_enter henter hd hentry hslot hid hused after ty [.dup] (fun o ho => ?_) ?_
      · rw [List.mem_singleton.mp ho]
        rfl
      · simp

theorem guards_storeShared (henter : EntersGuarded enter) (hd : d.Tidy) {id : SharedId} (hid : id < n)
    (hused : used ≤ d.nextSlot) (after : List Code) :
    Guards n d (d.storeShared enter id used after) := by
  unfold storeShared
  cases hentry : d.shared[id]? with
  | none => exact .nil n d
  | some entry =>
    rcases hslot : d.slotOf id entry with ⟨slot, d₁⟩
    simp only [hslot]
    split
    · exact .nil n d
    · exact guards_enter henter hd hentry hslot hid hused after entry.value.ty [] (by simp) (by simp)

theorem guards_storeAll (henter : EntersGuarded enter) (hd : d.Tidy) {ids : List SharedId}
    (hids : ∀ id ∈ ids, id < n) (hused : used ≤ d.nextSlot) (after : List Code) :
    Guards n d (d.storeAll enter used after ids) := by
  induction ids generalizing d with
  | nil => exact .nil n d
  | cons id rest ih =>
    have hfirst := guards_storeShared henter hd (hids id List.mem_cons_self) hused after
    exact hfirst.append (ih (hfirst.adds.tidy hd) (fun id' hid' => hids id' (List.mem_cons_of_mem _ hid'))
      (Nat.le_trans hused hfirst.adds.nextSlot))

end Draft

namespace Code

/-- An operation on the slot of a variable. -/
theorem guards_variable {n : Nat} {d : Draft} (hd : d.Tidy) (name : String) {o : Op}
    (hlabel : o.label? = none) (hload : ∀ slot ty, o = .load slot ty → slot = (d.variableSlot name).1) :
    Guards n d ⟨.ops [o], (d.variableSlot name).2⟩ := by
  have hreserves := (reserves_variableSlot d name).1
  refine .straight hreserves.adds hreserves.stored_eq (by simpa using hlabel) fun slot ty hmem => .inl ?_
  rw [hload slot ty (List.mem_singleton.mp hmem).symm]
  exact hd.variableSlot name

theorem guards_emitWith {enter : Enter} (henter : EntersGuarded enter) {c : Code} (hc : c.Tame) {n : Nat}
    (hn : ∀ id ∈ c.mentions, id < n) {d : Draft} (hd : d.Tidy) {used : Nat} (hused : used ≤ d.nextSlot)
    (after : List Code) : Guards n d (c.emitWith enter used after d) := by
  -- the bound stays the same in all parts: only entering a computation lowers it
  induction c generalizing d used after with
  | op o ty =>
    refine .straight (.refl d) rfl (by simpa using hc.2) fun slot ty' hmem => ?_
    cases List.mem_singleton.mp hmem
    cases hc.1
  | done ty => exact .nil n d
  | andThen first rest ihf ihr =>
    have hf := ihf hc.1 (fun id hid => hn id (List.mem_append_left _ hid)) hd hused (rest :: after)
    exact hf.append (ihr hc.2 (fun id hid => hn id (List.mem_append_right _ hid)) (hf.adds.tidy hd)
      (Nat.le_trans hused hf.adds.nextSlot) after)
  | raw ty ops => exact .raw hc
  | shared id ty => exact guards_emitShared henter hd (hn id (List.mem_singleton.mpr rfl)) hused ty after
  | getVariable name => exact guards_variable hd name rfl (by rintro _ _ ⟨⟩; rfl)
  | setVariable name value ih =>
    have hv := ih hc hn hd hused after
    exact hv.append (guards_variable (hv.adds.tidy hd) name rfl (by rintro _ _ ⟨⟩))
  | loop times body iht ihb =>
    have hbody : ∀ id ∈ body.mentions, id < n := fun id hid => hn id (List.mem_append_right _ hid)
    have ht := iht hc.1 (fun id hid => hn id (List.mem_append_left _ hid)) hd hused (body :: after)
    rw [emitWith_loop enter times body used after d rfl (Nat.le_trans hused ht.adds.nextSlot) rfl rfl]
    generalize times.emitWith enter used (body :: after) d = t at ht ⊢
    -- what is computed ahead is needed by the body, so the bound holds for it as well
    have htidy := ht.adds.tidy hd
    have hbegin := t.draft.advances_beginLoop.adds.tidy htidy
    have hh := guards_storeAll henter hbegin
      (fun id hid => htidy.layered.lt_of_mem_toHoist [body] after (by simpa using hbody) hid)
      (Nat.le_refl _) (body :: after)
    have hb := ihb hc.2 hbody (hh.adds.tidy hbegin) hh.adds.nextSlot after
    exact .loop ht htidy hh hb
  | branch condition yes no ihc ihy ihn =>
    have hyes : ∀ id ∈ yes.mentions, id < n := fun id hid =>
      hn id (List.mem_append_left _ (List.mem_append_right _ hid))
    have hno : ∀ id ∈ no.mentions, id < n := fun id hid => hn id (List.mem_append_right _ hid)
    have hcond := ihc hc.1 (fun id hid => hn id (List.mem_append_left _ (List.mem_append_left _ hid))) hd
      hused (yes :: no :: after)
    rw [emitWith_branch enter condition yes no used after d rfl rfl rfl rfl]
    generalize condition.emitWith enter used (yes :: no :: after) d = c at hcond ⊢
    have htidy := hcond.adds.tidy hd
    have hused₁ := Nat.le_trans hused hcond.adds.nextSlot
    have hh := guards_storeAll henter htidy
      (fun id hid => htidy.layered.lt_of_mem_toHoist [yes, no] after (by simpa using ⟨hyes, hno⟩) hid)
      hused₁ (yes :: no :: after)
    generalize c.draft.storeAll enter used (yes :: no :: after) (c.draft.toHoist [yes, no] after) = h at hh ⊢
    -- the second arm starts from the marks ahead of the branch, but with the slots that the first has taken
    have hbegin := hh.adds.trans h.draft.advances_beginBranch.adds
    have hy := ihy hc.2.1 hyes (hbegin.tidy htidy) (Nat.le_trans hused₁ hbegin.nextSlot) after
    generalize yes.emitWith enter used after h.draft.beginBranch = y at hy ⊢
    have hmiddle := (hbegin.trans hy.adds).trans (y.draft.adds_restoreMarks h.draft.stored)
    exact .branch hcond hh hy
      (ihn hc.2.2 hno (hmiddle.tidy htidy) (Nat.le_trans hused₁ hmiddle.nextSlot) after)

end Code

namespace Draft

/-- However deep computations are entered. Where they are no longer, their
    slots are stored all the same. -/
theorem guards_emitNested (depth : Nat) {c : Code} (hc : c.Tame) {n : Nat} (hn : ∀ id ∈ c.mentions, id < n)
    {d : Draft} (hd : d.Tidy) {used : Nat} (hused : used ≤ d.nextSlot) (after : List Code) :
    Guards n d (emitNested depth c used after d) := by
  induction depth generalizing c n d used after with
  | zero => exact Code.guards_emitWith (fun id _ _ _ d _ _ _ => .nil id d) hc hn hd hused after
  | succ depth ih =>
    refine Code.guards_emitWith (fun id entry used after d hd hentry hused => ?_) hc hn hd hused after
    obtain ⟨hvalue, hearlier⟩ := hd.layered id entry hentry
    exact ih hvalue hearlier hd hused after

/-! ## Finished programs -/

theorem Fresh.tidy {d : Draft} (h : d.Fresh) (hlayered : d.Layered) : d.Tidy := by
  refine ⟨hlayered, ?_, fun name slot hat => ?_⟩
  · rintro slot ⟨id, entry, hentry, hslot⟩
    exact absurd ⟨entry, slot, hentry, hslot⟩ (h.not_slotted id)
  · simp [At, h.variableSlots] at hat

/-- The code of a finished program passes the check for the slots of shared
    computations. -/
theorem exists_guardedCode {d : Draft} (hd : d.Fresh) (hlayered : d.Layered) {body : Code} (hbody : body.Tame) :
    ∃ g : GuardedCode, g.watched = (d.layout body).draft.sharedSlots ∧
      g.prologue = (d.layout body).draft.prologue ∧ g.ops = (d.finish body).program.ops := by
  obtain ⟨n, hn⟩ := body.mentions.toFinset.exists_nat_subset_range
  have hreserves := d.reserves_prepare body
  -- the code may name any computation, so the bound is one that all of them meet
  have hguards : Guards n (d.prepare body) (d.layout body) :=
    guards_emitNested _ hbody (fun id hid => by simpa using hn (List.mem_toFinset.mpr hid))
      (hreserves.adds.tidy (hd.tidy hlayered)) (Nat.le_refl _) []
  have hstored : (d.prepare body).stored = [] := hreserves.stored_eq.trans hd.stored
  obtain ⟨after, -, -, -, promised, hflows⟩ := hguards.secures _ (.refl _) ∅ (by simp [HoldsMarked, hstored])
  obtain ⟨hdefines, hreferences⟩ := (d.layout body).draft.labels_prologue
  refine ⟨{
    watched := (d.layout body).draft.sharedSlots
    prologue := (d.layout body).draft.prologue
    code := (d.layout body).ops ++ [.ret]
    promised := promised
    after := after
    labels := ?_
    loads := ?_
    flows := hflows.append (.skip rfl (by simp) (.nil subset_rfl)) }, rfl, rfl, ?_⟩
  · intro o ho
    rw [Op.label?, List.filterMap_eq_nil_iff.mp hdefines o ho, List.filterMap_eq_nil_iff.mp hreferences o ho]
    rfl
  · intro slot ty hmem
    obtain ⟨i, -, hi⟩ := List.mem_flatMap.mp hmem
    simp at hi
  · rw [GuardedCode.ops, finish_ops, List.append_assoc]

/-- In every run of a finished program, each read of the slot of a shared
    computation comes after a store to this slot that is not in the prologue. -/
theorem finish_loads_stored {σ : Type} {d : Draft} (hd : Grows {} d) (hlayered : d.Layered) {body : Code}
    (hbody : body.Tame) (limits : Limits) (host : Host σ) (w : σ) {past rest : List Nat} {pc : Nat}
    (hrun : (d.finish body).program.executed limits host w = past ++ pc :: rest) {id : SharedId} {slot : Nat}
    (hslot : (d.layout body).draft.At (.shared id) slot) {ty : Ty}
    (hload : (d.finish body).program.ops[pc]? = some (.load slot ty)) :
    ∃ pc' ∈ past, (d.layout body).draft.prologue.length ≤ pc' ∧
      ∃ ty', (d.finish body).program.ops[pc']? = some (.store slot ty') := by
  obtain ⟨g, hwatched, hprologue, hops⟩ := exists_guardedCode (hd.fresh fresh_empty) hlayered hbody
  have hstored := g.loadsStored (d.finish body).program.locals limits host w
  rw [hops] at hstored
  have hmem := hstored past pc rest hrun slot ty (hops ▸ hload) (hwatched ▸ ⟨id, hslot⟩)
  rwa [GuardedCode.storedBy, hprologue, hops] at hmem

/-- A condition that the host decides, and a number that depends on it. -/
def choosing : Draft :=
  let ready := (({} : Draft).share ⟨0, 0⟩ (.op (.invoke "ready" 0 .boolean) .boolean) (.boolean false)).2
  (ready.share ⟨1, 0⟩ (.branch (.shared 0 .boolean) (.const (.number .one)) (.const (.number .zero)))
    (.number .zero)).2

/-- Repeats as often as the number says, with both in the body and the number
    once more behind it. -/
def looping : Code :=
  Code.block .void [.loop (.shared 1 .double)
      (.branch (.shared 0 .boolean) .empty (Code.block .void [.shared 1 .double, .op .pop .void])),
    .shared 1 .double, .op .pop .void]

theorem layered_choosing : choosing.Layered := by
  intro id entry hentry
  obtain _ | _ | id := id
  · cases hentry
    exact ⟨⟨rfl, rfl⟩, by simp [Code.mentions]⟩
  · cases hentry
    exact ⟨⟨trivial, ⟨rfl, rfl⟩, ⟨rfl, rfl⟩⟩, by simp [Code.mentions, Code.const]⟩
  · cases hentry

theorem finish_loads_stored_choosing :
    Grows {} choosing ∧ choosing.Layered ∧ looping.Tame ∧ (choosing.layout looping).draft.At (.shared 1) 0 ∧
      (choosing.finish looping).program.ops[36]? = some (.load 0 .double) ∧
      ∃ past, (choosing.finish looping).program.executed {} Script.host .empty = past ++ 36 :: [37, 38] ∧
        ∃ pc ∈ past, 4 ≤ pc ∧ ∃ ty, (choosing.finish looping).program.ops[pc]? = some (.store 0 ty) := by
  have hgrows : Grows {} choosing := .share _ _ _ (.share _ _ _ .refl)
  have htame : looping.Tame := by
    simp [looping, Code.block, Code.Tame, Code.empty, Op.touchesSlot, Op.label?, Op.defines?, Op.references?]
  have hat : (choosing.layout looping).draft.At (.shared 1) 0 := ⟨_, rfl, rfl⟩
  have hload : (choosing.finish looping).program.ops[36]? = some (.load 0 .double) := rfl
  have hrun : (choosing.finish looping).program.executed {} Script.host .empty =
      [0, 1, 2, 3, 4, 5, 6, 7, 10, 11, 12, 13, 14, 15, 16, 17, 18, 19, 20, 21, 22, 35] ++ 36 :: [37, 38] := by cbv
  exact ⟨hgrows, layered_choosing, htame, hat, hload, _, hrun,
    finish_loads_stored hgrows layered_choosing htame {} Script.host .empty hrun hat hload⟩

end Draft

end FlowGraph
