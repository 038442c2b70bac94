import FlowGraph.Proofs.Demand
import FlowGraph.Proofs.Execution
import FlowGraph.Proofs.Stores

/-! # Outputs that several wires leave

    Such an output is computed once, however many nodes use it and on
    however many paths: the walk asks for its code once, it has one slot, and
    the program stores to this slot twice. The first store is in front of all
    code and gives the slot the default; the second one is the computation.

    Main statement: `compile_shares_once`.
-/

namespace FlowGraph

/-- The slot that an operation reads or writes. -/
def Op.slot? : Op → Option Nat
  | .load slot _ | .store slot _ => some slot
  | _ => none

namespace Draft

/-! ## The draft of a finished program -/

/-- The code of the finished program, and the draft after it. -/
def layout (d : Draft) (body : Code) : Emission := (d.prepare body).emit body (d.prepare body).nextSlot

theorem finish_ops (d : Draft) (body : Code) :
    (d.finish body).program.ops = (d.layout body).draft.prologue ++ (d.layout body).ops ++ [Op.ret] := rfl

/-- The finished program keeps the value of the output in the slot. -/
def SharedAt (d : Draft) (body : Code) (p : Port) (slot : Nat) : Prop :=
  ∃ id, (p, id) ∈ d.memo ∧ (d.layout body).draft.At (.shared id) slot

/-! ## Stores -/

theorem storeCount_initials (slot : Nat) (list : List Initial) :
    storeCount slot (list.flatMap Initial.ops) = (list.map Initial.slot).count slot := by
  induction list with
  | nil => rfl
  | cons i rest ih =>
    rw [List.flatMap_cons, storeCount_append, ih, List.map_cons, List.count_cons, Nat.add_comm]
    simp [Initial.ops, Op.stores]

/-- Every slot that is taken is given its first value once. -/
theorem Packed.storeCount_prologue {d : Draft} (h : d.Packed) {id : SharedId} {slot : Nat}
    (hat : d.At (.shared id) slot) : storeCount slot d.prologue = 1 := by
  have hmem : slot ∈ d.initials.map Initial.slot := by
    rw [initials_slots]
    exact List.mem_append_right _ (mem_of_at_shared hat)
  rw [prologue_eq, storeCount_initials, ((Initial.sorted_perm _).map _).count_eq]
  exact List.count_eq_one_of_mem (h.nodup_iff.mpr List.nodup_range) hmem

theorem initial_mem {d : Draft} {id : SharedId} {entry : Shared} {slot : Nat}
    (h : d.shared[id]? = some entry) (hslot : entry.slot = some slot) :
    ⟨slot, entry.default, entry.ty⟩ ∈ d.initials := by
  refine List.mem_append_right _ (List.mem_filterMap.mpr ⟨entry, List.mem_of_getElem? h, ?_⟩)
  rw [hslot]
  rfl

theorem initial_mem_of_var {d : Draft} {name : String} {slot : Nat} (h : d.At (.var name) slot) :
    ⟨slot, .null, .ref .object⟩ ∈ d.initials :=
  List.mem_append_left _ (List.mem_map.mpr ⟨_, List.mem_reverse.mpr (mem_of_at_var h), rfl⟩)

theorem infix_prologue {d : Draft} {i : Initial} (h : i ∈ d.initials) : i.ops <:+: d.prologue := by
  obtain ⟨before, behind, heq⟩ := List.append_of_mem ((Initial.sorted_perm d.initials).mem_iff.mpr h)
  rw [prologue_eq, heq]
  exact ⟨before.flatMap Initial.ops, behind.flatMap Initial.ops, by simp⟩

theorem Complete.lays {d : Draft} {body : Code} (h : d.Complete body) :
    Lays (.code body []) (d.prepare body) (d.layout body).ops (d.layout body).draft := by
  obtain ⟨hprepared, hfits, hnames⟩ := h.prepared
  exact lays_emit hprepared.toReserved hfits hnames

/-- The code of a program computes into the slot of a shared computation
    once. -/
theorem Complete.storeCount_code {d : Draft} {body : Code} (h : d.Complete body) {id : SharedId} {slot : Nat}
    (hat : (d.layout body).draft.At (.shared id) slot) : storeCount slot (d.layout body).ops = 1 := by
  obtain ⟨hprepared, hfits, -⟩ := h.prepared
  have hlays := h.lays
  have hat' := hlays.advances.at_shared.mp hat
  have hreserves := d.reserves_prepare body
  have hreaches : (d.prepare body).Reaches body id :=
    hreserves.reaches_iff.mpr (h.reaches id (hreserves.length_eq ▸ lt_of_at_shared hat'))
  have hsealed : (d.prepare body).Sealed := by
    intro id' hid'
    rw [hprepared.stored] at hid'
    cases hid'
  refine (hlays.places hprepared.toReserved hprepared.packed.apart ⟨_, hfits⟩ hsealed rfl).once hat' ?_ hreaches
  rw [hprepared.stored]
  exact List.not_mem_nil

theorem Advances.prologue_eq {d d' : Draft} (h : d.Advances d') : d'.prologue = d.prologue := by
  rw [prologue, prologue, h.initials_eq]

/-- A finished program stores to the slot of a shared computation in the
    prologue, and once more in its code. -/
theorem Complete.storeCount_finish {d : Draft} {body : Code} (h : d.Complete body) {id : SharedId}
    {slot : Nat} (hat : (d.layout body).draft.At (.shared id) slot) :
    storeCount slot (d.layout body).draft.prologue = 1 ∧ storeCount slot (d.layout body).ops = 1 ∧
      storeCount slot (d.finish body).program.ops = 2 := by
  obtain ⟨hprepared, -, -⟩ := h.prepared
  have hprologue : storeCount slot (d.layout body).draft.prologue = 1 := by
    rw [h.lays.advances.prologue_eq]
    exact hprepared.packed.storeCount_prologue (h.lays.advances.at_shared.mp hat)
  have hcode := h.storeCount_code hat
  refine ⟨hprologue, hcode, ?_⟩
  rw [finish_ops, storeCount_append, storeCount_append, hprologue, hcode]
  rfl

/-- The slots of a finished program have one use each. -/
theorem Complete.apart {d : Draft} {body : Code} (h : d.Complete body) : (d.layout body).draft.Apart :=
  h.prepared.1.packed.apart.of_advances h.lays.advances

/-- Every shared computation has a slot in the finished program. -/
theorem Complete.exists_at {d : Draft} {body : Code} (h : d.Complete body) {id : SharedId}
    (hid : id < d.shared.length) : ∃ slot, (d.layout body).draft.At (.shared id) slot := by
  obtain ⟨entry, slot, hentry, hslot⟩ := h.fresh.slotted (h.reaches id hid) hid
  exact ⟨slot, h.lays.advances.at_shared.mpr ⟨entry, hentry, hslot⟩⟩

end Draft

namespace Graph

/-! ## Outputs -/

/-- What a graph that compiles remembers, and how often it asks for it. -/
theorem count_remembered {g : Graph} {body : Code} {draft : Draft}
    (h : g.walk .standard = .ok (body, draft)) {p : Port} (hp : g.Demanded p)
    (hmany : 1 < (g.leaving p).length) :
    draft.remembered.Nodup ∧ draft.remembered.count p = 1 := by
  obtain ⟨moments, -, -, htally⟩ := g.walkWithin_eq .standard
  have hnodup := (htally body draft h).nodup Draft.fresh_empty List.nodup_nil
  have hexplored : g.Explored draft (.compute p) := explored_of_walk h hp
  exact ⟨hnodup, List.count_eq_one_of_mem hnodup (hexplored.checked.remembered p rfl hmany)⟩

/-- An output whose value is needed and that several wires leave is computed
    once in every way: its code is asked for once during the walk, it has one
    slot, which it shares with no other output, and the program stores to it
    twice, once in the prologue and once in the code behind it. The first of
    these stores the default of the output. Whatever else names the slot is a
    load. -/
theorem compile_shares_once {g : Graph} {c : Compilation} (h : g.compile .standard = .ok c) {p : Port}
    (hp : g.Demanded p) (hmany : 1 < (g.leaving p).length) :
    ∃ body draft moments, c = draft.finish body ∧
      g.walkWithin .standard g.nestingBound = some (.ok (body, draft), moments) ∧
      computations p moments = 1 ∧
      ∃ slot, (∀ slot', draft.SharedAt body p slot' ↔ slot' = slot) ∧
        (∀ q, draft.SharedAt body q slot → q = p) ∧
        c.program.ops = (draft.layout body).draft.prologue ++ (draft.layout body).ops ++ [.ret] ∧
        (∃ decl, g.output? p = some decl ∧
          [.const decl.default, .store slot decl.ty] <:+: (draft.layout body).draft.prologue) ∧
        storeCount slot (draft.layout body).draft.prologue = 1 ∧
        storeCount slot (draft.layout body).ops = 1 ∧ storeCount slot c.program.ops = 2 ∧
        ∀ o ∈ c.program.ops, o.slot? = some slot → o.stores slot = true ∨ ∃ ty, o = .load slot ty := by
  obtain ⟨body, draft, hwalk, rfl⟩ := compile_eq_ok h
  obtain ⟨moments, hwithin, -, htally⟩ := g.walkWithin_eq .standard
  obtain ⟨hnodup, hone⟩ := count_remembered hwalk hp hmany
  obtain ⟨log, hwalked⟩ := exists_walk_of_walk hwalk
  obtain ⟨hfresh, hmatches⟩ := hwalked.matches
  have hcomplete := hwalked.complete
  have hcount : computations p moments = 1 := by
    have hsum := (htally body draft hwalk).count p hmany
    rw [hone] at hsum
    exact hsum
  obtain ⟨id, hid⟩ := Draft.mem_remembered.mp (List.count_pos_iff.mp (hone ▸ Nat.one_pos))
  have honly : ∀ id', (p, id') ∈ draft.memo → id' = id := by
    intro id' hid'
    exact congrArg Prod.snd (List.inj_on_of_nodup_map hnodup hid' hid rfl)
  obtain ⟨slot, hat⟩ := hcomplete.exists_at (hfresh.lt_of_mem hid)
  obtain ⟨hprologue, hcode, htwice⟩ := hcomplete.storeCount_finish hat
  refine ⟨body, draft, moments, rfl, hwalk ▸ hwithin _ (Nat.le_refl _), hcount, slot, ?_, ?_, rfl, ?_, hprologue,
    hcode, htwice, ?_⟩
  · intro slot'
    constructor
    · intro ⟨id', hid', hat'⟩
      obtain rfl := honly id' hid'
      exact Draft.at_unique hat' hat
    · intro heq
      exact ⟨id, hid, heq ▸ hat⟩
  · intro q ⟨id', hid', hat'⟩
    cases hcomplete.apart _ _ _ hat hat'
    exact hfresh.port_unique hid' hid
  · obtain ⟨entry, hentry, hslot⟩ := hat
    obtain ⟨before, hbefore, -, hty, hdefault⟩ := hcomplete.reserves.getElem?
      (hcomplete.lays.advances.shared ▸ hentry)
    obtain ⟨decl, hdecl, -, hdeclTy, hdeclDefault⟩ := hmatches p id before hid hbefore
    refine ⟨decl, hdecl, ?_⟩
    rw [← hdeclDefault, ← hdeclTy, ← hty, ← hdefault]
    exact Draft.infix_prologue (Draft.initial_mem hentry hslot)
  · intro o _ hslot
    cases o <;> cases hslot
    · exact .inr ⟨_, rfl⟩
    · exact .inl (beq_self_eq_true slot)

/-- A loop with commands in its body and behind it. Both show the double of
    the number that also tells how often the loop runs. -/
def doubling : Graph where
  nodes := [some ⟨"start", [], none⟩, some ⟨"repeat", [], none⟩, some ⟨"query:number", [], some "count"⟩,
    some ⟨"emit:number", [], some "show"⟩, some ⟨"emit:number", [], some "end"⟩, some ⟨"add", [], none⟩]
  wires := [⟨⟨0, 0⟩, ⟨1, 0⟩⟩, ⟨⟨2, 0⟩, ⟨1, 1⟩⟩, ⟨⟨1, 0⟩, ⟨3, 0⟩⟩, ⟨⟨1, 1⟩, ⟨4, 0⟩⟩, ⟨⟨2, 0⟩, ⟨5, 0⟩⟩,
    ⟨⟨2, 0⟩, ⟨5, 1⟩⟩, ⟨⟨5, 0⟩, ⟨3, 1⟩⟩, ⟨⟨5, 0⟩, ⟨4, 1⟩⟩]
  entry := some 0

theorem demanded_doubling : doubling.Demanded ⟨5, 0⟩ := by
  have hloop : doubling.Activated 1 :=
    .entry rfl ⟨⟨0, 0⟩, by decide, (0, ⟨⟨0, 0⟩, ⟨1, 0⟩⟩), by decide, by decide, rfl⟩
  have hshow : doubling.Activated 3 :=
    .next hloop ⟨⟨1, 0⟩, by decide, (2, ⟨⟨1, 0⟩, ⟨3, 0⟩⟩), by decide, by decide, rfl⟩
  exact .node hshow ⟨1, by decide, _, rfl⟩

theorem compile_shares_once_doubling :
    doubling.Demanded ⟨5, 0⟩ ∧ (doubling.leaving ⟨5, 0⟩).length = 2 ∧
      ∃ c, doubling.compile .standard = .ok c ∧ ∃ (body : Code) (draft : Draft), c = draft.finish body ∧
        ∃ slot, draft.SharedAt body ⟨5, 0⟩ slot ∧ storeCount slot c.program.ops = 2 := by
  obtain ⟨c, hc⟩ : ∃ c, doubling.compile .standard = .ok c := ⟨_, rfl⟩
  obtain ⟨body, draft, -, hfinish, -, -, slot, hslot, -, -, -, -, -, htwice, -⟩ :=
    compile_shares_once hc demanded_doubling (by decide)
  exact ⟨demanded_doubling, by decide, c, hc, body, draft, hfinish, slot, (hslot slot).mpr rfl, htwice⟩

end Graph

end FlowGraph
