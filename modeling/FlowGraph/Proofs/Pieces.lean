import FlowGraph.Proofs.Contents
import FlowGraph.Proofs.Needs

/-! # Laid out code, piece by piece

    A piece is laid out code in which one still sees what each operation is
    for, and in which drafts it was decided to compute shared values ahead
    (`Piece`). `Builds` says which piece code becomes.

    Nothing is asked of the draft: code may name variables and computations
    that have no slot yet, and the computations may need each other in a
    circle. The one thing that keeps the layout from going on without end is
    that a computation counts as stored when it is entered.

    Main statement: from every draft, laying out code gives the operations of
    a piece (`Draft.isBuilt_emit`).
-/

namespace FlowGraph

/-! ## Pieces -/

/-- What an operation is for. -/
inductive Origin where
  /-- It stands in the code itself. -/
  | given
  /-- It directs the flow, or stands in for a computation that is not there. -/
  | control
  /-- It serves a variable or a shared value. -/
  | place (place : Place)
  /-- It counts the turns of the loop with its limit in this slot. -/
  | loop (limit : Nat)

/-- Laid out code. -/
inductive Piece where
  | given (ops : List Op)
  /-- The value of a shared computation that the draft does not know. -/
  | unknown (ty : Ty)
  | append (first second : Piece)
  | load (place : Place) (slot : Nat) (ty : Ty)
  | assign (name : String) (slot : Nat) (value : Piece)
  /-- Computes a shared value where it is used. -/
  | compute (id : SharedId) (slot : Nat) (ty : Ty) (value : Piece)
  /-- Computes a shared value ahead of its uses, from this draft on. -/
  | store (moment : Draft) (id : SharedId) (slot : Nat) (ty : Ty) (value : Piece)
  /-- What is computed ahead of the regions, as decided in this draft. -/
  | hoisted (start : Draft) (regions after : List Code) (stores : Piece)
  | loop (limit : Nat) (head : Label) (times ahead body : Piece)
  | branch (otherwise : Label) (condition ahead yes no : Piece)

/-- Operations for the same end. -/
def Origin.tag (origin : Origin) (ops : List Op) : List (Op × Origin) := ops.map fun o => (o, origin)

@[simp] theorem Origin.map_fst_tag (origin : Origin) (ops : List Op) : (origin.tag ops).map Prod.fst = ops := by
  simp [Origin.tag, Function.comp_def]

namespace Piece

/-- The operations, each with what it is for. -/
def placed : Piece → List (Op × Origin)
  | .given ops => Origin.given.tag ops
  | .unknown ty => Origin.control.tag ((Const.zero? ty).toList.map .const)
  | .append first second => first.placed ++ second.placed
  | .load place slot ty => (Origin.place place).tag [.load slot ty]
  | .assign name slot value => value.placed ++ (Origin.place (.var name)).tag [.store slot (.ref .object)]
  | .compute id slot ty value => value.placed ++ (Origin.place (.shared id)).tag [.dup, .store slot ty]
  | .store _ id slot ty value => value.placed ++ (Origin.place (.shared id)).tag [.store slot ty]
  | .hoisted _ _ _ stores => stores.placed
  | .loop limit head times ahead body =>
    times.placed ++ (Origin.loop limit).tag (loopStart limit) ++ ahead.placed ++
      (Origin.loop limit).tag (loopTest limit head) ++ body.placed ++
      (Origin.loop limit).tag (loopEnd limit head)
  | .branch otherwise condition ahead yes no =>
    condition.placed ++ ahead.placed ++ Origin.control.tag [.jumpUnless otherwise] ++ yes.placed ++
      Origin.control.tag [.jump (otherwise + 1), .label otherwise] ++ no.placed ++
      Origin.control.tag [.label (otherwise + 1)]

/-- The operations alone. -/
def ops (p : Piece) : List Op := p.placed.map Prod.fst

section

variable (p₁ p₂ p₃ p₄ : Piece)

@[simp] theorem ops_given (ops : List Op) : (given ops).ops = ops := Origin.map_fst_tag _ _

@[simp] theorem ops_unknown (ty : Ty) : (unknown ty).ops = (Const.zero? ty).toList.map .const :=
  Origin.map_fst_tag _ _

@[simp] theorem ops_append : (append p₁ p₂).ops = p₁.ops ++ p₂.ops := List.map_append

@[simp] theorem ops_load (place : Place) (slot : Nat) (ty : Ty) : (load place slot ty).ops = [.load slot ty] := rfl

@[simp] theorem ops_assign (name : String) (slot : Nat) :
    (assign name slot p₁).ops = p₁.ops ++ [.store slot (.ref .object)] := List.map_append

@[simp] theorem ops_compute (id : SharedId) (slot : Nat) (ty : Ty) :
    (compute id slot ty p₁).ops = p₁.ops ++ [Op.dup, Op.store slot ty] := List.map_append

@[simp] theorem ops_store (moment : Draft) (id : SharedId) (slot : Nat) (ty : Ty) :
    (store moment id slot ty p₁).ops = p₁.ops ++ [.store slot ty] := List.map_append

@[simp] theorem ops_hoisted (start : Draft) (regions after : List Code) :
    (hoisted start regions after p₁).ops = p₁.ops := rfl

@[simp] theorem ops_loop (limit : Nat) (head : Label) :
    (loop limit head p₁ p₂ p₃).ops = p₁.ops ++ loopStart limit ++ p₂.ops ++ loopTest limit head ++ p₃.ops ++
      loopEnd limit head := by
  simp [ops, placed]

@[simp] theorem ops_branch (otherwise : Label) :
    (branch otherwise p₁ p₂ p₃ p₄).ops = p₁.ops ++ p₂.ops ++ [Op.jumpUnless otherwise] ++ p₃.ops ++
      [Op.jump (otherwise + 1), Op.label otherwise] ++ p₄.ops ++ [Op.label (otherwise + 1)] := by
  simp [ops, placed]

end

/-- The loops, in the order in which they take their slots. Each is given by
    the slot of its limit. -/
def loops : Piece → List Nat
  | .append first second => first.loops ++ second.loops
  | .assign _ _ value => value.loops
  | .compute _ _ _ value => value.loops
  | .store _ _ _ _ value => value.loops
  | .hoisted _ _ _ stores => stores.loops
  | .loop limit _ times ahead body => times.loops ++ limit :: (ahead.loops ++ body.loops)
  | .branch _ condition ahead yes no => condition.loops ++ ahead.loops ++ yes.loops ++ no.loops
  | _ => []

/-- The shared values whose computations are laid out, once for each time. -/
def computed : Piece → List SharedId
  | .append first second => first.computed ++ second.computed
  | .assign _ _ value => value.computed
  | .compute id _ _ value => id :: value.computed
  | .store _ id _ _ value => id :: value.computed
  | .hoisted _ _ _ stores => stores.computed
  | .loop _ _ times ahead body => times.computed ++ ahead.computed ++ body.computed
  | .branch _ condition ahead yes no => condition.computed ++ ahead.computed ++ yes.computed ++ no.computed
  | _ => []

end Piece

theorem Origin.mem_tag {origin origin' : Origin} {o : Op} {ops : List Op} :
    (o, origin') ∈ origin.tag ops ↔ o ∈ ops ∧ origin' = origin := by
  simp only [tag, List.mem_map, Prod.mk.injEq]
  constructor
  · rintro ⟨o', ho', rfl, rfl⟩
    exact ⟨ho', rfl⟩
  · rintro ⟨ho, rfl⟩
    exact ⟨o, ho, rfl, rfl⟩

/-! ## Building -/

namespace Draft

/-- The draft with two slots, at or above `used`, and two labels taken for a
    loop. -/
def enterLoop (d : Draft) (used : Nat) : Draft :=
  { d with nextSlot := max used d.nextSlot + 2, nextLabel := d.nextLabel + 2 }

theorem enterLoop_eq {d : Draft} {used : Nat} (h : used ≤ d.nextSlot) : d.enterLoop used = d.beginLoop := by
  rw [enterLoop, beginLoop, Nat.max_eq_right h]

end Draft

/-- The piece that a job becomes while `used` slots are in use, and the draft
    behind it. -/
inductive Builds : Job → Nat → Draft → Piece → Draft → Prop
  | op {o ty after used d} : Builds (.code (.op o ty) after) used d (.given [o]) d
  | done {ty after used d} : Builds (.code (.done ty) after) used d (.given []) d
  | andThen {first rest after used d p₁ d₁ p₂ d₂} :
    Builds (.code first (rest :: after)) used d p₁ d₁ → Builds (.code rest after) used d₁ p₂ d₂ →
    Builds (.code (.andThen first rest) after) used d (.append p₁ p₂) d₂
  | raw {ty ops after used d} :
    Builds (.code (.raw ty ops) after) used d (.given (d.emitRaw ops).ops) (d.emitRaw ops).draft
  | unknown {id ty after used d} : d.shared[id]? = none →
    Builds (.code (.shared id ty) after) used d (.unknown ty) d
  | load {id ty after used d d₁} {entry : Shared} {slot} :
    d.shared[id]? = some entry → d.slotOf id entry = (slot, d₁) → d.isStored id = true →
    Builds (.code (.shared id ty) after) used d (.load (.shared id) slot ty) d₁
  | compute {id ty after used d d₁} {entry : Shared} {slot p d₂} :
    d.shared[id]? = some entry → d.slotOf id entry = (slot, d₁) → d.isStored id = false →
    Builds (.code entry.value after) used (d₁.markStored id) p d₂ →
    Builds (.code (.shared id ty) after) used d (.compute id slot ty p) d₂
  | getVariable {name after used d slot d₁} : d.variableSlot name = (slot, d₁) →
    Builds (.code (.getVariable name) after) used d (.load (.var name) slot (.ref .object)) d₁
  | setVariable {name value after used d p d₁ slot d₂} :
    Builds (.code value after) used d p d₁ → d₁.variableSlot name = (slot, d₂) →
    Builds (.code (.setVariable name value) after) used d (.assign name slot p) d₂
  | loop {times body after used d p₁ d₁ p₂ d₂ p₃ d₃} :
    Builds (.code times (body :: after)) used d p₁ d₁ →
    Builds (.stores ((d₁.enterLoop used).toHoist [body] after) (body :: after)) (d₁.enterLoop used).nextSlot
      (d₁.enterLoop used) p₂ d₂ →
    Builds (.code body after) (d₁.enterLoop used).nextSlot d₂ p₃ d₃ →
    Builds (.code (.loop times body) after) used d
      (.loop (max used d₁.nextSlot) d₁.nextLabel p₁ (.hoisted (d₁.enterLoop used) [body] after p₂) p₃)
      (d₃.restoreMarks d₂.stored)
  | branch {condition yes no after used d p₁ d₁ p₂ d₂ p₃ d₃ p₄ d₄} :
    Builds (.code condition (yes :: no :: after)) used d p₁ d₁ →
    Builds (.stores (d₁.toHoist [yes, no] after) (yes :: no :: after)) used d₁ p₂ d₂ →
    Builds (.code yes after) used d₂.beginBranch p₃ d₃ →
    Builds (.code no after) used (d₃.restoreMarks d₂.stored) p₄ d₄ →
    Builds (.code (.branch condition yes no) after) used d
      (.branch d₂.nextLabel p₁ (.hoisted d₁ [yes, no] after p₂) p₃ p₄) (d₄.restoreMarks d₂.stored)
  | nil {after used d} : Builds (.stores [] after) used d (.given []) d
  | skip {id rest after used d p d₁} : d.pending? id = none → Builds (.stores rest after) used d p d₁ →
    Builds (.stores (id :: rest) after) used d p d₁
  | store {id rest after used d d₁} {entry : Shared} {slot p₁ d₂ p₂ d₃} :
    d.shared[id]? = some entry → d.slotOf id entry = (slot, d₁) → d.isStored id = false →
    Builds (.code entry.value after) used (d₁.markStored id) p₁ d₂ →
    Builds (.stores rest after) used d₂ p₂ d₃ →
    Builds (.stores (id :: rest) after) used d (.append (.store d id slot entry.value.ty p₁) p₂) d₃

/-! ## What building keeps -/

namespace Draft

variable {d d' d'' : Draft}

/-- How a draft changes while code is laid out: the computations stay the
    same, and what was stored stays stored. -/
structure Precedes (d d' : Draft) : Prop where
  bare_eq : d'.shared.map bare = d.shared.map bare
  stored : ∀ id ∈ d.stored, id ∈ d'.stored

namespace Precedes

theorem refl (d : Draft) : d.Precedes d := ⟨rfl, fun _ h => h⟩

theorem trans (h : d.Precedes d') (h' : d'.Precedes d'') : d.Precedes d'' :=
  ⟨h'.bare_eq.trans h.bare_eq, fun id hid => h'.stored id (h.stored id hid)⟩

/-- Marks are restored to those of an earlier draft. -/
theorem restore (h : d.Precedes d') : d.Precedes (d'.restoreMarks d.stored) := ⟨h.bare_eq, fun _ h => h⟩

theorem length_eq (h : d.Precedes d') : d'.shared.length = d.shared.length := by
  simpa using congrArg List.length h.bare_eq

/-- The computation is still there, perhaps with a slot. -/
theorem getElem? (h : d.Precedes d') {id : SharedId} {entry : Shared} (hentry : d.shared[id]? = some entry) :
    ∃ entry', d'.shared[id]? = some entry' ∧ entry'.value = entry.value := by
  have heq : d'.shared[id]?.map bare = some (bare entry) := by
    rw [← List.getElem?_map, h.bare_eq, List.getElem?_map, hentry, Option.map_some]
  obtain ⟨entry', hentry', hbare⟩ := Option.map_eq_some_iff.mp heq
  have hvalue : (bare entry').value = (bare entry).value := by rw [hbare]
  exact ⟨entry', hentry', hvalue⟩

theorem unseen_le (h : d.Precedes d') : d'.unseen d'.stored ≤ d.unseen d.stored := by
  have hle : d'.unseen d'.stored ≤ d'.unseen d.stored := unseen_mono h.stored
  rwa [show d'.unseen d.stored = d.unseen d.stored by rw [unseen, unseen, h.length_eq]] at hle

/-- One that has got a mark is no longer left. -/
theorem unseen_lt (h : d.Precedes d') {id : SharedId} (hlt : id < d.shared.length) (hnew : id ∉ d.stored)
    (hmarked : id ∈ d'.stored) : d'.unseen d'.stored < d.unseen d.stored := by
  have hle : d'.unseen d'.stored ≤ d'.unseen (id :: d.stored) :=
    unseen_mono (List.forall_mem_cons.mpr ⟨hmarked, h.stored⟩)
  have heq : d'.unseen (id :: d.stored) = d.unseen (id :: d.stored) := by rw [unseen, unseen, h.length_eq]
  calc d'.unseen d'.stored ≤ d.unseen (id :: d.stored) := heq ▸ hle
    _ < d.unseen d.stored := unseen_cons_lt hlt hnew

end Precedes

theorem Reserves.precedes (h : d.Reserves d') : d.Precedes d' :=
  ⟨h.bare_eq, fun _ hid => h.stored_eq ▸ hid⟩

theorem precedes_markStored (d : Draft) (id : SharedId) : d.Precedes (d.markStored id) :=
  ⟨rfl, fun _ h => List.mem_cons_of_mem _ h⟩

theorem precedes_enterLoop (d : Draft) (used : Nat) : d.Precedes (d.enterLoop used) := ⟨rfl, fun _ h => h⟩

theorem precedes_beginBranch (d : Draft) : d.Precedes d.beginBranch := ⟨rfl, fun _ h => h⟩

theorem reserves_slotOf {id : SharedId} {entry : Shared} (hentry : d.shared[id]? = some entry) {slot : Nat}
    (h : d.slotOf id entry = (slot, d')) : d.Reserves d' := by
  unfold slotOf at h
  split at h
  · cases h
    exact .refl
  · next hnone =>
    cases h
    exact .shared .refl hentry hnone

theorem reserves_of_variableSlot {name : String} {slot : Nat} (h : d.variableSlot name = (slot, d')) :
    d.Reserves d' := by
  have hreserves := (reserves_variableSlot d name).1
  rwa [h] at hreserves

/-- From the draft in front of a computation to the one in which it is
    entered. -/
theorem precedes_enter {id : SharedId} {entry : Shared} (hentry : d.shared[id]? = some entry) {slot : Nat}
    (h : d.slotOf id entry = (slot, d')) : d.Precedes (d'.markStored id) :=
  (reserves_slotOf hentry h).precedes.trans (d'.precedes_markStored id)

end Draft

open Draft

theorem Builds.precedes {job : Job} {used : Nat} {d d' : Draft} {p : Piece} (h : Builds job used d p d') :
    d.Precedes d' := by
  induction h with
  | op => exact .refl _
  | done => exact .refl _
  | andThen _ _ ih₁ ih₂ => exact ih₁.trans ih₂
  | raw => exact ⟨rfl, fun _ h => h⟩
  | unknown => exact .refl _
  | load hentry hslot => exact (reserves_slotOf hentry hslot).precedes
  | compute hentry hslot _ _ ih => exact (precedes_enter hentry hslot).trans ih
  | getVariable hslot => exact (reserves_of_variableSlot hslot).precedes
  | setVariable _ hslot ih => exact ih.trans (reserves_of_variableSlot hslot).precedes
  | @loop _ _ _ used _ _ d₁ _ _ _ _ _ _ _ ih₁ ih₂ ih₃ =>
    exact (ih₁.trans ((d₁.precedes_enterLoop used).trans ih₂)).trans ih₃.restore
  | @branch _ _ _ _ _ _ _ _ _ d₂ _ _ _ _ _ _ _ _ ih₁ ih₂ ih₃ ih₄ =>
    have hyes := (d₂.precedes_beginBranch.trans ih₃).restore
    exact (ih₁.trans ih₂).trans (hyes.trans ih₄).restore
  | nil => exact .refl _
  | skip _ _ ih => exact ih
  | store hentry hslot _ _ _ ih₁ ih₂ => exact ((precedes_enter hentry hslot).trans ih₁).trans ih₂

/-! ## From `emit` -/

/-- The emission is that of a piece. -/
def Emission.IsBuilt (e : Emission) (job : Job) (used : Nat) (d : Draft) : Prop :=
  ∃ p : Piece, p.ops = e.ops ∧ Builds job used d p e.draft

namespace Draft

/-- `enter` lays out computations while fewer than `n` are not stored. -/
def EntersBuilt (n : Nat) (enter : Enter) : Prop :=
  ∀ (c : Code) (used : Nat) (after : List Code) (d : Draft), d.unseen d.stored < n →
    (enter c used after d).IsBuilt (.code c after) used d

variable {n : Nat} {enter : Enter} {d d₁ : Draft}

/-- A computation that is not stored can be entered. -/
theorem EntersBuilt.value (henter : EntersBuilt n enter) (hd : d.unseen d.stored ≤ n) {id : SharedId}
    {entry : Shared} (hentry : d.shared[id]? = some entry) {slot : Nat} (hslot : d.slotOf id entry = (slot, d₁))
    (hnew : d.isStored id = false) (used : Nat) (after : List Code) :
    (enter entry.value used after (d₁.markStored id)).IsBuilt (.code entry.value after) used
      (d₁.markStored id) := by
  apply henter
  -- entering it leaves one less to be stored
  have hlt : id < d.shared.length := (List.getElem?_eq_some_iff.mp hentry).1
  have hid : id ∉ d.stored := by simpa [isStored] using hnew
  calc (d₁.markStored id).unseen (d₁.markStored id).stored < d.unseen d.stored :=
        (precedes_enter hentry hslot).unseen_lt hlt hid List.mem_cons_self
    _ ≤ n := hd

theorem isBuilt_emitShared (henter : EntersBuilt n enter) (hd : d.unseen d.stored ≤ n) (id : SharedId) (ty : Ty)
    (used : Nat) (after : List Code) :
    (d.emitShared enter id ty used after).IsBuilt (.code (.shared id ty) after) used d := by
  unfold emitShared
  cases hentry : d.shared[id]? with
  | none => exact ⟨.unknown ty, by simp [Emission.ops], .unknown hentry⟩
  | some entry =>
    rcases hslot : d.slotOf id entry with ⟨slot, d₁⟩
    have hstored : d₁.isStored id = d.isStored id := by
      rw [isStored, isStored, (reserves_slotOf hentry hslot).stored_eq]
    simp only [hslot, hstored]
    split
    · next hold => exact ⟨.load (.shared id) slot ty, rfl, .load hentry hslot hold⟩
    · next hnew =>
      rw [Bool.not_eq_true] at hnew
      obtain ⟨p, hops, hp⟩ := henter.value hd hentry hslot hnew used after
      refine ⟨.compute id slot ty p, ?_, .compute hentry hslot hnew hp⟩
      simp [Emission.ops, hops]

theorem isBuilt_storeAll (henter : EntersBuilt n enter) (used : Nat) (after : List Code) (ids : List SharedId)
    (hd : d.unseen d.stored ≤ n) : (d.storeAll enter used after ids).IsBuilt (.stores ids after) used d := by
  induction ids generalizing d with
  | nil => exact ⟨.given [], rfl, .nil⟩
  | cons id rest ih =>
    by_cases hpending : d.pending? id = none
    · -- stored already, or not there
      have hfirst : d.storeShared enter id used after = ⟨.ops [], d⟩ := by
        unfold pending? at hpending
        unfold storeShared
        split at hpending
        · next hstored => cases d.shared[id]? <;> simp [hstored]
        · rw [Option.map_eq_none_iff.mp hpending]
      obtain ⟨p, hops, hp⟩ := ih hd
      refine ⟨p, ?_, ?_⟩
      · simpa [storeAll, hfirst, Emission.ops] using hops
      · simpa [storeAll, hfirst] using Builds.skip hpending hp
    · have hnew : d.isStored id = false := by
        by_contra hstored
        exact hpending (by simp [pending?, hstored])
      obtain ⟨entry, hentry⟩ : ∃ entry, d.shared[id]? = some entry :=
        Option.ne_none_iff_exists'.mp fun hnone => hpending (by simp [pending?, hnone])
      rcases hslot : d.slotOf id entry with ⟨slot, d₁⟩
      obtain ⟨p₁, hops₁, hp₁⟩ := henter.value hd hentry hslot hnew used after
      have hprecedes := (precedes_enter hentry hslot).trans hp₁.precedes
      obtain ⟨p₂, hops₂, hp₂⟩ := ih (Nat.le_trans hprecedes.unseen_le hd)
      refine ⟨.append (.store d id slot entry.value.ty p₁) p₂, ?_, ?_⟩
      · simp [storeAll, storeShared, hentry, hnew, hslot, Emission.ops, hops₁, hops₂]
      · simpa [storeAll, storeShared, hentry, hnew, hslot] using Builds.store hentry hslot hnew hp₁ hp₂

end Draft

namespace Code

/-- A loop takes two slots at or above those in use, and the next two labels. -/
theorem emitWith_enterLoop (enter : Enter) (times body : Code) (used : Nat) (after : List Code) (d : Draft)
    {t h b : Emission} (ht : times.emitWith enter used (body :: after) d = t)
    (hh : (t.draft.enterLoop used).storeAll enter (t.draft.enterLoop used).nextSlot (body :: after)
      ((t.draft.enterLoop used).toHoist [body] after) = h)
    (hb : body.emitWith enter (t.draft.enterLoop used).nextSlot after h.draft = b) :
    (Code.loop times body).emitWith enter used after d =
      ⟨t.block ++ .ops (loopStart (max used t.draft.nextSlot)) ++ h.block ++
        .ops (loopTest (max used t.draft.nextSlot) t.draft.nextLabel) ++ b.block ++
        .ops (loopEnd (max used t.draft.nextSlot) t.draft.nextLabel), b.draft.restoreMarks h.draft.stored⟩ := by
  subst hb hh ht
  simp only [emitWith, tempSlot, Nat.max_self]
  rfl

theorem isBuilt_emitWith {n : Nat} {enter : Enter} (henter : EntersBuilt n enter) (c : Code) {d : Draft}
    (hd : d.unseen d.stored ≤ n) (used : Nat) (after : List Code) :
    (c.emitWith enter used after d).IsBuilt (.code c after) used d := by
  -- a part only adds to what is stored, so the depth is enough for the parts behind it too
  induction c generalizing d used after with
  | op o ty => exact ⟨.given [o], rfl, .op⟩
  | done ty => exact ⟨.given [], rfl, .done⟩
  | andThen first rest ihf ihr =>
    obtain ⟨p₁, hops₁, hp₁⟩ := ihf hd used (rest :: after)
    obtain ⟨p₂, hops₂, hp₂⟩ := ihr (Nat.le_trans hp₁.precedes.unseen_le hd) used after
    refine ⟨.append p₁ p₂, ?_, .andThen hp₁ hp₂⟩
    simp [emitWith, Emission.ops, hops₁, hops₂]
  | raw ty ops => exact ⟨.given (d.emitRaw ops).ops, by simp [emitWith], .raw⟩
  | shared id ty => exact isBuilt_emitShared henter hd id ty used after
  | getVariable name =>
    rcases hslot : d.variableSlot name with ⟨slot, d₁⟩
    simp only [emitWith, hslot]
    exact ⟨.load (.var name) slot (.ref .object), rfl, .getVariable hslot⟩
  | setVariable name value ih =>
    obtain ⟨p, hops, hp⟩ := ih hd used after
    simp only [emitWith]
    rcases hslot : (value.emitWith enter used after d).draft.variableSlot name with ⟨slot, d₁⟩
    refine ⟨.assign name slot p, ?_, .setVariable hp hslot⟩
    simp [Emission.ops, hops]
  | loop times body iht ihb =>
    obtain ⟨p₁, hops₁, hp₁⟩ := iht hd used (body :: after)
    have hprecedes₁ := hp₁.precedes.trans (precedes_enterLoop _ used)
    obtain ⟨p₂, hops₂, hp₂⟩ := isBuilt_storeAll henter _ (body :: after) _
      (Nat.le_trans hprecedes₁.unseen_le hd)
    obtain ⟨p₃, hops₃, hp₃⟩ := ihb (Nat.le_trans (hprecedes₁.trans hp₂.precedes).unseen_le hd) _ after
    rw [emitWith_enterLoop enter times body used after d rfl rfl rfl]
    refine ⟨_, ?_, .loop hp₁ hp₂ hp₃⟩
    simp [Emission.ops, hops₁, hops₂, hops₃]
  | branch condition yes no ihc ihy ihn =>
    obtain ⟨p₁, hops₁, hp₁⟩ := ihc hd used (yes :: no :: after)
    obtain ⟨p₂, hops₂, hp₂⟩ := isBuilt_storeAll henter used (yes :: no :: after) _
      (Nat.le_trans hp₁.precedes.unseen_le hd)
    have hprecedes₂ := (hp₁.precedes.trans hp₂.precedes).trans (precedes_beginBranch _)
    obtain ⟨p₃, hops₃, hp₃⟩ := ihy (Nat.le_trans hprecedes₂.unseen_le hd) used after
    have hprecedes₃ := (hp₁.precedes.trans hp₂.precedes).trans
      ((precedes_beginBranch _).trans hp₃.precedes).restore
    obtain ⟨p₄, hops₄, hp₄⟩ := ihn (Nat.le_trans hprecedes₃.unseen_le hd) used after
    rw [emitWith_branch enter condition yes no used after d rfl rfl rfl rfl]
    refine ⟨_, ?_, .branch hp₁ hp₂ hp₃ hp₄⟩
    simp [Emission.ops, hops₁, hops₂, hops₃, hops₄]

end Code

namespace Draft

/-- As many may be open at once as are not stored. -/
theorem isBuilt_emitNested {n : Nat} (c : Code) {d : Draft} (hd : d.unseen d.stored ≤ n) (used : Nat)
    (after : List Code) : (emitNested n c used after d).IsBuilt (.code c after) used d := by
  induction n generalizing c d used after with
  | zero => exact Code.isBuilt_emitWith (fun _ _ _ _ hlt => absurd hlt (Nat.not_lt_zero _)) c hd used after
  | succ n ih =>
    refine Code.isBuilt_emitWith (fun c used after d hlt => ?_) c hd used after
    exact ih c (Nat.le_of_lt_succ hlt) used after

theorem entersBuilt_emitNested (n : Nat) : EntersBuilt (n + 1) (emitNested n) := by
  intro c used after d hlt
  exact isBuilt_emitNested c (Nat.le_of_lt_succ hlt) used after

theorem isBuilt_emit (d : Draft) (c : Code) (used : Nat) : (d.emit c used).IsBuilt (.code c []) used d :=
  isBuilt_emitNested c (unseen_le_length d.stored) used []

end Draft

end FlowGraph
