import FlowGraph.Proofs.Reservation

/-! # How code is laid out

    `Lays` says which operations code becomes, and how the draft changes on
    the way. It is what `emit` does where every variable and every shared
    computation has a slot (`lays_emit`), without the bound on how deep
    computations are entered.

    A draft keeps its slots while code is laid out; temporaries and labels
    are only added, and what was stored stays stored.
-/

namespace FlowGraph

/-- What is laid out, in front of the code that follows. -/
inductive Job where
  | code (c : Code) (after : List Code)
  /-- Computes shared values into their slots. -/
  | stores (ids : List SharedId) (after : List Code)

namespace Job

/-- The code that runs afterwards. -/
def after : Job → List Code
  | .code _ after => after
  | .stores _ after => after

end Job

namespace Draft

/-- The draft with two slots and two labels taken for a loop. -/
def beginLoop (d : Draft) : Draft :=
  { d with nextSlot := d.nextSlot + 2, nextLabel := d.nextLabel + 2 }

/-- The draft with two labels taken for a branch. -/
def beginBranch (d : Draft) : Draft := { d with nextLabel := d.nextLabel + 2 }

end Draft

/-- Stores the number of times in a slot, and zero in the next one. -/
def loopStart (limit : Nat) : List Op :=
  [.store limit .double, .const (.number .zero), .store (limit + 1) .double]

/-- Leaves the loop unless the counter is below the number of times. -/
def loopTest (limit : Nat) (head : Label) : List Op :=
  [.label head, .load (limit + 1) .double, .load limit .double, .compare .lt, .jumpUnless (head + 1)]

/-- Counts and goes back to the test. -/
def loopEnd (limit : Nat) (head : Label) : List Op :=
  [.load (limit + 1) .double, .const (.number .one), .arith .add, .store (limit + 1) .double,
    .jump head, .label (head + 1)]

/-- Operations for a job, from one draft to another. -/
inductive Lays : Job → Draft → List Op → Draft → Prop
  | op {o ty after d} : Lays (.code (.op o ty) after) d [o] d
  | done {ty after d} : Lays (.code (.done ty) after) d [] d
  | andThen {first rest after d ops₁ d₁ ops₂ d₂} :
    Lays (.code first (rest :: after)) d ops₁ d₁ → Lays (.code rest after) d₁ ops₂ d₂ →
    Lays (.code (.andThen first rest) after) d (ops₁ ++ ops₂) d₂
  | raw {ty ops after d} :
    Lays (.code (.raw ty ops) after) d (d.emitRaw ops).ops (d.emitRaw ops).draft
  | load {id ty after d} {entry : Shared} {slot} :
    d.shared[id]? = some entry → entry.slot = some slot → d.isStored id = true →
    Lays (.code (.shared id ty) after) d [.load slot ty] d
  | compute {id ty after d} {entry : Shared} {slot ops d'} :
    d.shared[id]? = some entry → entry.slot = some slot → d.isStored id = false →
    Lays (.code entry.value after) (d.markStored id) ops d' →
    Lays (.code (.shared id ty) after) d (ops ++ [.dup, .store slot ty]) d'
  | getVariable {name after d slot} : d.variableSlots.lookup name = some slot →
    Lays (.code (.getVariable name) after) d [.load slot (.ref .object)] d
  | setVariable {name value after d slot ops d'} :
    Lays (.code value after) d ops d' → d'.variableSlots.lookup name = some slot →
    Lays (.code (.setVariable name value) after) d (ops ++ [.store slot (.ref .object)]) d'
  | loop {times body after d ops₁ d₁ ops₂ d₂ ops₃ d₃} :
    Lays (.code times (body :: after)) d ops₁ d₁ →
    Lays (.stores (d₁.toHoist [body] after) (body :: after)) d₁.beginLoop ops₂ d₂ →
    Lays (.code body after) d₂ ops₃ d₃ →
    Lays (.code (.loop times body) after) d
      (ops₁ ++ loopStart d₁.nextSlot ++ ops₂ ++ loopTest d₁.nextSlot d₁.nextLabel ++ ops₃ ++
        loopEnd d₁.nextSlot d₁.nextLabel)
      (d₃.restoreMarks d₂.stored)
  | branch {condition yes no after d ops₁ d₁ ops₂ d₂ ops₃ d₃ ops₄ d₄} :
    Lays (.code condition (yes :: no :: after)) d ops₁ d₁ →
    Lays (.stores (d₁.toHoist [yes, no] after) (yes :: no :: after)) d₁ ops₂ d₂ →
    Lays (.code yes after) d₂.beginBranch ops₃ d₃ →
    Lays (.code no after) (d₃.restoreMarks d₂.stored) ops₄ d₄ →
    Lays (.code (.branch condition yes no) after) d
      (ops₁ ++ ops₂ ++ [.jumpUnless d₂.nextLabel] ++ ops₃ ++
        [.jump (d₂.nextLabel + 1), .label d₂.nextLabel] ++ ops₄ ++ [.label (d₂.nextLabel + 1)])
      (d₄.restoreMarks d₂.stored)
  | nil {after d} : Lays (.stores [] after) d [] d
  | skip {id rest after d ops d'} : d.isStored id = true →
    Lays (.stores rest after) d ops d' → Lays (.stores (id :: rest) after) d ops d'
  | store {id rest after d} {entry : Shared} {slot ops₁ d₁ ops₂ d₂} :
    d.shared[id]? = some entry → entry.slot = some slot → d.isStored id = false →
    Lays (.code entry.value after) (d.markStored id) ops₁ d₁ →
    Lays (.stores rest after) d₁ ops₂ d₂ →
    Lays (.stores (id :: rest) after) d (ops₁ ++ [.store slot entry.value.ty] ++ ops₂) d₂

/-! ## What laying out keeps -/

namespace Draft

/-- How a draft changes while code is laid out. -/
structure Advances (d d' : Draft) : Prop where
  shared : d'.shared = d.shared
  variableSlots : d'.variableSlots = d.variableSlots
  nextSlot : d.nextSlot ≤ d'.nextSlot
  nextLabel : d.nextLabel ≤ d'.nextLabel
  stored : ∀ id ∈ d.stored, id ∈ d'.stored

theorem Advances.refl (d : Draft) : d.Advances d :=
  ⟨rfl, rfl, Nat.le_refl _, Nat.le_refl _, fun _ h => h⟩

theorem Advances.trans {d₁ d₂ d₃ : Draft} (h₁ : d₁.Advances d₂) (h₂ : d₂.Advances d₃) :
    d₁.Advances d₃ where
  shared := h₂.shared.trans h₁.shared
  variableSlots := h₂.variableSlots.trans h₁.variableSlots
  nextSlot := Nat.le_trans h₁.nextSlot h₂.nextSlot
  nextLabel := Nat.le_trans h₁.nextLabel h₂.nextLabel
  stored id hid := h₂.stored id (h₁.stored id hid)

theorem advances_markStored (d : Draft) (id : SharedId) : d.Advances (d.markStored id) :=
  ⟨rfl, rfl, Nat.le_refl _, Nat.le_refl _, fun _ h => List.mem_cons_of_mem _ h⟩

theorem advances_beginLoop (d : Draft) : d.Advances d.beginLoop :=
  ⟨rfl, rfl, Nat.le_add_right _ _, Nat.le_add_right _ _, fun _ h => h⟩

theorem advances_beginBranch (d : Draft) : d.Advances d.beginBranch :=
  ⟨rfl, rfl, Nat.le_refl _, Nat.le_add_right _ _, fun _ h => h⟩

/-- Marks are restored to those of an earlier draft. -/
theorem Advances.restore {d d' : Draft} (h : d.Advances d') :
    d.Advances (d'.restoreMarks d.stored) :=
  ⟨h.shared, h.variableSlots, h.nextSlot, h.nextLabel, fun _ h => h⟩

theorem Advances.types_eq {d d' : Draft} (h : d.Advances d') : d'.types = d.types := by
  rw [types, types, h.shared]

theorem Reserved.of_advances {d d' : Draft} (h : d.Reserved) (hd : d.Advances d') : d'.Reserved := by
  refine ⟨?_, ?_, ?_, ?_⟩
  · unfold Ordered
    rw [hd.types_eq, hd.shared]
    exact h.ordered
  · rw [hd.shared]
    exact h.slots
  · unfold Named
    rw [hd.shared, hd.variableSlots]
    exact h.names
  · rw [hd.shared]
    exact h.types

theorem Advances.named {d d' : Draft} (h : d.Advances d') {name : String} :
    d'.Named name ↔ d.Named name := by
  rw [Named, Named, h.variableSlots]

end Draft

theorem Lays.advances {job : Job} {d d' : Draft} {ops : List Op} (h : Lays job d ops d') :
    d.Advances d' := by
  induction h with
  | op => exact .refl _
  | done => exact .refl _
  | andThen _ _ ih₁ ih₂ => exact ih₁.trans ih₂
  | raw => exact ⟨rfl, rfl, Nat.le_refl _, Nat.le_add_right _ _, fun _ h => h⟩
  | load => exact .refl _
  | @compute id _ _ d _ _ _ _ _ _ _ _ ih => exact (d.advances_markStored id).trans ih
  | getVariable => exact .refl _
  | setVariable _ _ ih => exact ih
  | @loop _ _ _ _ _ d₁ _ _ _ _ _ _ _ ih₁ ih₂ ih₃ =>
    exact (ih₁.trans (d₁.advances_beginLoop.trans ih₂)).trans ih₃.restore
  | @branch _ _ _ _ _ _ _ _ d₂ _ _ _ _ _ _ _ _ ih₁ ih₂ ih₃ ih₄ =>
    have hyes := (d₂.advances_beginBranch.trans ih₃).restore
    exact (ih₁.trans ih₂).trans (hyes.trans ih₄).restore
  | nil => exact .refl _
  | skip _ _ ih => exact ih
  | @store id _ _ d _ _ _ _ _ _ _ _ _ _ _ ih₁ ih₂ =>
    exact ((d.advances_markStored id).trans ih₁).trans ih₂

/-! ## From `emit` -/

namespace Draft

/-- `enter` lays out the computations of the first `n` shared values. -/
def Enters (n : Nat) (enter : Enter) : Prop :=
  ∀ (id : SharedId) (entry : Shared) (used : Nat) (after : List Code) (d : Draft),
    id < n → d.Reserved → d.shared[id]? = some entry → used ≤ d.nextSlot →
    Lays (.code entry.value after) d (enter entry.value used after d).ops
      (enter entry.value used after d).draft

theorem slotOf_eq {d : Draft} {id : SharedId} {entry : Shared} {slot : Nat}
    (h : entry.slot = some slot) : d.slotOf id entry = (slot, d) := by
  simp [slotOf, h]

theorem lays_emitShared {n : Nat} {enter : Enter} (henter : Enters n enter) {d : Draft}
    (hd : d.Reserved) {id : SharedId} {entry : Shared} (hentry : d.shared[id]? = some entry)
    (hid : id < n) (ty : Ty) {used : Nat} (after : List Code) (hused : used ≤ d.nextSlot) :
    Lays (.code (.shared id ty) after) d (d.emitShared enter id ty used after).ops
      (d.emitShared enter id ty used after).draft := by
  obtain ⟨slot, hslot⟩ := hd.slots id entry hentry
  simp only [emitShared, hentry, slotOf_eq hslot]
  split
  · next hstored =>
    exact .load hentry hslot hstored
  · next hstored =>
    have hmark := d.advances_markStored id
    have hvalue := henter id entry used after (d.markStored id) hid (hd.of_advances hmark) hentry hused
    have hlays : Lays (.code (.shared id ty) after) d _ _ :=
      .compute hentry hslot (by simpa using hstored) hvalue
    simpa [Emission.ops] using hlays

theorem lays_storeAll {n : Nat} {enter : Enter} (henter : Enters n enter) {used : Nat}
    (after : List Code) {ids : List SharedId} {d : Draft} (hd : d.Reserved)
    (hids : ∀ id ∈ ids, id < n ∧ id < d.shared.length) (hused : used ≤ d.nextSlot) :
    Lays (.stores ids after) d (d.storeAll enter used after ids).ops
      (d.storeAll enter used after ids).draft := by
  induction ids generalizing d with
  | nil => exact .nil
  | cons id rest ih =>
    obtain ⟨hn, hlt⟩ := hids id List.mem_cons_self
    have hentry := List.getElem?_eq_getElem hlt
    obtain ⟨slot, hslot⟩ := hd.slots id _ hentry
    have hrest : ∀ id ∈ rest, id < n ∧ id < d.shared.length := fun id hid =>
      hids id (List.mem_cons_of_mem _ hid)
    by_cases hstored : d.isStored id = true
    · have hfirst : d.storeShared enter id used after = ⟨.ops [], d⟩ := by
        simp [storeShared, hentry, hstored]
      simp only [storeAll, hfirst]
      have hothers := Lays.skip hstored (ih hd hrest hused)
      simpa [Emission.ops] using hothers
    · have hmark := d.advances_markStored id
      have hvalue := henter id _ used after (d.markStored id) hn (hd.of_advances hmark) hentry hused
      have hadvances := hmark.trans hvalue.advances
      have hothers := ih (hd.of_advances hadvances) (by rw [hadvances.shared]; exact hrest)
        (Nat.le_trans hused hadvances.nextSlot)
      have hall := Lays.store hentry hslot (by simpa using hstored) hvalue hothers
      simpa [storeAll, storeShared, hentry, hstored, slotOf_eq hslot, Emission.ops] using hall

theorem lt_of_mem_toHoist {d : Draft} {regions after : List Code} {id : SharedId}
    (h : id ∈ d.toHoist regions after) : id < d.shared.length := by
  unfold toHoist at h
  split at h
  · cases h
  · simpa using (List.mem_filter.mp h).1

/-- What code refers to depends on the shared computations and on those that
    are stored. -/
theorem usesNested_congr {d d' : Draft} (hshared : d'.shared = d.shared) (hstored : d'.stored = d.stored)
    (depth : Nat) : d'.usesNested depth = d.usesNested depth := by
  induction depth with
  | zero => rfl
  | succ depth ih =>
    have hpending : d'.pending? = d.pending? := by
      funext id
      rw [pending?, pending?, isStored, isStored, hshared, hstored]
    simp only [usesNested, hpending, ih]

theorem toHoist_congr {d d' : Draft} (hshared : d'.shared = d.shared) (hstored : d'.stored = d.stored)
    (regions after : List Code) : d'.toHoist regions after = d.toHoist regions after := by
  have huses : d'.uses = d.uses := by
    funext pieces
    simp only [uses, hshared, usesNested_congr hshared hstored]
  simp only [toHoist, huses, hshared]

theorem tempSlot_eq {d : Draft} {used : Nat} (h : used ≤ d.nextSlot) :
    d.tempSlot used = (d.nextSlot, { d with nextSlot := d.nextSlot + 1 }) := by
  simp [tempSlot, Nat.max_eq_right h]

end Draft

namespace Code

open Draft

/-- A loop takes the next two slots and the next two labels. -/
theorem emitWith_loop (enter : Enter) (times body : Code) (used : Nat) (after : List Code) (d : Draft)
    {t h b : Emission} (ht : times.emitWith enter used (body :: after) d = t)
    (hused : used ≤ t.draft.nextSlot)
    (hh : t.draft.beginLoop.storeAll enter t.draft.beginLoop.nextSlot (body :: after)
      (t.draft.toHoist [body] after) = h)
    (hb : body.emitWith enter t.draft.beginLoop.nextSlot after h.draft = b) :
    (Code.loop times body).emitWith enter used after d =
      ⟨t.block ++ .ops (loopStart t.draft.nextSlot) ++ h.block ++
        .ops (loopTest t.draft.nextSlot t.draft.nextLabel) ++ b.block ++
        .ops (loopEnd t.draft.nextSlot t.draft.nextLabel), b.draft.restoreMarks h.draft.stored⟩ := by
  have hhoist : t.draft.beginLoop.toHoist [body] after = t.draft.toHoist [body] after := by
    apply toHoist_congr <;> rfl
  rw [← hhoist] at hh
  subst hb hh ht
  simp only [emitWith, tempSlot_eq hused, tempSlot_eq (Nat.le_refl _)]
  rfl

theorem emitWith_branch (enter : Enter) (condition yes no : Code) (used : Nat) (after : List Code)
    (d : Draft) {c h y n : Emission} (hc : condition.emitWith enter used (yes :: no :: after) d = c)
    (hh : c.draft.storeAll enter used (yes :: no :: after) (c.draft.toHoist [yes, no] after) = h)
    (hy : yes.emitWith enter used after h.draft.beginBranch = y)
    (hn : no.emitWith enter used after (y.draft.restoreMarks h.draft.stored) = n) :
    (Code.branch condition yes no).emitWith enter used after d =
      ⟨c.block ++ h.block ++ .ops [.jumpUnless h.draft.nextLabel] ++ y.block ++
        .ops [.jump (h.draft.nextLabel + 1), .label h.draft.nextLabel] ++ n.block ++
        .ops [.label (h.draft.nextLabel + 1)], n.draft.restoreMarks h.draft.stored⟩ := by
  subst hn hy hh hc
  rfl

theorem lays_emitWith {n : Nat} {enter : Enter} (henter : Enters n enter) {c : Code} {d : Draft}
    (hd : d.Reserved) (hfits : c.Fits d.types n) (hnames : ∀ name ∈ c.names, d.Named name)
    (hdepth : c.isValue = true ∨ d.shared.length ≤ n) {used : Nat} (after : List Code)
    (hused : used ≤ d.nextSlot) :
    Lays (.code c after) d (c.emitWith enter used after d).ops (c.emitWith enter used after d).draft := by
  -- only loops and branches store computations ahead, so only they need depth for all of them
  induction c generalizing d used after with
  | op o ty => exact .op
  | done ty => exact .done
  | andThen first rest ihf ihr =>
    have hf := ihf hd hfits.1 (fun name hname => hnames name (List.mem_append_left _ hname))
      (hdepth.imp_left fun h => (Bool.and_eq_true_iff.mp h).1) (rest :: after) hused
    have hadvances := hf.advances
    have hr := ihr (hd.of_advances hadvances) (hadvances.types_eq ▸ hfits.2)
      (fun name hname => hadvances.named.mpr (hnames name (List.mem_append_right _ hname)))
      (hdepth.imp (fun h => (Bool.and_eq_true_iff.mp h).2) fun h => hadvances.shared ▸ h) after
      (Nat.le_trans hused hadvances.nextSlot)
    simpa [emitWith, Emission.ops] using Lays.andThen hf hr
  | raw ty ops => exact .raw
  | shared id ty =>
    obtain ⟨entry, hentry, -⟩ := Option.map_eq_some_iff.mp (List.getElem?_map.symm.trans hfits.2)
    exact lays_emitShared henter hd hentry hfits.1 ty after hused
  | getVariable name =>
    obtain ⟨slot, hslot⟩ := hnames name List.mem_cons_self
    simp only [emitWith, variableSlot_of_some hslot]
    exact .getVariable hslot
  | setVariable name value ih =>
    have hv := ih hd hfits (fun name hname => hnames name (List.mem_cons_of_mem _ hname))
      (hdepth.elim (fun h => nomatch h) .inr) after hused
    obtain ⟨slot, hslot⟩ := hv.advances.named.mpr (hnames name List.mem_cons_self)
    have hset := Lays.setVariable hv hslot
    simp only [emitWith, variableSlot_of_some hslot]
    simpa [Emission.ops] using hset
  | loop times body iht ihb =>
    have hlength := hdepth.resolve_left (fun h => nomatch h)
    have ht := iht hd hfits.1 (fun name hname => hnames name (List.mem_append_left _ hname))
      (.inr hlength) (body :: after) hused
    have hadv₁ := ht.advances.trans (advances_beginLoop _)
    -- what goes ahead of the loop is one of the computations of the draft
    have hids : ∀ id ∈ (times.emitWith enter used (body :: after) d).draft.toHoist [body] after,
        id < n ∧ id < (times.emitWith enter used (body :: after) d).draft.shared.length :=
      fun id hid => ⟨Nat.lt_of_lt_of_le (ht.advances.shared ▸ lt_of_mem_toHoist hid) hlength,
        lt_of_mem_toHoist hid⟩
    have hh := lays_storeAll henter (body :: after) (hd.of_advances hadv₁) hids (Nat.le_refl _)
    have hadv₂ := hadv₁.trans hh.advances
    have hb := ihb (hd.of_advances hadv₂) (hadv₂.types_eq ▸ hfits.2)
      (fun name hname => hadv₂.named.mpr (hnames name (List.mem_append_right _ hname)))
      (.inr (hadv₂.shared ▸ hlength)) after hh.advances.nextSlot
    rw [emitWith_loop enter times body used after d rfl (Nat.le_trans hused ht.advances.nextSlot) rfl rfl]
    simpa [Emission.ops] using Lays.loop ht hh hb
  | branch condition yes no ihc ihy ihn =>
    have hlength := hdepth.resolve_left (fun h => nomatch h)
    have hc := ihc hd hfits.1
      (fun name hname => hnames name (List.mem_append_left _ (List.mem_append_left _ hname)))
      (.inr hlength) (yes :: no :: after) hused
    have hids : ∀ id ∈ (condition.emitWith enter used (yes :: no :: after) d).draft.toHoist [yes, no] after,
        id < n ∧ id < (condition.emitWith enter used (yes :: no :: after) d).draft.shared.length :=
      fun id hid => ⟨Nat.lt_of_lt_of_le (hc.advances.shared ▸ lt_of_mem_toHoist hid) hlength,
        lt_of_mem_toHoist hid⟩
    have hh := lays_storeAll henter (yes :: no :: after) (hd.of_advances hc.advances) hids
      (Nat.le_trans hused hc.advances.nextSlot)
    have hadv₁ := (hc.advances.trans hh.advances).trans (advances_beginBranch _)
    have hy := ihy (hd.of_advances hadv₁) (hadv₁.types_eq ▸ hfits.2.1)
      (fun name hname => hadv₁.named.mpr
        (hnames name (List.mem_append_left _ (List.mem_append_right _ hname))))
      (.inr (hadv₁.shared ▸ hlength)) after (Nat.le_trans hused hadv₁.nextSlot)
    -- the second arm gives up the marks of the first, and keeps its slots and labels
    have hadv₂ := (hc.advances.trans hh.advances).trans ((advances_beginBranch _).trans hy.advances).restore
    have hn := ihn (hd.of_advances hadv₂) (hadv₂.types_eq ▸ hfits.2.2)
      (fun name hname => hadv₂.named.mpr (hnames name (List.mem_append_right _ hname)))
      (.inr (hadv₂.shared ▸ hlength)) after (Nat.le_trans hused hadv₂.nextSlot)
    rw [emitWith_branch enter condition yes no used after d rfl rfl rfl rfl]
    simpa [Emission.ops] using Lays.branch hc hh hy hn

end Code

namespace Draft

theorem enters_emitNested (n : Nat) : ∀ {c : Code} {d : Draft} (used : Nat) (after : List Code),
    d.Reserved → c.Fits d.types n → (∀ name ∈ c.names, d.Named name) →
    c.isValue = true ∨ d.shared.length ≤ n → used ≤ d.nextSlot →
    Lays (.code c after) d (emitNested n c used after d).ops (emitNested n c used after d).draft := by
  induction n with
  | zero =>
    intro c d used after hd hfits hnames hdepth hused
    exact Code.lays_emitWith (fun id _ _ _ _ hlt => absurd hlt (Nat.not_lt_zero id)) hd hfits hnames
      hdepth after hused
  | succ n ih =>
    intro c d used after hd hfits hnames hdepth hused
    refine Code.lays_emitWith ?_ hd hfits hnames hdepth after hused
    intro id entry used after d hlt hd hentry hused
    obtain ⟨hvalue, hfits⟩ := hd.ordered id entry hentry
    exact ih used after hd (hfits.mono (List.prefix_refl _) (Nat.le_of_lt_succ hlt))
      (hd.names id entry hentry) (.inl hvalue) hused

/-- Laying out the code of a program. -/
theorem lays_emit {d : Draft} {body : Code} (hd : d.Reserved)
    (hfits : body.Fits d.types d.shared.length) (hnames : ∀ name ∈ body.names, d.Named name) :
    Lays (.code body []) d (d.emit body d.nextSlot).ops (d.emit body d.nextSlot).draft :=
  enters_emitNested d.shared.length d.nextSlot [] hd hfits hnames (.inr (Nat.le_refl _)) (Nat.le_refl _)

end Draft

end FlowGraph
