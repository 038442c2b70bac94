import Mathlib.Data.List.Perm.Subperm
import FlowGraph.Proofs.Needs
import FlowGraph.Proofs.Unsharing

/-! # Programs with and without a shared read

    The code of a program in which a read of a variable is shared, next to the
    code of the program in which it is not.

    * Both lay out the same computations in the same places. What is computed
      ahead is the same, but for the read itself (`Draft.Unshared.toHoist`).
    * Slots are numbered differently. They belong together if they are for the
      same variable, the same shared computation or the same temporary
      (`Draft.Twin`).

    Main statement: the operations are the same up to the numbers of slots,
    except where the shared read is stored or loaded (`Lays.splices`).
-/

namespace FlowGraph

/-! ## What code needs without the read -/

theorem Code.mentions_unshare {q : SharedId} {name : String} {types : List Ty} {n : Nat}
    (hq : types[q]? = some (.ref .object)) {c : Code} (h : c.Fits types n) :
    (c.unshare q name).mentions = (c.mentions.filter (· ≠ q)).map (SharedId.lower q) := by
  induction c with
  | andThen first rest ihf ihr => simp [unshare, mentions, ihf h.1, ihr h.2]
  | shared id ty =>
    by_cases hid : id = q
    · obtain rfl : ty = .ref .object := by
        have hty := h.2
        rw [hid, hq] at hty
        exact (Option.some.inj hty).symm
      simp [hid, mentions]
    · simp [unshare_of_ne hid, mentions, hid]
  | setVariable _ value ih => simp [unshare, mentions, ih h]
  | loop times body iht ihb => simp [unshare, mentions, iht h.1, ihb h.2]
  | branch condition yes no ihc ihy ihn => simp [unshare, mentions, ihc h.1, ihy h.2.1, ihn h.2.2]
  | _ => rfl

/-- The numbers of the computations that are left. -/
theorem SharedId.map_lower_range {q n : Nat} (h : q ≤ n) :
    ((List.range (n + 1)).filter (· ≠ q)).map (lower q) = List.range n := by
  induction n with
  | zero =>
    obtain rfl := Nat.le_zero.mp h
    rfl
  | succ n ih =>
    rw [List.range_succ, List.filter_append, List.map_append]
    rcases Nat.eq_or_lt_of_le h with rfl | hlt
    · have hall : (List.range (n + 1)).filter (· ≠ n + 1) = List.range (n + 1) := by
        refine List.filter_eq_self.mpr fun id hid => ?_
        simpa using Nat.ne_of_lt (List.mem_range.mp hid)
      have hsame : (List.range (n + 1)).map (lower (n + 1)) = List.range (n + 1) := by
        nth_rewrite 2 [← List.map_id (List.range (n + 1))]
        exact List.map_congr_left fun id hid => lower_of_le (Nat.le_of_lt (List.mem_range.mp hid))
      rw [hall, hsame]
      simp
    · have hlast : lower q (n + 1) = n := lower_of_lt hlt
      have hne : n + 1 ≠ q := Nat.ne_of_gt hlt
      rw [ih (Nat.le_of_lt_succ hlt)]
      simp [hne, hlast, List.range_succ]

namespace Draft

/-- The second draft is the first one without the shared read numbered `q`.
    The slots in it are its own. -/
structure Unshared (q : SharedId) (name : String) (d e : Draft) : Prop where
  reserved : d.Reserved
  computation : ∃ entry, d.shared[q]? = some entry ∧ entry.value = .getVariable name ∧ entry.ty = .ref .object
  shared : ∀ id, id ≠ q → (e.shared[SharedId.lower q id]?).map bare =
    d.shared[id]?.map fun entry => bare { entry with value := entry.value.unshare q name }
  length : e.shared.length + 1 = d.shared.length

/-- While code is laid out: of the computations that both have, the same ones
    are stored. -/
structure SameMarks (q : SharedId) (d e : Draft) : Prop where
  stored : ∀ id, id ≠ q → (SharedId.lower q id ∈ e.stored ↔ id ∈ d.stored)

namespace Unshared

variable {q : SharedId} {name : String} {d e : Draft} (h : Unshared q name d e)

include h

theorem types : d.types[q]? = some (.ref .object) := by
  obtain ⟨entry, hentry, -, hty⟩ := h.computation
  simp [Draft.types, hentry, hty]

theorem lt : q < d.shared.length := by
  obtain ⟨entry, hentry, -⟩ := h.computation
  exact (List.getElem?_eq_some_iff.mp hentry).1

/-- A computation that stays, in the second draft. -/
theorem exists_entry {id : SharedId} (hid : id ≠ q) {entry : Shared} (hentry : d.shared[id]? = some entry) :
    ∃ entry', e.shared[SharedId.lower q id]? = some entry' ∧ entry'.value = entry.value.unshare q name ∧
      entry'.ty = entry.ty ∧ entry'.default = entry.default := by
  have hshared := h.shared id hid
  rw [hentry] at hshared
  obtain ⟨entry', hentry', hbare⟩ := Option.map_eq_some_iff.mp hshared
  simp only [bare, Shared.mk.injEq, and_true] at hbare
  exact ⟨entry', hentry', hbare⟩

theorem of_advances {d' e' : Draft} (hd : d.Advances d') (he : e.Advances e') : Unshared q name d' e' where
  reserved := h.reserved.of_advances hd
  computation := hd.shared ▸ h.computation
  shared := by
    rw [hd.shared, he.shared]
    exact h.shared
  length := by rw [hd.shared, he.shared, h.length]

theorem awaits (hsame : SameMarks q d e) {id : SharedId} (hid : id ≠ q) :
    e.awaits (SharedId.lower q id) = ((d.awaits id).filter (· ≠ q)).map (SharedId.lower q) := by
  by_cases hstored : id ∈ d.stored
  · rw [awaits_of_stored hstored, awaits_of_stored ((hsame.stored id hid).mpr hstored)]
    rfl
  · rw [awaits_of_not_stored hstored, awaits_of_not_stored fun hlow => hstored ((hsame.stored id hid).mp hlow)]
    cases hentry : d.shared[id]? with
    | none =>
      have hnone : e.shared[SharedId.lower q id]? = none := by
        have hshared := h.shared id hid
        rw [hentry] at hshared
        exact Option.map_eq_none_iff.mp hshared
      simp [Draft.mentions, hentry, hnone]
    | some entry =>
      obtain ⟨entry', hentry', hvalue, -⟩ := h.exists_entry hid hentry
      rw [mentions_eq hentry, mentions_eq hentry', hvalue]
      exact Code.mentions_unshare h.types (h.reserved.ordered id entry hentry).2

/-- The read itself leads to nothing else. -/
theorem awaits_self : d.awaits q = [] := by
  obtain ⟨entry, hentry, hvalue, -⟩ := h.computation
  by_cases hstored : q ∈ d.stored
  · exact awaits_of_stored hstored
  · rw [awaits_of_not_stored hstored, mentions_eq hentry, hvalue]
    rfl

/-- Of the computations that stay, code needs the same ones. -/
theorem mem_uses (hsame : SameMarks q d e) {pieces : List Code}
    (hfits : ∀ c ∈ pieces, c.Fits d.types d.shared.length) {id : SharedId} (hid : id ≠ q) :
    SharedId.lower q id ∈ e.uses (pieces.map (Code.unshare q name)) ↔ id ∈ d.uses pieces := by
  have hsearch := d.search_uses pieces
  have hsearch' := e.search_uses (pieces.map (Code.unshare q name))
  constructor
  · intro hmem
    -- both sides are least, so it is enough that each set is closed like the other
    have hback : ∃ id₀, id₀ ≠ q ∧ SharedId.lower q id = SharedId.lower q id₀ ∧ id₀ ∈ d.uses pieces := by
      refine hsearch'.least
        (fun low => ∃ id₀, id₀ ≠ q ∧ low = SharedId.lower q id₀ ∧ id₀ ∈ d.uses pieces) ?_ ?_ _ hmem (by simp)
      · intro low hlow
        obtain ⟨c', hc', hmention⟩ := List.mem_flatMap.mp hlow
        obtain ⟨c, hc, rfl⟩ := List.mem_map.mp hc'
        rw [Code.mentions_unshare h.types (hfits c hc)] at hmention
        obtain ⟨id₀, hid₀, rfl⟩ := List.mem_map.mp hmention
        obtain ⟨hmem₀, hne⟩ := List.mem_filter.mp hid₀
        exact ⟨id₀, by simpa using hne, rfl, hsearch.found id₀ (List.mem_flatMap.mpr ⟨c, hc, hmem₀⟩)⟩
      · rintro _ ⟨id₀, hne, rfl, hid₀⟩ low hlow
        rw [h.awaits hsame hne] at hlow
        obtain ⟨id₁, hid₁, rfl⟩ := List.mem_map.mp hlow
        obtain ⟨hmem₁, hne₁⟩ := List.mem_filter.mp hid₁
        exact ⟨id₁, by simpa using hne₁, rfl, hsearch.closed id₀ hid₀ (by simp) id₁ hmem₁⟩
    obtain ⟨id₀, hne, heq, hid₀⟩ := hback
    rwa [SharedId.lower_inj hid hne heq]
  · intro hmem
    refine hsearch.least (fun id => id ≠ q → SharedId.lower q id ∈ e.uses (pieces.map (Code.unshare q name)))
      ?_ ?_ id hmem (by simp) hid
    · intro id₀ hid₀ hne
      obtain ⟨c, hc, hmention⟩ := List.mem_flatMap.mp hid₀
      refine hsearch'.found _ (List.mem_flatMap.mpr ⟨_, List.mem_map_of_mem hc, ?_⟩)
      rw [Code.mentions_unshare h.types (hfits c hc)]
      exact List.mem_map_of_mem (List.mem_filter.mpr ⟨hmention, by simpa using hne⟩)
    · intro id₀ hfound id₁ hid₁ hne₁
      by_cases hne : id₀ = q
      · -- nothing is found by way of the read
        rw [hne, h.awaits_self] at hid₁
        cases hid₁
      · refine hsearch'.closed _ (hfound hne) (by simp) _ ?_
        rw [h.awaits hsame hne]
        exact List.mem_map_of_mem (List.mem_filter.mpr ⟨hid₁, by simpa using hne₁⟩)

/-- What is computed ahead is the same, but for the read. -/
theorem toHoist (hsame : SameMarks q d e) {regions after : List Code}
    (hregions : ∀ c ∈ regions, c.Fits d.types d.shared.length)
    (hafter : ∀ c ∈ after, c.Fits d.types d.shared.length) :
    e.toHoist (regions.map (Code.unshare q name)) (after.map (Code.unshare q name)) =
      ((d.toHoist regions after).filter (· ≠ q)).map (SharedId.lower q) := by
  -- of the numbers that are left, the same ones are chosen, in the same order
  have hcount : ∀ id, id ≠ q →
      (e.uses (after.map (Code.unshare q name)) ::
        (regions.map (Code.unshare q name)).map fun region => e.uses [region]).countP
          (·.contains (SharedId.lower q id)) =
      (d.uses after :: regions.map fun region => d.uses [region]).countP (·.contains id) := by
    intro id hid
    have hcontains : ∀ pieces : List Code, (∀ c ∈ pieces, c.Fits d.types d.shared.length) →
        (e.uses (pieces.map (Code.unshare q name))).contains (SharedId.lower q id) = (d.uses pieces).contains id := by
      intro pieces hpieces
      rw [Bool.eq_iff_iff, List.contains_iff_mem, List.contains_iff_mem]
      exact h.mem_uses hsame hpieces hid
    rw [List.countP_cons, List.countP_cons, hcontains after hafter, List.countP_map, List.countP_map, List.countP_map]
    congr 1
    refine List.countP_congr fun region hregion => ?_
    have hone := hcontains [region] (by simpa using hregions region hregion)
    simpa using hone
  have hrange := SharedId.map_lower_range (Nat.le_of_lt_succ (h.length ▸ h.lt))
  rw [h.length] at hrange
  rw [toHoist_eq, toHoist_eq, ← hrange, ← List.map_reverse, List.filter_map, ← List.filter_reverse,
    List.filter_filter, List.filter_filter]
  congr 1
  refine List.filter_congr fun id _ => ?_
  by_cases hid : id = q
  · simp [hid]
  · simp only [Function.comp_apply, hcount id hid, hid, ne_eq, not_false_eq_true, decide_true, Bool.and_true,
      Bool.true_and]

end Unshared

/-! ## Slots -/

/-- The places of the two drafts that are for the same thing. -/
inductive SamePlace (q : SharedId) (d e : Draft) : Place → Place → Prop
  | var (name : String) : SamePlace q d e (.var name) (.var name)
  | shared {id : SharedId} : id ≠ q → SamePlace q d e (.shared id) (.shared (SharedId.lower q id))
  | temp (n : Nat) : SamePlace q d e (.temp (d.nextSlot + n)) (.temp (e.nextSlot + n))

/-- So are their slots. -/
def Twin (q : SharedId) (d e : Draft) (a b : Nat) : Prop :=
  ∃ place place', SamePlace q d e place place' ∧ d.At place a ∧ e.At place' b

namespace Twin

variable {q : SharedId} {d e : Draft} {a b : Nat}

theorem var {name : String} (ha : d.At (.var name) a) (hb : e.At (.var name) b) : Twin q d e a b :=
  ⟨_, _, .var name, ha, hb⟩

theorem shared {id : SharedId} (hid : id ≠ q) (ha : d.At (.shared id) a)
    (hb : e.At (.shared (SharedId.lower q id)) b) : Twin q d e a b :=
  ⟨_, _, .shared hid, ha, hb⟩

theorem temp (n : Nat) : Twin q d e (d.nextSlot + n) (e.nextSlot + n) :=
  ⟨_, _, .temp n, ⟨rfl, Nat.le_add_right _ _⟩, rfl, Nat.le_add_right _ _⟩

/-- Slots go together in pairs. -/
theorem eq_iff (hd : d.Apart) (he : e.Apart) {a' b' : Nat} (h : Twin q d e a b) (h' : Twin q d e a' b') :
    a = a' ↔ b = b' := by
  obtain ⟨place₁, place₁', hsame₁, ha, hb⟩ := h
  obtain ⟨place₂, place₂', hsame₂, ha', hb'⟩ := h'
  have hunique : place₁ = place₂ ↔ place₁' = place₂' := by
    cases hsame₁ with
    | var name => cases hsame₂ <;> simp
    | shared hid =>
      cases hsame₂ with
      | shared hid' =>
        simp only [Place.shared.injEq]
        exact ⟨congrArg _, SharedId.lower_inj hid hid'⟩
      | _ => simp
    | temp n => cases hsame₂ <;> simp
  constructor
  · rintro rfl
    obtain rfl := hunique.mp (hd _ _ _ ha ha')
    exact at_unique hb hb'
  · rintro rfl
    obtain rfl := hunique.mpr (he _ _ _ hb hb')
    exact at_unique ha ha'

/-- The slot of the read that is left out goes with none. -/
theorem ne_of_at (hd : d.Apart) (h : Twin q d e a b) {slot : Nat} (hat : d.At (.shared q) slot) : a ≠ slot := by
  obtain ⟨place, place', hsame, ha, -⟩ := h
  rintro rfl
  obtain rfl := hd _ _ _ ha hat
  cases hsame with
  | shared hid => exact hid rfl

end Twin

end Draft

/-! ## Operations -/

/-- The second program is the first one without the shared read, whose slot is
    `kept`, of the variable in the slot `read`. Other slots are renumbered by
    `twin`. -/
inductive Splices (twin : Nat → Nat → Prop) (read kept : Nat) : List Op → List Op → Prop
  | nil : Splices twin read kept [] []
  | same {o rest rest'} : o.touchesSlot = false → Splices twin read kept rest rest' →
    Splices twin read kept (o :: rest) (o :: rest')
  | load {a b ty rest rest'} : twin a b → Splices twin read kept rest rest' →
    Splices twin read kept (.load a ty :: rest) (.load b ty :: rest')
  | store {a b ty rest rest'} : twin a b → (a = read → ty = .ref .object) → Splices twin read kept rest rest' →
    Splices twin read kept (.store a ty :: rest) (.store b ty :: rest')
  /-- The value is loaded, where the other program reads the variable. -/
  | again {b ty rest rest'} : twin read b → Splices twin read kept rest rest' →
    Splices twin read kept (.load kept ty :: rest) (.load b ty :: rest')
  /-- The variable is read, and the value is also stored. -/
  | first {b rest rest'} : twin read b → Splices twin read kept rest rest' →
    Splices twin read kept
      (.load read (.ref .object) :: .dup :: .store kept (.ref .object) :: rest) (.load b (.ref .object) :: rest')
  /-- The variable is read ahead, which the other program does not do. -/
  | ahead {rest rest'} : Splices twin read kept rest rest' →
    Splices twin read kept (.load read (.ref .object) :: .store kept (.ref .object) :: rest) rest'

namespace Splices

variable {twin : Nat → Nat → Prop} {read kept : Nat} {ops₁ ops₂ ops₁' ops₂' : List Op}

theorem append (h₁ : Splices twin read kept ops₁ ops₁') (h₂ : Splices twin read kept ops₂ ops₂') :
    Splices twin read kept (ops₁ ++ ops₂) (ops₁' ++ ops₂') := by
  induction h₁ with
  | nil => exact h₂
  | same ho _ ih => exact .same ho ih
  | load htwin _ ih => exact .load htwin ih
  | store htwin hty _ ih => exact .store htwin hty ih
  | again htwin _ ih => exact .again htwin ih
  | first htwin _ ih => exact .first htwin ih
  | ahead _ ih => exact .ahead ih

/-- Operations that touch no slots stay as they are. -/
theorem of_touchesSlot {ops : List Op} (h : ∀ o ∈ ops, o.touchesSlot = false) : Splices twin read kept ops ops := by
  induction ops with
  | nil => exact .nil
  | cons o rest ih => exact .same (h o List.mem_cons_self) (ih fun o ho => h o (List.mem_cons_of_mem _ ho))

theorem suffix_of_defines? {o : Op} (ho : o.defines? = none) {l : Label} {target rest : List Op}
    (h : .label l :: target <:+ o :: rest) : .label l :: target <:+ rest := by
  rcases List.suffix_cons_iff.mp h with heq | hsuffix
  · cases heq
    cases ho
  · exact hsuffix

/-- A label is followed by the same code in both programs. -/
theorem exists_of_label (h : Splices twin read kept ops₁ ops₁') {l : Label} {target : List Op}
    (htarget : .label l :: target <:+ ops₁) :
    ∃ target', .label l :: target' <:+ ops₁' ∧ Splices twin read kept target target' := by
  induction h with
  | nil => simp at htarget
  | @same o rest rest' _ hrest ih =>
    rcases List.suffix_cons_iff.mp htarget with heq | hsuffix
    · cases heq
      exact ⟨rest', List.suffix_refl _, hrest⟩
    · obtain ⟨target', hsuffix', hsplices⟩ := ih hsuffix
      exact ⟨target', hsuffix'.trans (List.suffix_cons _ _), hsplices⟩
  | load _ _ ih | store _ _ _ ih | again _ _ ih =>
    obtain ⟨target', hsuffix', hsplices⟩ := ih (suffix_of_defines? rfl htarget)
    exact ⟨target', hsuffix'.trans (List.suffix_cons _ _), hsplices⟩
  | first _ _ ih =>
    have hbehind := suffix_of_defines? rfl (suffix_of_defines? rfl (suffix_of_defines? rfl htarget))
    obtain ⟨target', hsuffix', hsplices⟩ := ih hbehind
    exact ⟨target', hsuffix'.trans (List.suffix_cons _ _), hsplices⟩
  | ahead _ ih => exact ih (suffix_of_defines? rfl (suffix_of_defines? rfl htarget))

end Splices

/-! ## Laid out code -/

namespace Draft

/-- The two drafts while the same code is laid out in both. -/
structure Aligned (q : SharedId) (D E d e : Draft) : Prop extends SameMarks q d e where
  left : D.Advances d
  right : E.Advances e
  nextLabel : e.nextLabel = d.nextLabel
  nextSlot : d.nextSlot + E.nextSlot = e.nextSlot + D.nextSlot

namespace Aligned

variable {q : SharedId} {D E d e : Draft} (h : Aligned q D E d e)

include h

theorem isStored {id : SharedId} (hid : id ≠ q) : e.isStored (SharedId.lower q id) = d.isStored id := by
  rw [Bool.eq_iff_iff, Draft.isStored, Draft.isStored, List.contains_iff_mem, List.contains_iff_mem]
  exact h.stored id hid

theorem mark {id : SharedId} (hid : id ≠ q) :
    Aligned q D E (d.markStored id) (e.markStored (SharedId.lower q id)) where
  stored id' hid' := by
    simp only [markStored, List.mem_cons, h.stored id' hid']
    exact or_congr_left ⟨SharedId.lower_inj hid' hid, congrArg _⟩
  left := h.left.trans (d.advances_markStored id)
  right := h.right.trans (e.advances_markStored _)
  nextLabel := h.nextLabel
  nextSlot := h.nextSlot

/-- The read is marked in the first draft only. -/
theorem mark_self : Aligned q D E (d.markStored q) e where
  stored id hid := by
    rw [h.stored id hid]
    simp [markStored, hid]
  left := h.left.trans (d.advances_markStored q)
  right := h.right
  nextLabel := h.nextLabel
  nextSlot := h.nextSlot

theorem beginLoop : Aligned q D E d.beginLoop e.beginLoop where
  stored := h.stored
  left := h.left.trans d.advances_beginLoop
  right := h.right.trans e.advances_beginLoop
  nextLabel := by simp [Draft.beginLoop, h.nextLabel]
  nextSlot := by
    have hslots := h.nextSlot
    simp only [Draft.beginLoop]
    omega

theorem beginBranch : Aligned q D E d.beginBranch e.beginBranch where
  stored := h.stored
  left := h.left.trans d.advances_beginBranch
  right := h.right.trans e.advances_beginBranch
  nextLabel := by simp [Draft.beginBranch, h.nextLabel]
  nextSlot := h.nextSlot

theorem raw (ops : List Op) : Aligned q D E (d.emitRaw ops).draft (e.emitRaw ops).draft where
  stored := h.stored
  left := h.left.trans ⟨rfl, rfl, Nat.le_refl _, Nat.le_add_right _ _, fun _ h => h⟩
  right := h.right.trans ⟨rfl, rfl, Nat.le_refl _, Nat.le_add_right _ _, fun _ h => h⟩
  nextLabel := by simp [emitRaw, h.nextLabel]
  nextSlot := h.nextSlot

/-- The marks of both are set back. -/
theorem restore {d' e' : Draft} (h' : Aligned q D E d' e') :
    Aligned q D E (d'.restoreMarks d.stored) (e'.restoreMarks e.stored) where
  stored := h.stored
  left := ⟨h'.left.shared, h'.left.variableSlots, h'.left.nextSlot, h'.left.nextLabel, h.left.stored⟩
  right := ⟨h'.right.shared, h'.right.variableSlots, h'.right.nextSlot, h'.right.nextLabel, h.right.stored⟩
  nextLabel := h'.nextLabel
  nextSlot := h'.nextSlot

/-- The next temporaries go together. -/
theorem twin_nextSlot (n : Nat) : Twin q D E (d.nextSlot + n) (e.nextSlot + n) := by
  obtain ⟨m, hm⟩ := Nat.exists_eq_add_of_le h.left.nextSlot
  have hslots := h.nextSlot
  have he : e.nextSlot + n = E.nextSlot + (m + n) := by omega
  have hd : d.nextSlot + n = D.nextSlot + (m + n) := by omega
  rw [hd, he]
  exact .temp _

theorem at_var {name : String} {a : Nat} (ha : d.variableSlots.lookup name = some a) : D.At (.var name) a := by
  rw [h.left.variableSlots] at ha
  exact ha

theorem at_var' {name : String} {b : Nat} (hb : e.variableSlots.lookup name = some b) : E.At (.var name) b := by
  rw [h.right.variableSlots] at hb
  exact hb

theorem twin_var {name : String} {a b : Nat} (ha : d.variableSlots.lookup name = some a)
    (hb : e.variableSlots.lookup name = some b) : Twin q D E a b :=
  .var (h.at_var ha) (h.at_var' hb)

theorem at_shared {id : SharedId} {entry : Shared} {a : Nat} (hentry : d.shared[id]? = some entry)
    (ha : entry.slot = some a) : D.At (.shared id) a :=
  ⟨entry, h.left.shared ▸ hentry, ha⟩

theorem twin_shared {id : SharedId} (hid : id ≠ q) {entry entry' : Shared} {a b : Nat}
    (hentry : d.shared[id]? = some entry) (ha : entry.slot = some a)
    (hentry' : e.shared[SharedId.lower q id]? = some entry') (hb : entry'.slot = some b) : Twin q D E a b :=
  .shared hid (h.at_shared hentry ha) ⟨entry', h.right.shared ▸ hentry', hb⟩

end Aligned

/-- What the job works on fits the draft, and so does the code that runs
    afterwards. -/
def Takes (d : Draft) : Job → Prop
  | .code c after => c.Fits d.types d.shared.length ∧ ∀ c ∈ after, c.Fits d.types d.shared.length
  | .stores _ after => ∀ c ∈ after, c.Fits d.types d.shared.length

theorem Reserved.takes_value {d : Draft} (h : d.Reserved) {id : SharedId} {entry : Shared}
    (hentry : d.shared[id]? = some entry) {after : List Code}
    (hafter : ∀ c ∈ after, c.Fits d.types d.shared.length) : d.Takes (.code entry.value after) := by
  have hlt := (List.getElem?_eq_some_iff.mp hentry).1
  exact ⟨(h.ordered id entry hentry).2.mono (List.prefix_refl _) (Nat.le_of_lt hlt), hafter⟩

end Draft

/-- The job without the shared read. -/
def Job.unshare (q : SharedId) (name : String) : Job → Job
  | .code c after => .code (c.unshare q name) (after.map (Code.unshare q name))
  | .stores ids after => .stores ((ids.filter (· ≠ q)).map (SharedId.lower q)) (after.map (Code.unshare q name))

namespace Draft

/-- The two prepared drafts, with the slots of the variable and of the read. -/
structure Beside (q : SharedId) (name : String) (D E : Draft) (read kept : Nat) : Prop extends
    Unshared q name D E where
  apart : D.Apart
  read_at : D.At (.var name) read
  kept_at : D.At (.shared q) kept

/-- Wherever the job is laid out in both drafts, the operations are the same
    up to the read. -/
def Parallel (q : SharedId) (name : String) (D E : Draft) (read kept : Nat) (job : Job) (d : Draft) (ops : List Op)
    (d₁ : Draft) : Prop :=
  ∀ e ops' e₁, Aligned q D E d e → D.Takes job → Lays (job.unshare q name) e ops' e₁ →
    Splices (Twin q D E) read kept ops ops' ∧ Aligned q D E d₁ e₁

/-- What is stored is skipped by both. -/
theorem Parallel.skip {q : SharedId} {name : String} {D E : Draft} {read kept : Nat} {id : SharedId}
    {rest : List SharedId} {after : List Code} {d d' : Draft} {ops : List Op}
    (hstored : d.isStored id = true) (ih : Parallel q name D E read kept (.stores rest after) d ops d') :
    Parallel q name D E read kept (.stores (id :: rest) after) d ops d' := by
  intro e ops' e₁ hd hfits hlays
  by_cases hid : id = q
  · simp only [Job.unshare, hid, ne_eq, not_true_eq_false, decide_false, Bool.false_eq_true, not_false_eq_true,
      List.filter_cons_of_neg] at hlays
    exact ih _ _ _ hd hfits hlays
  · simp only [Job.unshare, hid, ne_eq, not_false_eq_true, decide_true, List.filter_cons_of_pos, List.map_cons] at hlays
    cases hlays with
    | skip _ hrest => exact ih _ _ _ hd hfits hrest
    | store _ _ hstored' =>
      rw [hd.isStored hid, hstored] at hstored'
      cases hstored'

namespace Beside

variable {q : SharedId} {name : String} {D E : Draft} {read kept : Nat} (h : Beside q name D E read kept)

include h

/-- A slot that is not of the variable holds what its type says. -/
theorem ne_read {place : Place} {a : Nat} (ha : D.At place a) (hplace : place ≠ .var name) : a ≠ read := by
  rintro rfl
  exact hplace (h.apart _ _ _ ha h.read_at)

theorem ty_eq {n : Nat} {ty : Ty} (hfits : (Code.shared q ty).Fits D.types n) : ty = .ref .object :=
  Option.some.inj (hfits.2.symm.trans h.types)

/-- The read is the only computation that is left out. -/
theorem value_eq {d e : Draft} (hd : Aligned q D E d e) {entry : Shared} (hentry : d.shared[q]? = some entry) :
    entry.value = .getVariable name := by
  obtain ⟨entry', hentry', hvalue, -⟩ := h.computation
  rw [hd.left.shared] at hentry
  rw [Option.some.inj (hentry.symm.trans hentry'), hvalue]

theorem kept_eq {d e : Draft} (hd : Aligned q D E d e) {entry : Shared} (hentry : d.shared[q]? = some entry)
    {slot : Nat} (hslot : entry.slot = some slot) : slot = kept :=
  at_unique (hd.at_shared hentry hslot) h.kept_at

theorem parallel_load {id : SharedId} {ty : Ty} {after : List Code} {d : Draft} {entry : Shared} {slot : Nat}
    (hentry : d.shared[id]? = some entry) (hslot : entry.slot = some slot) (hstored : d.isStored id = true) :
    Parallel q name D E read kept (.code (.shared id ty) after) d [.load slot ty] d := by
  intro e ops' e₁ hd hfits hlays
  by_cases hid : id = q
  · subst hid
    obtain rfl := h.ty_eq hfits.1
    simp only [Job.unshare, Code.unshare_self] at hlays
    cases hlays with
    | getVariable hlookup =>
      rw [h.kept_eq hd hentry hslot]
      exact ⟨.again (.var h.read_at (hd.at_var' hlookup)) .nil, hd⟩
  · simp only [Job.unshare, Code.unshare_of_ne hid] at hlays
    cases hlays with
    | load hentry' hslot' _ => exact ⟨.load (hd.twin_shared hid hentry hslot hentry' hslot') .nil, hd⟩
    | compute _ _ hstored' =>
      rw [hd.isStored hid, hstored] at hstored'
      cases hstored'

theorem parallel_compute {id : SharedId} {ty : Ty} {after : List Code} {d d' : Draft} {entry : Shared} {slot : Nat}
    {ops : List Op} (hentry : d.shared[id]? = some entry) (hslot : entry.slot = some slot)
    (hstored : d.isStored id = false) (hvalue : Lays (.code entry.value after) (d.markStored id) ops d')
    (ih : Parallel q name D E read kept (.code entry.value after) (d.markStored id) ops d') :
    Parallel q name D E read kept (.code (.shared id ty) after) d (ops ++ [Op.dup, .store slot ty]) d' := by
  intro e ops' e₁ hd hfits hlays
  by_cases hid : id = q
  · subst hid
    obtain rfl := h.ty_eq hfits.1
    rw [h.value_eq hd hentry] at hvalue
    simp only [Job.unshare, Code.unshare_self] at hlays
    cases hvalue with
    | getVariable hlookup =>
      cases hlays with
      | getVariable hlookup' =>
        rw [h.kept_eq hd hentry hslot, at_unique (hd.at_var hlookup) h.read_at]
        exact ⟨.first (.var h.read_at (hd.at_var' hlookup')) .nil, hd.mark_self⟩
  · -- the marks of all others are the same, so the other program computes it here too
    simp only [Job.unshare, Code.unshare_of_ne hid] at hlays
    cases hlays with
    | load _ _ hstored' =>
      rw [hd.isStored hid, hstored] at hstored'
      cases hstored'
    | @compute _ _ _ _ entry' slot' _ _ hentry' hslot' _ hlays' =>
      have hentryD : D.shared[id]? = some entry := hd.left.shared ▸ hentry
      obtain ⟨entry'', hentry'', hvalue', -⟩ := h.exists_entry hid hentryD
      obtain rfl : entry'' = entry' := Option.some.inj (hentry''.symm.trans (hd.right.shared ▸ hentry'))
      rw [hvalue'] at hlays'
      obtain ⟨hsplices, hd'⟩ := ih _ _ _ (hd.mark hid) (h.reserved.takes_value hentryD hfits.2) hlays'
      refine ⟨hsplices.append (.same rfl (.store (hd.twin_shared hid hentry hslot hentry' hslot') ?_ .nil)), hd'⟩
      intro heq
      exact absurd heq (h.ne_read (hd.at_shared hentry hslot) (by simp))

theorem parallel_store {id : SharedId} {rest : List SharedId} {after : List Code} {d d₁ d₂ : Draft} {entry : Shared}
    {slot : Nat} {ops₁ ops₂ : List Op} (hentry : d.shared[id]? = some entry) (hslot : entry.slot = some slot)
    (hstored : d.isStored id = false) (hvalue : Lays (.code entry.value after) (d.markStored id) ops₁ d₁)
    (ih₁ : Parallel q name D E read kept (.code entry.value after) (d.markStored id) ops₁ d₁)
    (ih₂ : Parallel q name D E read kept (.stores rest after) d₁ ops₂ d₂) :
    Parallel q name D E read kept (.stores (id :: rest) after) d
      (ops₁ ++ [Op.store slot entry.value.ty] ++ ops₂) d₂ := by
  intro e ops' e₁ hd hfits hlays
  by_cases hid : id = q
  · -- the read is computed ahead, and the other program goes on with the rest
    subst hid
    simp only [Job.unshare, ne_eq, not_true_eq_false, decide_false, Bool.false_eq_true, not_false_eq_true,
      List.filter_cons_of_neg] at hlays
    rw [h.value_eq hd hentry] at hvalue ⊢
    cases hvalue with
    | getVariable hlookup =>
      obtain ⟨hsplices, hd₂⟩ := ih₂ _ _ _ hd.mark_self hfits hlays
      rw [h.kept_eq hd hentry hslot, at_unique (hd.at_var hlookup) h.read_at]
      exact ⟨.ahead hsplices, hd₂⟩
  · simp only [Job.unshare, hid, ne_eq, not_false_eq_true, decide_true, List.filter_cons_of_pos, List.map_cons] at hlays
    cases hlays with
    | skip hstored' =>
      rw [hd.isStored hid, hstored] at hstored'
      cases hstored'
    | @store _ _ _ _ entry' slot' _ _ _ _ hentry' hslot' _ hlays' hrest =>
      have hentryD : D.shared[id]? = some entry := hd.left.shared ▸ hentry
      obtain ⟨entry'', hentry'', hvalue', -⟩ := h.exists_entry hid hentryD
      obtain rfl : entry'' = entry' := Option.some.inj (hentry''.symm.trans (hd.right.shared ▸ hentry'))
      rw [hvalue'] at hlays' ⊢
      obtain ⟨hsplices₁, hd₁⟩ := ih₁ _ _ _ (hd.mark hid) (h.reserved.takes_value hentryD hfits) hlays'
      obtain ⟨hsplices₂, hd₂⟩ := ih₂ _ _ _ hd₁ hfits hrest
      rw [Code.ty_unshare]
      have htwin := hd.twin_shared hid hentry hslot hentry' hslot'
      refine ⟨(hsplices₁.append (.store htwin ?_ .nil)).append hsplices₂, hd₂⟩
      intro heq
      exact absurd heq (h.ne_read (hd.at_shared hentry hslot) (by simp))

/-- What goes ahead of regions is the same job in both. -/
theorem lays_toHoist {d e : Draft} (hd : Aligned q D E d e) (regions : List Code) {after : List Code} (behind : List Code)
    (hregions : ∀ c ∈ regions, c.Fits D.types D.shared.length) (hafter : ∀ c ∈ after, c.Fits D.types D.shared.length)
    {e₀ e₁ : Draft} {ops' : List Op}
    (hlays : Lays (.stores (e.toHoist (regions.map (Code.unshare q name)) (after.map (Code.unshare q name)))
      (behind.map (Code.unshare q name))) e₀ ops' e₁) :
    Lays (Job.unshare q name (.stores (d.toHoist regions after) behind)) e₀ ops' e₁ := by
  have hboth := h.toUnshared.of_advances hd.left hd.right
  have htypes := hd.left.types_eq
  have hlength := congrArg List.length hd.left.shared
  rw [hboth.toHoist hd.toSameMarks (by rwa [htypes, hlength]) (by rwa [htypes, hlength])] at hlays
  exact hlays

theorem splices_store_temp {d e : Draft} (hd : Aligned q D E d e) (n : Nat) {rest rest' : List Op}
    (hrest : Splices (Twin q D E) read kept rest rest') :
    Splices (Twin q D E) read kept (.store (d.nextSlot + n) .double :: rest)
      (.store (e.nextSlot + n) .double :: rest') := by
  refine .store (hd.twin_nextSlot n) ?_ hrest
  intro heq
  have hat : D.At (.temp (d.nextSlot + n)) (d.nextSlot + n) :=
    ⟨rfl, Nat.le_trans hd.left.nextSlot (Nat.le_add_right _ _)⟩
  exact absurd heq (h.ne_read hat (by simp))

theorem parallel_loop {times body : Code} {after : List Code} {d d₁ d₂ d₃ : Draft} {ops₁ ops₂ ops₃ : List Op}
    (ih₁ : Parallel q name D E read kept (.code times (body :: after)) d ops₁ d₁)
    (ih₂ : Parallel q name D E read kept (.stores (d₁.toHoist [body] after) (body :: after)) d₁.beginLoop ops₂ d₂)
    (ih₃ : Parallel q name D E read kept (.code body after) d₂ ops₃ d₃) :
    Parallel q name D E read kept (.code (.loop times body) after) d
      (ops₁ ++ loopStart d₁.nextSlot ++ ops₂ ++ loopTest d₁.nextSlot d₁.nextLabel ++ ops₃ ++
        loopEnd d₁.nextSlot d₁.nextLabel) (d₃.restoreMarks d₂.stored) := by
  rintro e ops' e₁ hd ⟨hfits, hafter⟩ hlays
  have hbehind : ∀ c ∈ body :: after, c.Fits D.types D.shared.length := List.forall_mem_cons.mpr ⟨hfits.2, hafter⟩
  simp only [Job.unshare, Code.unshare] at hlays
  cases hlays with
  | @loop _ _ _ _ _ e₁ _ e₂ _ e₃ hlays₁ hlays₂ hlays₃ =>
    obtain ⟨hsplices₁, hd₁⟩ := ih₁ _ _ _ hd ⟨hfits.1, hbehind⟩ hlays₁
    obtain ⟨hsplices₂, hd₂⟩ := ih₂ _ _ _ hd₁.beginLoop hbehind
      (h.lays_toHoist hd₁ [body] (body :: after) (by simpa using hfits.2) hafter hlays₂)
    obtain ⟨hsplices₃, hd₃⟩ := ih₃ _ _ _ hd₂ ⟨hfits.2, hafter⟩ hlays₃
    -- limit and counter have other slots in the other program, but the labels are the same
    have hstart : Splices (Twin q D E) read kept (loopStart d₁.nextSlot) (loopStart e₁.nextSlot) :=
      h.splices_store_temp hd₁ 0 (.same rfl (h.splices_store_temp hd₁ 1 .nil))
    have htest : Splices (Twin q D E) read kept (loopTest d₁.nextSlot d₁.nextLabel)
        (loopTest e₁.nextSlot e₁.nextLabel) := by
      rw [hd₁.nextLabel]
      exact .same rfl (.load (hd₁.twin_nextSlot 1) (.load (hd₁.twin_nextSlot 0) (.same rfl (.same rfl .nil))))
    have hend : Splices (Twin q D E) read kept (loopEnd d₁.nextSlot d₁.nextLabel)
        (loopEnd e₁.nextSlot e₁.nextLabel) := by
      rw [hd₁.nextLabel]
      refine .load (hd₁.twin_nextSlot 1) (.same rfl (.same rfl (h.splices_store_temp hd₁ 1 ?_)))
      exact .same rfl (.same rfl .nil)
    refine ⟨?_, hd₂.restore hd₃⟩
    exact ((((hsplices₁.append hstart).append hsplices₂).append htest).append hsplices₃).append hend

theorem parallel_branch {condition yes no : Code} {after : List Code} {d d₁ d₂ d₃ d₄ : Draft}
    {ops₁ ops₂ ops₃ ops₄ : List Op}
    (ih₁ : Parallel q name D E read kept (.code condition (yes :: no :: after)) d ops₁ d₁)
    (ih₂ : Parallel q name D E read kept (.stores (d₁.toHoist [yes, no] after) (yes :: no :: after)) d₁ ops₂ d₂)
    (ih₃ : Parallel q name D E read kept (.code yes after) d₂.beginBranch ops₃ d₃)
    (ih₄ : Parallel q name D E read kept (.code no after) (d₃.restoreMarks d₂.stored) ops₄ d₄) :
    Parallel q name D E read kept (.code (.branch condition yes no) after) d
      (ops₁ ++ ops₂ ++ [Op.jumpUnless d₂.nextLabel] ++ ops₃ ++
        [Op.jump (d₂.nextLabel + 1), .label d₂.nextLabel] ++ ops₄ ++ [Op.label (d₂.nextLabel + 1)])
      (d₄.restoreMarks d₂.stored) := by
  rintro e ops' e₁ hd ⟨⟨hcondition, hyes, hno⟩, hafter⟩ hlays
  have hregions : ∀ c ∈ [yes, no], c.Fits D.types D.shared.length := by simpa using ⟨hyes, hno⟩
  have hbehind : ∀ c ∈ yes :: no :: after, c.Fits D.types D.shared.length :=
    List.forall_mem_cons.mpr ⟨hyes, List.forall_mem_cons.mpr ⟨hno, hafter⟩⟩
  simp only [Job.unshare, Code.unshare] at hlays
  cases hlays with
  | @branch _ _ _ _ _ _ e₁ _ e₂ _ e₃ _ e₄ hlays₁ hlays₂ hlays₃ hlays₄ =>
    obtain ⟨hsplices₁, hd₁⟩ := ih₁ _ _ _ hd ⟨hcondition, hbehind⟩ hlays₁
    obtain ⟨hsplices₂, hd₂⟩ := ih₂ _ _ _ hd₁ hbehind
      (h.lays_toHoist hd₁ [yes, no] (yes :: no :: after) hregions hafter hlays₂)
    obtain ⟨hsplices₃, hd₃⟩ := ih₃ _ _ _ hd₂.beginBranch ⟨hyes, hafter⟩ hlays₃
    obtain ⟨hsplices₄, hd₄⟩ := ih₄ _ _ _ (hd₂.restore hd₃) ⟨hno, hafter⟩ hlays₄
    refine ⟨?_, hd₂.restore hd₄⟩
    rw [hd₂.nextLabel]
    -- tests, jumps and labels touch no slot, and the labels are the same
    have hjumps (ops : List Op) (hops : ∀ o ∈ ops, o.touchesSlot = false) :
        Splices (Twin q D E) read kept ops ops := .of_touchesSlot hops
    exact (((((hsplices₁.append hsplices₂).append (hjumps _ (by simp [Op.touchesSlot]))).append hsplices₃).append
      (hjumps _ (by simp [Op.touchesSlot]))).append hsplices₄).append (hjumps _ (by simp [Op.touchesSlot]))

end Beside

end Draft

/-- The operations of code are the same up to the shared read. The induction
    is on how the code is laid out with it. -/
theorem Lays.splices {q : SharedId} {name : String} {D E : Draft} {read kept : Nat}
    (hboth : Draft.Beside q name D E read kept) {job : Job} {d d₁ : Draft} {ops : List Op} (h : Lays job d ops d₁) :
    Draft.Parallel q name D E read kept job d ops d₁ := by
  induction h with
  | op =>
    intro e ops' e₁ hd hfits hlays
    cases hlays with
    | op => exact ⟨.same (Op.touchesSlot_of_isPlain hfits.1) .nil, hd⟩
  | done =>
    intro e ops' e₁ hd hfits hlays
    cases hlays with
    | done => exact ⟨.nil, hd⟩
  | andThen _ _ ih₁ ih₂ =>
    rintro e ops' e₁ hd ⟨hfits, hafter⟩ hlays
    simp only [Job.unshare, Code.unshare] at hlays
    cases hlays with
    | andThen hlays₁ hlays₂ =>
      obtain ⟨hsplices₁, hd₁⟩ := ih₁ _ _ _ hd ⟨hfits.1, List.forall_mem_cons.mpr ⟨hfits.2, hafter⟩⟩ hlays₁
      obtain ⟨hsplices₂, hd₂⟩ := ih₂ _ _ _ hd₁ ⟨hfits.2, hafter⟩ hlays₂
      exact ⟨hsplices₁.append hsplices₂, hd₂⟩
  | @raw ty ops after d =>
    intro e ops' e₁ hd hfits hlays
    cases hlays with
    | raw =>
      -- both drafts have handed out as many labels, so they rename alike
      have hsame : (e.emitRaw ops).ops = (d.emitRaw ops).ops := by
        simp only [Draft.emitRaw, hd.nextLabel, Emission.ops]
      rw [hsame]
      refine ⟨.of_touchesSlot fun o ho => ?_, hd.raw ops⟩
      obtain ⟨o', ho', rfl⟩ := List.mem_map.mp (by simpa [Emission.ops, Draft.emitRaw] using ho)
      rw [Op.touchesSlot_relabel]
      exact (hfits.1.slots o' ho').1
  | load hentry hslot hstored => exact hboth.parallel_load hentry hslot hstored
  | compute hentry hslot hstored hvalue ih => exact hboth.parallel_compute hentry hslot hstored hvalue ih
  | getVariable hlookup =>
    intro e ops' e₁ hd hfits hlays
    cases hlays with
    | getVariable hlookup' => exact ⟨.load (hd.twin_var hlookup hlookup') .nil, hd⟩
  | setVariable _ hlookup ih =>
    rintro e ops' e₁ hd ⟨hfits, hafter⟩ hlays
    simp only [Job.unshare, Code.unshare] at hlays
    cases hlays with
    | setVariable hlays' hlookup' =>
      obtain ⟨hsplices, hd'⟩ := ih _ _ _ hd ⟨hfits, hafter⟩ hlays'
      exact ⟨hsplices.append (.store (hd'.twin_var hlookup hlookup') (fun _ => rfl) .nil), hd'⟩
  | loop _ _ _ ih₁ ih₂ ih₃ => exact hboth.parallel_loop ih₁ ih₂ ih₃
  | branch _ _ _ _ ih₁ ih₂ ih₃ ih₄ => exact hboth.parallel_branch ih₁ ih₂ ih₃ ih₄
  | nil =>
    intro e ops' e₁ hd hfits hlays
    cases hlays with
    | nil => exact ⟨.nil, hd⟩
  | skip hstored _ ih => exact .skip hstored ih
  | store hentry hslot hstored hvalue _ ih₁ ih₂ => exact hboth.parallel_store hentry hslot hstored hvalue ih₁ ih₂

namespace Draft

/-- The draft of a program, prepared for its code with and without the read. -/
theorem Complete.beside {d e : Draft} {body : Code} {q : SharedId} {name : String} (hd : d.Complete body)
    (he : e.Complete (body.unshare q name)) (hshared : e.shared = (d.unshare q name).shared) {entry : Shared}
    (hentry : d.shared[q]? = some entry) (hvalue : entry.value = .getVariable name) (hty : entry.ty = .ref .object) :
    ∃ read kept, Beside q name (d.prepare body) (e.prepare (body.unshare q name)) read kept := by
  obtain ⟨hprepared, -, -⟩ := hd.prepared
  have hlt := (List.getElem?_eq_some_iff.mp hentry).1
  have hlength : (d.prepare body).shared.length = d.shared.length := by
    simpa using congrArg List.length hd.reserves.bare_eq
  have hlength' : (e.prepare (body.unshare q name)).shared.length = e.shared.length := by
    simpa using congrArg List.length he.reserves.bare_eq
  -- the computation of the read has a slot, and so has the variable
  have hentry₁ := List.getElem?_eq_getElem (hlength ▸ hlt)
  obtain ⟨entry₀, hentry₀, hvalue₁, hty₁, -⟩ := hd.reserves.getElem? hentry₁
  obtain rfl : entry₀ = entry := Option.some.inj (hentry₀.symm.trans hentry)
  rw [hvalue] at hvalue₁
  rw [hty] at hty₁
  obtain ⟨kept, hkept⟩ := hprepared.slots q _ hentry₁
  obtain ⟨read, hread⟩ := hprepared.names q _ hentry₁ name (by simp [hvalue₁, Code.names])
  refine ⟨read, kept, ⟨hprepared.toReserved, ⟨_, hentry₁, hvalue₁, hty₁⟩, ?_, ?_⟩, hprepared.packed.apart, hread,
    _, hentry₁, hkept⟩
  · intro id hid
    have hbare : (d.prepare body).shared[id]?.map bare = d.shared[id]?.map bare := by
      rw [← List.getElem?_map, hd.reserves.bare_eq, List.getElem?_map]
    have hbare' := congrArg (·[SharedId.lower q id]?) he.reserves.bare_eq
    simp only [List.getElem?_map] at hbare'
    rw [hbare', hshared, unshare_getElem? hid, Option.map_map]
    have hcommutes :=
      congrArg (Option.map fun entry : Shared => { entry with value := entry.value.unshare q name }) hbare
    rw [Option.map_map, Option.map_map] at hcommutes
    exact hcommutes.symm
  · rw [hlength', hlength, hshared]
    simp only [unshare, List.length_map, List.length_eraseIdx_of_lt hlt]
    exact Nat.sub_add_cancel (Nat.zero_lt_of_lt hlt)

/-- The code of the two programs. -/
theorem Complete.splices {d e : Draft} {body : Code} {q : SharedId} {name : String} (hd : d.Complete body)
    (he : e.Complete (body.unshare q name)) {read kept : Nat}
    (hboth : Beside q name (d.prepare body) (e.prepare (body.unshare q name)) read kept) :
    Splices (Twin q (d.prepare body) (e.prepare (body.unshare q name))) read kept (d.layout body).ops
        (e.layout (body.unshare q name)).ops ∧
      Aligned q (d.prepare body) (e.prepare (body.unshare q name)) (d.layout body).draft
        (e.layout (body.unshare q name)).draft := by
  obtain ⟨hprepared, hfits, -⟩ := hd.prepared
  obtain ⟨hprepared', -, -⟩ := he.prepared
  refine hd.lays.splices hboth _ _ _ ?_ ⟨hfits, by simp⟩ he.lays
  refine ⟨⟨?_⟩, .refl _, .refl _, ?_, Nat.add_comm _ _⟩
  · simp [hprepared.stored, hprepared'.stored]
  · rw [hd.reserves.nextLabel_eq, he.reserves.nextLabel_eq, hd.fresh.nextLabel, he.fresh.nextLabel]

end Draft

/-! ## The number of slots -/

/-- A code without the read names no more variables than the code with it. -/
theorem Code.names_unshare {q : SharedId} {name other : String} {c : Code} (h : other ∈ (c.unshare q name).names) :
    other ∈ c.names ∨ other = name := by
  induction c with
  | shared id ty =>
    unfold unshare at h
    split at h
    · exact .inr (List.mem_singleton.mp h)
    · cases h
  | andThen first rest ihf ihr =>
    rcases List.mem_append.mp h with h | h
    · exact (ihf h).imp_left (List.mem_append_left _)
    · exact (ihr h).imp_left (List.mem_append_right _)
  | setVariable target value ih =>
    rcases List.mem_cons.mp h with rfl | h
    · exact .inl List.mem_cons_self
    · exact (ih h).imp_left (List.mem_cons_of_mem _)
  | loop times body iht ihb =>
    rcases List.mem_append.mp h with h | h
    · exact (iht h).imp_left (List.mem_append_left _)
    · exact (ihb h).imp_left (List.mem_append_right _)
  | branch condition yes no ihc ihy ihn =>
    rcases List.mem_append.mp h with h | h
    · rcases List.mem_append.mp h with h | h
      · exact (ihc h).imp_left fun h => List.mem_append_left _ (List.mem_append_left _ h)
      · exact (ihy h).imp_left fun h => List.mem_append_left _ (List.mem_append_right _ h)
    · exact (ihn h).imp_left (List.mem_append_right _)
  | _ => exact .inl h

namespace Draft

variable {d : Draft}

/-- No computation gets lost. -/
theorem Reserves.exists_entry {d' : Draft} (h : d.Reserves d') {id : SharedId} {entry : Shared}
    (hentry : d.shared[id]? = some entry) : ∃ entry', d'.shared[id]? = some entry' ∧ entry'.value = entry.value := by
  have hbare := congrArg (·[id]?) h.bare_eq
  simp only [List.getElem?_map, hentry, Option.map_some, Option.map_eq_some_iff] at hbare
  obtain ⟨entry', hentry', heq⟩ := hbare
  have hvalue := congrArg Shared.value heq
  exact ⟨entry', hentry', hvalue⟩

/-- Slots are for variables and for shared computations. -/
theorem Prepared.nextSlot_eq (h : d.Prepared) : d.nextSlot = d.variableSlots.length + d.shared.length := by
  have hlength := h.packed.length_eq
  rw [initials_slots] at hlength
  have hall : (d.shared.filterMap Shared.slot).length = d.shared.length := by
    refine List.filterMap_length_eq_length.mpr fun entry hmem => ?_
    obtain ⟨id, hget⟩ := List.getElem?_of_mem hmem
    obtain ⟨slot, hslot⟩ := h.slots id entry hget
    rw [hslot]
    rfl
  simp only [List.length_append, List.length_reverse, List.length_map, List.length_range] at hlength
  omega

/-- Without the read there is a slot less. -/
theorem Complete.nextSlot_lt {d e : Draft} {body : Code} {q : SharedId} {name : String} (hd : d.Complete body)
    (he : e.Complete (body.unshare q name)) (hshared : e.shared = (d.unshare q name).shared) {read kept : Nat}
    (hboth : Beside q name (d.prepare body) (e.prepare (body.unshare q name)) read kept) :
    (e.prepare (body.unshare q name)).nextSlot < (d.prepare body).nextSlot := by
  obtain ⟨hprepared, -, hnames⟩ := hd.prepared
  obtain ⟨hprepared', -, -⟩ := he.prepared
  -- every variable of the second draft is one of the first
  have hname : (d.prepare body).Named name := ⟨read, hboth.read_at⟩
  have hbody : ∀ other ∈ (body.unshare q name).names, (d.prepare body).Named other := fun other hother =>
    (Code.names_unshare hother).elim (hnames other) fun heq => heq ▸ hname
  have hvalues : ∀ entry ∈ e.shared, ∀ other ∈ entry.value.names, (d.prepare body).Named other := by
    intro entry hmem other hother
    rw [hshared] at hmem
    obtain ⟨entry₀, hmem₀, rfl⟩ := List.mem_map.mp hmem
    obtain ⟨id, hget⟩ := List.getElem?_of_mem (List.mem_of_mem_eraseIdx hmem₀)
    rcases Code.names_unshare hother with hother | rfl
    · obtain ⟨entry₁, hentry₁, hvalue⟩ := hd.reserves.exists_entry hget
      exact hprepared.names id entry₁ hentry₁ other (hvalue ▸ hother)
    · exact hname
  have hsub : (e.prepare (body.unshare q name)).variableSlots.map Prod.fst ⊆
      (d.prepare body).variableSlots.map Prod.fst := by
    intro other hother
    obtain ⟨x, hx, rfl⟩ := List.mem_map.mp hother
    obtain ⟨slot, hslot⟩ : (d.prepare body).Named x.1 := by
      rcases (e.searchedFor_prepare _).named x.1 (named_of_mem hx) with hold | hname | ⟨id, entry, -, hentry, hname⟩
      · simp [Named, he.fresh.variableSlots] at hold
      · exact hbody x.1 hname
      · exact hvalues entry (List.mem_of_getElem? hentry) x.1 hname
    exact List.mem_map.mpr ⟨_, mem_of_at_var hslot, rfl⟩
  have hnodup := he.reserves.nodup_names (by simp [he.fresh.variableSlots])
  have hlength := (List.subperm_of_subset hnodup hsub).length_le
  have hshared := hboth.length
  rw [hprepared.nextSlot_eq, hprepared'.nextSlot_eq]
  simp only [List.length_map] at hlength
  omega

end Draft

end FlowGraph
