import FlowGraph.Proofs.Leftovers
import FlowGraph.Proofs.Sharing

/-! # A read of a variable for each wire

    An output that several wires leave is computed once, and a read of a
    variable is no exception. A graph that has a read of its own for each of
    these wires shares nothing there (`SplitsRead`).

    Main statement: otherwise it gives the same code. Where one graph refers
    to the shared read, the other one reads the variable
    (`SplitsRead.exists_walk`).
-/

namespace FlowGraph

/-! ## Code that does not share a read -/

/-- The number of a shared computation when the one numbered `q` is left out. -/
def SharedId.lower (q id : SharedId) : SharedId := if q < id then id - 1 else id

namespace SharedId

variable {q id : SharedId}

theorem lower_of_le (h : id ≤ q) : lower q id = id := by
  simp [lower, Nat.not_lt.mpr h]

theorem lower_of_lt (h : q < id) : lower q id = id - 1 := by
  simp [lower, h]

/-- Two that stay have different numbers. -/
theorem lower_inj {id' : SharedId} (h : id ≠ q) (h' : id' ≠ q) (heq : lower q id = lower q id') : id = id' := by
  simp only [lower] at heq
  split at heq <;> split at heq <;> grind

theorem getElem?_lower {α : Type} (list : List α) (h : id ≠ q) : (list.eraseIdx q)[lower q id]? = list[id]? := by
  rw [List.getElem?_eraseIdx]
  rcases Nat.lt_or_gt_of_ne h with hlt | hgt
  · simp [lower_of_le (Nat.le_of_lt hlt), hlt]
  · have hle : ¬ id - 1 < q := by grind
    rw [lower_of_lt hgt, if_neg hle, Nat.sub_add_cancel (Nat.zero_lt_of_lt hgt)]

end SharedId

namespace Code

/-- The code with a read of the variable in place of the shared computation
    numbered `q`, which is left out. -/
def unshare (q : SharedId) (name : String) : Code → Code
  | .andThen first rest => .andThen (first.unshare q name) (rest.unshare q name)
  | .shared id ty => if id = q ∧ ty = .ref .object then .getVariable name else .shared (SharedId.lower q id) ty
  | .setVariable target value => .setVariable target (value.unshare q name)
  | .loop times body => .loop (times.unshare q name) (body.unshare q name)
  | .branch condition yes no => .branch (condition.unshare q name) (yes.unshare q name) (no.unshare q name)
  | code => code

variable {q : SharedId} {name : String}

@[simp] theorem unshare_self : (Code.shared q (.ref .object)).unshare q name = .getVariable name := by
  simp [unshare]

theorem unshare_of_ne {id : SharedId} (h : id ≠ q) (ty : Ty) :
    (Code.shared id ty).unshare q name = .shared (SharedId.lower q id) ty := by
  simp [unshare, h]

@[simp] theorem ty_unshare (c : Code) : (c.unshare q name).ty = c.ty := by
  induction c with
  | andThen _ _ _ ih => exact ih
  | branch _ _ _ _ ih => exact ih
  | shared id ty =>
    unfold unshare
    split
    · next h => exact h.2.symm
    · rfl
  | _ => rfl

theorem unshare_block (ty : Ty) (pieces : List Code) :
    (block ty pieces).unshare q name = block ty (pieces.map (unshare q name)) := by
  induction pieces with
  | nil => rfl
  | cons piece rest ih => exact congrArg (Code.andThen _) ih

theorem unshare_wrap (c : Category) (value : Code) :
    (c.wrap value).unshare q name = c.wrap (value.unshare q name) := by
  cases c <;> simp [Category.wrap, unshare_block, unshare, Code.const]

theorem unshare_cast (c : Category) (value : Code) :
    (c.cast value).unshare q name = c.cast (value.unshare q name) := by
  cases c <;> simp [Category.cast, Category.default?, unshare_block, unshare]

theorem unshare_adapt (produced consumed : PortDecl) (value : Code) :
    (Graph.adapt produced consumed value).unshare q name =
      Graph.adapt produced consumed (value.unshare q name) := by
  unfold Graph.adapt
  cases produced.form <;> cases consumed.form
  · by_cases hsame : produced.category = consumed.category
    · simp [hsame]
    · simp [hsame, unshare_cast, unshare_wrap]
  · exact unshare_wrap _ _
  · exact unshare_cast _ _
  · rfl

theorem unshare_unconnected (r : Graph.Resolved) (index : Nat) (decl : PortDecl) :
    (Graph.unconnected r index decl).unshare q name = Graph.unconnected r index decl := by
  have hload (literal : Literal) :
      (decl.category.load literal).unshare q name = decl.category.load literal := by
    unfold Category.load
    split <;> rfl
  unfold Graph.unconnected
  cases decl.form
  · exact hload _
  · simp only [unshare_wrap, hload]

/-- Code that refers to earlier computations only stays as it is. -/
theorem unshare_of_fits {types : List Ty} {c : Code} (h : c.Fits types q) : c.unshare q name = c := by
  induction c with
  | andThen _ _ ihf ihr => simp [unshare, ihf h.1, ihr h.2]
  | shared id ty =>
    have hlt : id < q := h.1
    rw [unshare_of_ne (Nat.ne_of_lt hlt), SharedId.lower_of_le (Nat.le_of_lt hlt)]
  | setVariable _ _ ih => simp [unshare, ih h]
  | loop _ _ iht ihb => simp [unshare, iht h.1, ihb h.2]
  | branch _ _ _ ihc ihy ihn => simp [unshare, ihc h.1, ihy h.2.1, ihn h.2.2]
  | _ => rfl

end Code

namespace Draft

variable {q : SharedId} {name : String} {d : Draft}

/-- The draft without the shared computation numbered `q`. -/
def unshare (q : SharedId) (name : String) (d : Draft) : Draft :=
  { d with
    shared := (d.shared.eraseIdx q).map fun entry => { entry with value := entry.value.unshare q name }
    memo := (d.memo.filter fun x => x.2 ≠ q).map fun x => (x.1, SharedId.lower q x.2) }

@[simp] theorem record_shared (d : Draft) (problem : LooseWire) : (d.record problem).shared = d.shared := by
  unfold record
  split <;> rfl

@[simp] theorem record_memo (d : Draft) (problem : LooseWire) : (d.record problem).memo = d.memo := by
  unfold record
  split <;> rfl

/-- A shared computation that stays. -/
theorem unshare_getElem? {id : SharedId} (h : id ≠ q) :
    (d.unshare q name).shared[SharedId.lower q id]? =
      d.shared[id]?.map fun entry => { entry with value := entry.value.unshare q name } := by
  simp [unshare, SharedId.getElem?_lower _ h]

theorem length_unshare (name : String) (h : d.shared.length ≠ q) :
    (d.unshare q name).shared.length = SharedId.lower q d.shared.length := by
  simp only [unshare, List.length_map, List.length_eraseIdx]
  rcases Nat.lt_or_gt_of_ne h with hlt | hgt
  · rw [if_neg (Nat.lt_asymm hlt), SharedId.lower_of_le (Nat.le_of_lt hlt)]
  · rw [if_pos hgt, SharedId.lower_of_lt hgt]

/-- Sharing a computation that stays. -/
theorem unshare_share (name : String) (p : Port) (c : Code) (default : Const) (h : d.shared.length ≠ q) :
    ((d.unshare q name).share p (c.unshare q name) default).1 = (d.share p c default).1.unshare q name ∧
      ((d.unshare q name).share p (c.unshare q name) default).2 = (d.share p c default).2.unshare q name := by
  have hlength := length_unshare name h
  have herase (entry : Shared) : (d.shared ++ [entry]).eraseIdx q = d.shared.eraseIdx q ++ [entry] := by
    rcases Nat.lt_or_gt_of_ne h with hlt | hgt
    · have hle : (d.shared ++ [entry]).length ≤ q := by
        rw [List.length_append]
        exact hlt
      rw [List.eraseIdx_of_length_le hle, List.eraseIdx_of_length_le (Nat.le_of_lt hlt)]
    · exact List.eraseIdx_append_of_lt_length hgt _
  constructor
  · simp only [share, hlength, Code.unshare_of_ne h, Code.ty_unshare]
  · simp only [share, hlength, Code.ty_unshare]
    simp [unshare, herase, h]

/-- Sharing the computation that is left out. -/
theorem unshare_share_self (name : String) (p : Port) (c : Code) (default : Const) (h : d.shared.length = q) :
    (d.share p c default).2.unshare q name = d.unshare q name := by
  have herase (entry : Shared) : (d.shared ++ [entry]).eraseIdx q = d.shared.eraseIdx q := by
    rw [List.eraseIdx_of_length_le (Nat.le_of_eq h), ← h]
    simp [List.eraseIdx_append_of_length_le]
  simp [share, unshare, herase, h]

/-- The outputs of the computations that stay are remembered as before. -/
theorem shared?_unshare {p : Port} (h : ∀ x ∈ d.memo, x.1 = p → x.2 ≠ q) :
    (d.unshare q name).shared? p = (d.shared? p).map (Code.unshare q name) := by
  -- what is left out was not remembered for this output, so the first match stays the first
  have hlookup : (d.unshare q name).memo.lookup p = (d.memo.lookup p).map (SharedId.lower q) := by
    simp only [unshare]
    generalize d.memo = memo at h
    induction memo with
    | nil => rfl
    | cons x memo ih =>
      obtain ⟨p', id⟩ := x
      obtain ⟨hhead, hrest⟩ := List.forall_mem_cons.mp h
      by_cases hp : p' = p
      · have hid : id ≠ q := hhead hp
        simp [hp, hid]
      · have hne : (p == p') = false := by simpa using Ne.symm hp
        by_cases hid : id = q
        · simpa [hid, List.lookup_cons, hne] using ih hrest
        · simpa [hid, List.lookup_cons, hne] using ih hrest
  simp only [shared?, hlookup]
  cases hid : d.memo.lookup p with
  | none => rfl
  | some id =>
    obtain ⟨before, behind, hmemo, -⟩ := List.lookup_eq_some_iff.mp hid
    have hne : id ≠ q := h (p, id) (by simp [hmemo]) rfl
    simp only [Option.map_some, Option.bind_eq_bind, Option.bind_some, unshare_getElem? hne]
    cases d.shared[id]? with
    | none => rfl
    | some entry => simp [Code.unshare_of_ne hne]

/-- A number that is not taken leaves the draft as it is. -/
theorem unshare_length (hfresh : d.Fresh) (hordered : d.Ordered) : d.unshare d.shared.length name = d := by
  have hshared : (d.shared.eraseIdx d.shared.length).map
      (fun entry => { entry with value := entry.value.unshare d.shared.length name }) = d.shared := by
    rw [List.eraseIdx_of_length_le (Nat.le_refl _)]
    nth_rewrite 3 [← List.map_id d.shared]
    refine List.map_congr_left fun entry hentry => ?_
    obtain ⟨id, hid⟩ := List.mem_iff_getElem?.mp hentry
    have hlt := (List.getElem?_eq_some_iff.mp hid).1
    have hfits := (hordered id entry hid).2.mono (List.prefix_refl _) (Nat.le_of_lt hlt)
    rw [Code.unshare_of_fits hfits]
    rfl
  have hmemo : (d.memo.filter fun x => x.2 ≠ d.shared.length).map
      (fun x => (x.1, SharedId.lower d.shared.length x.2)) = d.memo := by
    have hlt : ∀ x ∈ d.memo, x.2 < d.shared.length := fun x hx => hfresh.lt_of_mem hx
    rw [List.filter_eq_self.mpr fun x hx => by simpa using Nat.ne_of_lt (hlt x hx)]
    nth_rewrite 2 [← List.map_id d.memo]
    refine List.map_congr_left fun x hx => ?_
    rw [SharedId.lower_of_le (Nat.le_of_lt (hlt x hx))]
    rfl
  simp only [unshare, hshared, hmemo]

end Draft

namespace Graph

/-! ## Recipes

    What a recipe makes of the code that it is given does not depend on
    whether reads in it are shared. -/

section

variable {q : SharedId} {name : String}

theorem activate_renders {role : Role} (hrole : role ∈ Role.all) {index : Nat} {decl : PortDecl}
    (hdecl : role.kind.inputs[index]? = some decl) (hsignal : decl.isSignal = true) (site : Site) :
    (role.kind.behaviour.activate site index).Renders .same (Code.unshare q name)
      (role.kind.behaviour.activate site index) := by
  have hruns := Role.runs_of_isSignal role hrole decl (List.mem_of_getElem? hdecl) hsignal
  cases role with
  | start | constant | getVariable | query | arith | compare | not | mathConstant => cases hruns
  | setVariable c =>
    simp only [Role.kind, Kind.setVariable, Behaviour.setVariable, Site.requireTag]
    cases site.tag with
    | none => exact .fail _
    | some _ => exact .input fun _ => .follow fun _ => .done _
  | emit c => exact .input fun _ => .follow fun _ => .done _
  | branch => exact .input fun _ => .follow fun _ => .follow fun _ => .done _
  | loop => exact .input fun _ => .follow fun _ => .follow fun _ => .done _

theorem compute_renders {role : Role} (hrole : role ∈ Role.all) {index : Nat} {decl : PortDecl}
    (hdecl : role.kind.outputs[index]? = some decl) (hvalue : decl.isSignal = false) (site : Site) :
    (role.kind.behaviour.compute site index).Renders .same (Code.unshare q name)
      (role.kind.behaviour.compute site index) := by
  obtain ⟨hzero, hruns, hstart⟩ :=
    Role.runs_of_isValue role hrole (decl, index) (List.mem_zipIdx_iff_getElem?.mpr hdecl) hvalue
  obtain rfl : index = 0 := hzero
  cases role with
  | start => exact absurd rfl hstart
  | setVariable | emit | branch | loop => cases hruns
  | getVariable c =>
    simp only [Role.kind, Kind.getVariable, Behaviour.getVariable, Behaviour.single, Site.requireTag, if_true]
    cases site.tag with
    | none => exact .fail _
    | some _ => exact .done _
  | constant c => exact .input fun _ => .done _
  | query c => exact .done _
  | arith f => exact .input fun _ => .input fun _ => .done _
  | compare f => exact .input fun _ => .input fun _ => .done _
  | not => exact .input fun _ => .done _
  | mathConstant => exact .done _

theorem recipe_renders {g : Graph} {v : Visit} (h : v.Meant g) :
    v.recipe.Renders .same (Code.unshare q name) v.recipe := by
  cases v with
  | activate r input =>
    obtain ⟨hresolve, decl, hdecl, hsignal⟩ := h
    obtain ⟨role, hmem, -, hkind, -⟩ := role?_of_resolve hresolve
    simp only [Visit.recipe]
    rw [hkind] at hdecl ⊢
    exact activate_renders hmem hdecl hsignal _
  | compute producer =>
    obtain ⟨role, hmem, -, hkind, -⟩ := role?_of_resolve h.source
    have hdecl := h.decl
    simp only [Visit.recipe]
    rw [hkind] at hdecl ⊢
    exact compute_renders hmem hdecl h.value _

end

/-! ## Graphs -/

/-- The wire comes from the copy that is its own, if it has come from `n`. -/
def moved (n : NodeId) (copy : WireId → NodeId) (x : WireId × Wire) : WireId × Wire :=
  if x.2.source = ⟨n, 0⟩ then (x.1, ⟨⟨copy x.1, 0⟩, x.2.target⟩) else x

/-- A node number that the graph has no use for. -/
@[mk_iff]
structure Unused (g : Graph) (id : NodeId) : Prop where
  node : g.node? id = none
  entry : g.entry ≠ some id
  source : ∀ w ∈ g.wires, w.source.node ≠ id
  target : ∀ w ∈ g.wires, w.target.node ≠ id

instance (g : Graph) (id : NodeId) : Decidable (g.Unused id) := decidable_of_iff _ (g.unused_iff id).symm

/-- In place of the node `n`, which reads a variable, the second graph has a
    node of the same kind and tag for each wire that leaves its output. The
    node itself is removed, or is left there without these wires. -/
structure SplitsRead (g g' : Graph) (n : NodeId) (copy : WireId → NodeId) : Prop where
  read : ∃ node category, g.role? n = some (node, .getVariable category)
  entry : g'.entry = g.entry
  wires : g'.numberedWires = g.numberedWires.map (moved n copy)
  copies : ∀ x ∈ g.leaving ⟨n, 0⟩, g'.node? (copy x.1) = g.node? n
  unused : ∀ x ∈ g.leaving ⟨n, 0⟩, g.Unused (copy x.1)
  distinct : ∀ x ∈ g.leaving ⟨n, 0⟩, ∀ y ∈ g.leaving ⟨n, 0⟩, copy x.1 = copy y.1 → x.1 = y.1
  original : g'.node? n = none ∧ g.entry ≠ some n ∨ g'.node? n = g.node? n
  others : ∀ id, id ≠ n → (∀ x ∈ g.leaving ⟨n, 0⟩, copy x.1 ≠ id) → g'.node? id = g.node? id

section

variable {g g' : Graph} {n : NodeId} {copy : WireId → NodeId}

theorem moved_target (x : WireId × Wire) : (moved n copy x).2.target = x.2.target := by
  unfold moved
  split <;> rfl

theorem moved_of_ne {x : WireId × Wire} (h : x.2.source ≠ ⟨n, 0⟩) : moved n copy x = x := if_neg h

theorem moved_of_eq {x : WireId × Wire} (h : x.2.source = ⟨n, 0⟩) :
    moved n copy x = (x.1, ⟨⟨copy x.1, 0⟩, x.2.target⟩) := if_pos h

/-- What a node resolves to depends on the node alone. -/
theorem resolve_of_node? {catalog : Catalog} {id id' : NodeId} (hnode : g'.node? id' = g.node? id) {r : Resolved}
    (h : g.resolve catalog id = .ok (some r)) : g'.resolve catalog id' = .ok (some { r with id := id' }) := by
  unfold resolve at h ⊢
  rw [hnode]
  cases hn : g.node? id with
  | none => simp [hn] at h
  | some node =>
    simp only [hn] at h ⊢
    cases hkind : catalog.get? node.kind with
    | none => simp [hkind] at h
    | some kind =>
      simp only [hkind] at h ⊢
      cases hstray : (⟨id, node, kind⟩ : Resolved).strayInset? with
      | some index => simp [hstray] at h
      | none =>
        have hstray' : (⟨id', node, kind⟩ : Resolved).strayInset? = none := hstray
        simp only [hstray] at h
        simp only [hstray']
        cases h
        rfl

theorem resolve_congr {catalog : Catalog} {id : NodeId} (hnode : g'.node? id = g.node? id) :
    g'.resolve catalog id = g.resolve catalog id := by
  simp only [resolve, hnode]

namespace SplitsRead

variable (h : g.SplitsRead g' n copy)

include h

theorem arriving (p : Port) : g'.arriving p = (g.arriving p).map (moved n copy) := by
  rw [Graph.arriving, h.wires, List.filter_map, Graph.arriving]
  congr 2
  funext x
  simp [moved_target]

/-- A node of the graph is no copy. -/
theorem copy_ne {id : NodeId} (hid : (g.node? id).isSome) : ∀ x ∈ g.leaving ⟨n, 0⟩, copy x.1 ≠ id := by
  intro x hx heq
  rw [← heq, (h.unused x hx).node] at hid
  cases hid

/-- An output of the graph keeps its wires, except for the one in question. -/
theorem leaving {p : Port} (hp : (g.node? p.node).isSome) (hne : p ≠ ⟨n, 0⟩) : g'.leaving p = g.leaving p := by
  rw [Graph.leaving, h.wires, List.filter_map, Graph.leaving]
  have hsame : g.numberedWires.filter ((fun x => x.2.source == p) ∘ moved n copy) =
      g.numberedWires.filter fun x => x.2.source == p := by
    refine List.filter_congr ?_
    intro x hx
    by_cases hsource : x.2.source = ⟨n, 0⟩
    · have hcopy : copy x.1 ≠ p.node := h.copy_ne hp x (mem_leaving.mpr ⟨hx, hsource⟩)
      have hnew : (⟨copy x.1, 0⟩ : Port) ≠ p := fun heq => hcopy (congrArg Port.node heq)
      simp [moved_of_eq hsource, hsource, hnew, Ne.symm hne]
    · simp [moved_of_ne hsource]
  rw [hsame]
  nth_rewrite 2 [← List.map_id (g.numberedWires.filter fun x => x.2.source == p)]
  refine List.map_congr_left fun x hx => moved_of_ne ?_
  have hsource : x.2.source = p := by simpa using (List.mem_filter.mp hx).2
  rwa [hsource]

/-- A copy has one wire. -/
theorem leaving_copy {x : WireId × Wire} (hx : x ∈ g.leaving ⟨n, 0⟩) : (g'.leaving ⟨copy x.1, 0⟩).length ≤ 1 := by
  have hnumber : ∀ y ∈ g'.leaving ⟨copy x.1, 0⟩, y.1 = x.1 := by
    intro y hy
    obtain ⟨hnumbered, hsource⟩ := mem_leaving.mp hy
    rw [h.wires] at hnumbered
    obtain ⟨z, hz, rfl⟩ := List.mem_map.mp hnumbered
    by_cases hold : z.2.source = ⟨n, 0⟩
    · rw [moved_of_eq hold] at hsource ⊢
      exact h.distinct z (mem_leaving.mpr ⟨hz, hold⟩) x hx (congrArg Port.node hsource)
    · -- no wire of the graph came from the copy before
      rw [moved_of_ne hold] at hsource
      have hmem : z.2 ∈ g.wires := List.mem_of_getElem? (mem_numberedWires.mp hz)
      exact absurd (congrArg Port.node hsource) ((h.unused x hx).source z.2 hmem)
  have hnodup : ((g'.leaving ⟨copy x.1, 0⟩).map Prod.fst).Nodup := by
    have hfirst : g'.numberedWires.map Prod.fst = List.range g'.wires.length := by
      simp [numberedWires, Function.comp_def, List.range_eq_range']
    have hall : (g'.numberedWires.map Prod.fst).Nodup := hfirst ▸ List.nodup_range
    exact hall.sublist (List.Sublist.map _ List.filter_sublist)
  rcases hwires : g'.leaving ⟨copy x.1, 0⟩ with _ | ⟨y, _ | ⟨z, rest⟩⟩
  · exact Nat.zero_le _
  · exact Nat.le_refl _
  · rw [hwires] at hnumber hnodup
    simp [hnumber y (by simp), hnumber z (by simp)] at hnodup

/-- A node that a wire ends at, or that is the entry, is as before unless it
    is the one that is split. -/
theorem node?_eq {id : NodeId} (hne : id ≠ n) (hused : ∀ x ∈ g.leaving ⟨n, 0⟩, copy x.1 ≠ id) :
    g'.resolve .standard id = g.resolve .standard id :=
  resolve_congr (h.others id hne hused)

/-- The only output of the node gives a value. -/
theorem output?_eq {index : Nat} {decl : PortDecl} (hdecl : g.output? ⟨n, index⟩ = some decl) :
    index = 0 ∧ decl.isSignal = false ∧ decl.form = .boxed := by
  obtain ⟨node, category, hrole⟩ := h.read
  have hcategory := isSignal_of_family (c := category) hrole (by simp [Role.family])
  rw [output?_of_role (p := ⟨n, index⟩) hrole] at hdecl
  cases index with
  | zero =>
    cases hdecl
    exact ⟨rfl, hcategory, rfl⟩
  | succ index => simp [Role.kind, Kind.getVariable] at hdecl

/-- A wire to the node brings it no signal. -/
theorem isSignalInput_eq (index : Nat) : g.isSignalInput ⟨n, index⟩ = false := by
  obtain ⟨node, category, hrole⟩ := h.read
  simp [isSignalInput, input?_of_role (p := ⟨n, index⟩) hrole, Role.kind, Kind.getVariable]

theorem sameSignals : g.SameSignals g' where
  start := by
    unfold start
    rw [h.entry]
    cases hentry : g.entry with
    | none => rfl
    | some id =>
      have hsame : g'.resolve .standard id = g.resolve .standard id := by
        -- the node may be gone, but then it was not the entry
        by_cases hid : id = n
        · refine resolve_congr ?_
          subst hid
          exact h.original.resolve_left fun hgone => hgone.2 hentry
        · refine h.node?_eq hid ?_
          rintro x hx rfl
          exact (h.unused x hx).entry hentry
      simp only [hsame]
  leaving p hp := by
    obtain ⟨decl, hdecl, hsignal⟩ := (Option.any_eq_true _ _).mp hp
    rw [h.leaving (node?_of_output? hdecl)]
    rintro rfl
    simp [(h.output?_eq hdecl).2.1] at hsignal
  target p hp x hx := by
    by_cases hn : x.2.target.node = n
    · -- a wire into the read brings it no signal, whether the node is gone or not
      rcases h.original with ⟨hgone, -⟩ | hkept
      · refine .inr ⟨?_, ?_⟩
        · have htarget : x.2.target = ⟨n, x.2.target.index⟩ := by rw [← hn]
          rw [htarget]
          exact h.isSignalInput_eq _
        · simp [resolve, hn, hgone]
      · exact .inl (resolve_congr (hn ▸ hkept))
    · refine .inl (h.node?_eq hn ?_)
      have hmem : x.2 ∈ g.wires := List.mem_of_getElem? (mem_numberedWires.mp (mem_leaving.mp hx).1)
      intro y hy heq
      exact (h.unused y hy).target x.2 hmem heq.symm

end SplitsRead

/-! ## The same walk -/

/-- What has to be known of a draft to leave out the computation of the read
    at `n`: its number is `q`, and no other output has it. -/
structure Unshares (g : Graph) (n : NodeId) (q : SharedId) (name : String) (d : Draft) : Prop where
  number : ∀ x ∈ d.memo, x.2 = q ↔ x.1 = ⟨n, 0⟩
  node : ∀ x ∈ d.memo, (g.node? x.1.node).isSome
  tag : ∀ x ∈ d.memo, x.2 = q → ∃ node, g.node? n = some node ∧ node.tag = some name
  boxed : ∀ entry, d.shared[q]? = some entry → entry.ty = .ref .object

theorem Unshares.of_grows {q : SharedId} {name : String} {d d' : Draft} (h : g.Unshares n q name d')
    (hshared : d.shared <+: d'.shared) (hmemo : d.memo <:+ d'.memo) : g.Unshares n q name d where
  number x hx := h.number x (hmemo.mem hx)
  node x hx := h.node x (hmemo.mem hx)
  tag x hx := h.tag x (hmemo.mem hx)
  boxed entry hentry := h.boxed entry (getElem?_of_starts hshared hentry)

/-- What is built, without the computation of the read. -/
def unsharing (g : Graph) (n : NodeId) (q : SharedId) (name : String) : Rendering where
  name := .same
  code := Code.unshare q name
  Drafts d e := e.Alike (d.unshare q name)
  Valid := g.Unshares n q name
  Exact := False
  code_done _ := rfl
  code_andThen _ _ := rfl
  code_unconnected := Code.unshare_unconnected
  code_adapt := Code.unshare_adapt
  start := Draft.Alike.refl (Draft.unshare q name {})
  valid_of_exact := False.elim
  valid_of_record {d problem} h := by
    refine h.of_grows ?_ ?_
    · rw [Draft.record_shared]
    · rw [Draft.record_memo]
  forget _ {d e problem} he := by
    refine he.trans ?_
    unfold Draft.Alike Draft.record
    split <;> rfl

theorem forgetful_unsharing (g : Graph) (n : NodeId) (q : SharedId) (name : String) :
    (g.unsharing n q name).Forgetful where
  name := rfl
  inexact := not_false
  record he := he.record _

/-- An output other than the read is recalled, or not, by both walks. -/
theorem Unshares.known?_eq {q : SharedId} {name : String} {d e : Draft} (hd : g.Unshares n q name d) {v : Visit}
    (hv : v.frame ≠ .compute ⟨n, 0⟩) (he : e.Alike (d.unshare q name)) :
    v.known? e = (v.known? d).map (Code.unshare q name) := by
  cases v with
  | activate r input => rfl
  | compute producer =>
    have hport : producer.port ≠ ⟨n, 0⟩ := fun heq => hv (congrArg Event.compute heq)
    show e.shared? producer.port = (d.shared? producer.port).map (Code.unshare q name)
    rw [he.shared?, Draft.shared?_unshare]
    intro x hx heq hq
    exact hport (heq ▸ (hd.number x hx).mp hq)

/-- An output other than the read is shared under a number of its own. -/
theorem Unshares.of_share {q : SharedId} {name : String} {p : Port} (hp : p ≠ ⟨n, 0⟩) {code : Code}
    {default : Const} {d : Draft} (hvalid : g.Unshares n q name (d.share p code default).2) : g.Unshares n q name d ∧
      ∀ e : Draft, e.Alike (d.unshare q name) →
        (e.share p (code.unshare q name) default).1 = (d.share p code default).1.unshare q name ∧
          (e.share p (code.unshare q name) default).2.Alike ((d.share p code default).2.unshare q name) := by
  refine ⟨hvalid.of_grows (List.prefix_append _ _) (List.suffix_cons _ _), fun e he => ?_⟩
  -- the number that is left out belongs to the read, so this one is not it
  have hlength : d.shared.length ≠ q := by
    intro heq
    exact hp ((hvalid.number (p, d.shared.length) List.mem_cons_self).mp heq)
  obtain ⟨hcode, hdraft⟩ := Draft.unshare_share name p code default hlength
  rw [← hcode, ← hdraft]
  exact he.share p (code.unshare q name) default

/-- A read of a variable that has a name. -/
theorem recipe_of_tag {producer : Producer} {category : Category}
    (hkind : producer.source.kind = Kind.getVariable category) (hindex : producer.port.index = 0) {name : String}
    (htag : producer.source.node.tag = some name) : (Visit.compute producer).recipe = .done (.getVariable name) := by
  simp [Visit.recipe, hkind, hindex, Kind.getVariable, Behaviour.getVariable, Behaviour.single, Resolved.site,
    Site.requireTag, htag, Bind.bind, Recipe.bind, Pure.pure]

/-- A read that is followed has a name. -/
theorem exists_tag_of_perform {producer : Producer} {category : Category}
    (hkind : producer.source.kind = Kind.getVariable category) (hindex : producer.port.index = 0)
    {input follow : Nat → Walk Code} {d d' : Draft} {c : Code}
    (hperform : perform input follow (Visit.compute producer).recipe d = .ok (c, d')) :
    ∃ name, producer.source.node.tag = some name ∧ c = .getVariable name ∧ d' = d := by
  cases htag : producer.source.node.tag with
  | some name =>
    rw [recipe_of_tag hkind hindex htag] at hperform
    cases hperform
    exact ⟨name, rfl, rfl, rfl⟩
  | none =>
    simp [Visit.recipe, hkind, hindex, Kind.getVariable, Behaviour.getVariable, Behaviour.single, Resolved.site,
      Site.requireTag, htag, Bind.bind, Recipe.bind] at hperform
    cases hperform

/-- The same output of a copy of the node. -/
def Producer.at (producer : Producer) (id : NodeId) : Producer :=
  { producer with port := ⟨id, producer.port.index⟩, source := { producer.source with id } }

namespace SplitsRead

variable {q : SharedId} {name : String} (h : g.SplitsRead g' n copy)

include h

/-- The node that is read from, with its kind. -/
theorem source_eq {producer : Producer} (hres : producer.Resolves g) (hport : producer.port = ⟨n, 0⟩) :
    g.node? n = some producer.source.node ∧ ∃ category, producer.source.kind = Kind.getVariable category := by
  have hsource : g.resolve .standard n = .ok (some producer.source) := by
    have hresolve := hres.source
    rwa [hport] at hresolve
  obtain ⟨node, category, hread⟩ := h.read
  obtain ⟨role, -, hrole, hkind, -⟩ := role?_of_resolve hsource
  obtain ⟨-, rfl⟩ := Prod.mk.inj (Option.some.inj (hread.symm.trans hrole))
  exact ⟨(node?_of_resolve hsource).2.1, category, hkind⟩

/-- A copy is read where the original is not shared, or is recalled. -/
theorem visit_copy {x : WireId × Wire} (hx : x ∈ g.leaving ⟨n, 0⟩) {producer : Producer} (hres : producer.Resolves g)
    (hport : producer.port = ⟨n, 0⟩) {opened : List Event} (hopened : ∀ e ∈ opened, (g.node? e.node).isSome)
    (depth : Nat) {d e : Draft} (hd : g.Unshares n q name d) (he : e.Alike (d.unshare q name)) {name' : String}
    (htag : producer.source.node.tag = some name') :
    g'.descend (depth + 1) opened (.compute (producer.at (copy x.1))) e = .ok (.getVariable name', e) := by
  obtain ⟨-, category, hkind⟩ := h.source_eq hres hport
  have hcopy : (producer.at (copy x.1)).port = ⟨copy x.1, 0⟩ := by simp [Producer.at, hport]
  have hgone := (h.unused x hx).node
  unfold descend
  rw [visit_succ]
  -- no computation of the copy is known, and none is open
  have hknown : (Visit.compute (producer.at (copy x.1))).known? e = none := by
    have hframe : (Visit.compute (producer.at (copy x.1))).frame ≠ .compute ⟨n, 0⟩ := by
      show Event.compute (producer.at (copy x.1)).port ≠ _
      rw [hcopy]
      rintro ⟨⟩
      obtain ⟨-, hnode, -⟩ := node?_of_resolve hres.source
      simp [hport, hgone] at hnode
    rw [hd.known?_eq hframe he, Option.map_eq_none_iff]
    by_contra hsome
    obtain ⟨code, hcode⟩ := Option.ne_none_iff_exists'.mp hsome
    obtain ⟨id, entry, hmem, -⟩ := Draft.shared?_eq_some hcode
    have hlive := hd.node _ hmem
    rw [hcopy, hgone] at hlive
    cases hlive
  have hclosed : (Visit.compute (producer.at (copy x.1))).frame ∉ opened := by
    intro hmem
    have hlive := hopened _ hmem
    simp [Visit.frame, Event.node, hcopy, hgone] at hlive
  have hkind' : (producer.at (copy x.1)).source.kind = _ := hkind
  have hrecipe := recipe_of_tag hkind' (congrArg Port.index hcopy) htag
  simp only [hknown, hclosed, if_false, Visit.follow, hrecipe]
  have hsingle : (g'.leaving (producer.at (copy x.1)).port).length ≤ 1 := hcopy ▸ h.leaving_copy hx
  show g'.shareIfNeeded (producer.at (copy x.1)) (.getVariable name') e = _
  simp only [shareIfNeeded, hsingle, if_true]
  rfl

/-- Where a wire brings the value of the read, the copy for this wire is read. -/
theorem mirrors_read {x : WireId × Wire} (hx : x ∈ g.leaving ⟨n, 0⟩) {producer : Producer} (hres : producer.Resolves g)
    (hport : producer.port = ⟨n, 0⟩) {opened : List Event} (hopened : ∀ e ∈ opened, (g.node? e.node).isSome)
    (depth : Nat) :
    Mirrors (g.unsharing n q name) (Code.unshare q name) (g.descend depth opened (.compute producer))
      (g'.descend depth opened (.compute (producer.at (copy x.1)))) := by
  refine Mirrors.of_ok not_false ?_
  intro d c d₁ hvisit hvalid
  cases depth with
  | zero => cases hvisit
  | succ depth =>
    obtain ⟨hnode, category, hkind⟩ := h.source_eq hres hport
    rcases visit_eq_ok hvisit with ⟨hknown, rfl⟩ | ⟨-, -, hstep⟩
    · -- the read is recalled, and stands for the variable
      obtain ⟨id, entry, hmem, hentry, rfl⟩ := Draft.shared?_eq_some hknown
      rw [hport] at hmem
      obtain rfl : id = q := (hvalid.number _ hmem).mpr rfl
      obtain ⟨node, hnode', htag⟩ := hvalid.tag _ hmem rfl
      obtain rfl : node = producer.source.node := Option.some.inj (hnode'.symm.trans hnode)
      refine ⟨hvalid, fun e he => ⟨e, ?_, he⟩⟩
      rw [h.visit_copy hx hres hport hopened depth hvalid he htag]
      simp [hvalid.boxed entry hentry]
    · obtain ⟨code, d₂, hfollow, hclose⟩ := Walk.bind_eq_ok hstep
      obtain ⟨name', htag, rfl, rfl⟩ := exists_tag_of_perform hkind (by rw [hport]) hfollow
      rcases Visit.close_eq_ok hclose with ⟨rfl, rfl, -⟩ | ⟨_, heq, -, hshare⟩
      · exact ⟨hvalid, fun e he => ⟨e, h.visit_copy hx hres hport hopened depth hvalid he htag, he⟩⟩
      · -- the computation that is shared here is the one that is left out
        cases heq
        cases hshare
        have hmem : (producer.port, d₂.shared.length) ∈
            (d₂.share producer.port (.getVariable name') producer.decl.default).2.memo := List.mem_cons_self
        have hlength : d₂.shared.length = q := (hvalid.number _ hmem).mpr hport
        obtain ⟨node, hnode', htag'⟩ := hvalid.tag _ hmem hlength
        obtain rfl : node = producer.source.node := Option.some.inj (hnode'.symm.trans hnode)
        obtain rfl : name' = name := Option.some.inj (htag.symm.trans htag')
        have hvalid₀ := hvalid.of_grows (List.prefix_append _ _) (List.suffix_cons _ _)
        refine ⟨hvalid₀, fun e he => ⟨e, ?_, ?_⟩⟩
        · rw [h.visit_copy hx hres hport hopened depth hvalid₀ he htag]
          simp [hlength, Code.ty]
        · have hdraft := Draft.unshare_share_self name' producer.port (.getVariable name')
            producer.decl.default hlength
          show e.Alike ((d₂.share producer.port (.getVariable name') producer.decl.default).2.unshare q name')
          rw [hdraft]
          exact he

/-- A wire that brings no value does not come from the read. -/
theorem source_ne_of_loose {id : WireId} {w : Wire} {d d₁ : Draft}
    (hproducer : g.producer? .standard id w d = .ok (none, d₁)) : w.source ≠ ⟨n, 0⟩ := by
  intro hsource
  obtain ⟨node, category, hrole⟩ := h.read
  have houtput : g.output? w.source = some (.boxed "value" category) := by
    rw [hsource, output?_of_role (p := ⟨n, 0⟩) hrole]
    rfl
  have hsignal := (loose_of_producer? hproducer).2 _ houtput
  rw [hsource] at houtput
  simp [(h.output?_eq houtput).2.1] at hsignal

/-- It brings none in the other graph either. -/
theorem exists_producer?_none {id : WireId} {w : Wire} (hnumbered : (id, w) ∈ g.numberedWires) {d d₁ : Draft}
    (hproducer : g.producer? .standard id w d = .ok (none, d₁)) (e : Draft) :
    ∃ problem, g'.producer? .standard id w e = .ok (none, e.record problem) := by
  by_cases hn : w.source.node = n
  · rcases h.original with ⟨hgone, -⟩ | hkept
    · refine ⟨.missingSource id w.source.node, ?_⟩
      rw [producer?_apply]
      simp [resolve, hn, hgone, Except.map, reported, sourceAt]
    · exact Graph.exists_producer?_none hproducer (resolve_congr (hn ▸ hkept)) id e
  · refine Graph.exists_producer?_none hproducer (h.node?_eq hn ?_) id e
    have hmem : w ∈ g.wires := List.mem_of_getElem? (mem_numberedWires.mp hnumbered)
    intro x hx heq
    exact (h.unused x hx).source w hmem heq.symm

/-- The copy for a wire gives what the read gives. -/
theorem resolves_copy {x : WireId × Wire} (hx : x ∈ g.leaving ⟨n, 0⟩) {producer : Producer}
    (hres : producer.Resolves g) (hport : producer.port = ⟨n, 0⟩) : (producer.at (copy x.1)).Resolves g' where
  source := by
    have hsource := hres.source
    rw [hport] at hsource
    exact resolve_of_node? (h.copies x hx) hsource
  decl := hres.decl
  value := hres.value

/-- Another output is found in both graphs. -/
theorem resolves_other {producer : Producer} (hres : producer.Resolves g) (hport : producer.port ≠ ⟨n, 0⟩) :
    producer.Resolves g' where
  source := by
    obtain ⟨-, hnode, -⟩ := node?_of_resolve hres.source
    rw [h.node?_eq ?_ (h.copy_ne (by simp [hnode]))]
    · exact hres.source
    · intro hn
      have hdecl : g.output? producer.port = some producer.decl := (output?_of_resolve hres.source).trans hres.decl
      have hindex : producer.port = ⟨n, producer.port.index⟩ := by rw [← hn]
      rw [hindex] at hdecl
      exact hport (hindex.trans (by rw [(h.output?_eq hdecl).1]))
  decl := hres.decl
  value := hres.value

/-- An input takes the same value, from the copy for its wire where it has come
    from the read. -/
theorem sameSources {opened : List Event} (hopened : ∀ e ∈ opened, (g.node? e.node).isSome) {depth : Nat}
    (hdeeper : ∀ producer : Producer, producer.port ≠ ⟨n, 0⟩ → producer.Resolves g →
      Mirrors (g.unsharing n q name) (Code.unshare q name) (g.descend depth opened (.compute producer))
        (g'.descend depth opened (.compute producer))) (p : Port) :
    SameSources (g.unsharing n q name) g g' (fun producer => g.descend depth opened (.compute producer))
      (fun producer => g'.descend depth opened (.compute producer)) (g.arriving p) (g'.arriving p) := by
  rw [h.arriving]
  have hnumbered : ∀ x ∈ g.arriving p, x ∈ g.numberedWires := fun x hx => (mem_arriving.mp hx).1
  rcases hwires : g.arriving p with _ | ⟨⟨wire, w⟩, _ | ⟨second, others⟩⟩
  · exact .none
  · have hw : (wire, w) ∈ g.numberedWires := hnumbered _ (by simp [hwires])
    by_cases hsource : w.source = ⟨n, 0⟩
    · have hx : (wire, w) ∈ g.leaving ⟨n, 0⟩ := mem_leaving.mpr ⟨hw, hsource⟩
      have hmoved : moved n copy (wire, w) = (wire, ⟨⟨copy wire, 0⟩, w.target⟩) := moved_of_eq hsource
      rw [List.map_singleton, hmoved]
      refine .one (·.at (copy wire)) ((g.forgetful_unsharing n q name).producer? ?_ ?_) ?_
      · intro producer hres hport
        refine ⟨h.resolves_copy hx hres (hport.trans hsource), ?_⟩
        simp [Producer.at, hport, hsource]
      · exact fun hproducer => absurd hsource (h.source_ne_of_loose hproducer)
      · intro producer hres hport
        exact ⟨rfl, h.mirrors_read hx hres (hport.trans hsource) hopened depth⟩
    · have hmoved : moved n copy (wire, w) = (wire, w) := moved_of_ne hsource
      rw [List.map_singleton, hmoved]
      refine .one id ((g.forgetful_unsharing n q name).producer? ?_ ?_) ?_
      · exact fun producer hres hport => ⟨h.resolves_other hres (hport ▸ hsource), hport⟩
      · exact fun hproducer e => h.exists_producer?_none hw hproducer e
      · exact fun producer hres hport => ⟨rfl, hdeeper producer (hport ▸ hsource) hres⟩
  · exact .many (by simp) False.elim

/-- The graph, and the graph with a read for each wire. -/
theorem parallel : Parallel (g.unsharing n q name) (· ≠ .compute ⟨n, 0⟩) g g' where
  start := h.sameSignals.start_same
  entry _ := by rintro ⟨⟩
  recipe {v} hmeant := by
    show v.recipe.Renders .same (Code.unshare q name) (Renaming.same.visit v).recipe
    rw [Renaming.same_visit]
    exact recipe_renders hmeant
  known? {v d e} hv hd he := by
    show (Renaming.same.visit v).known? e = _
    rw [Renaming.same_visit]
    exact hd.known?_eq hv he
  fanOut {p} hp hvalue := by
    obtain ⟨decl, hdecl, -⟩ := (Option.any_eq_true _ _).mp hvalue
    have hne : p ≠ ⟨n, 0⟩ := fun heq => hp (congrArg Event.compute heq)
    exact congrArg List.length (h.leaving (node?_of_output? hdecl) hne)
  share {p code default d} hp hvalid := hvalid.of_share fun heq => hp (congrArg Event.compute heq)
  targets {e p} _ _ hp := by
    refine ⟨(g.forgetful_unsharing n q name).sameTargets ?_ ?_, ?_⟩
    · exact h.sameSignals.leaving p hp
    · exact h.sameSignals.target p hp
    · rintro x hx ⟨⟩
  sources {depth opened} hopened hdeeper e p _ _ _ := by
    have hevents : opened.map (g.unsharing n q name).name.event = opened := Renaming.same_events opened
    unfold Descends at hdeeper
    rw [hevents] at hdeeper ⊢
    refine h.sameSources hopened ?_ p
    intro producer hport hres
    exact hdeeper (.compute producer) (fun heq => hport (Event.compute.inj heq)) hres

end SplitsRead

/-! ## The read in the draft -/

/-- The code for a read of a variable names the variable. -/
theorem Pulls.of_getVariable {opened : List Port} {p : Port} {d d' : Draft} {c : Code} {log : List Event}
    (h : Pulls g opened (.result p) d c d' log) {node : Node} {category : Category}
    (hrole : g.role? p.node = some (node, .getVariable category)) :
    ∃ name, node.tag = some name ∧ c = .getVariable name := by
  cases h with
  | @getVariable _ id node' _ name _ hrole' htag =>
    obtain ⟨rfl, -⟩ := Prod.mk.inj (Option.some.inj (hrole'.symm.trans hrole))
    exact ⟨name, htag, rfl⟩
  | constant hrole' | query hrole' | arith hrole' | compare hrole' | not hrole' | mathConstant hrole' =>
    cases hrole'.symm.trans hrole

/-- Where a read is shared, it is the read of the variable that the tag of the
    node names. -/
def SharesReads (g : Graph) (d : Draft) : Prop :=
  ∀ (p : Port) (id : SharedId) (entry : Shared) (node : Node) (category : Category), (p, id) ∈ d.memo →
    d.shared[id]? = some entry → g.role? p.node = some (node, .getVariable category) →
    ∃ name, node.tag = some name ∧ entry.value = .getVariable name

theorem kept_sharesReads (g : Graph) : Kept g fun d => d.Fresh ∧ g.SharesReads d where
  problems problems h := ⟨(Draft.Grows.problems problems .refl).fresh h.1, h.2⟩
  share {_ p decl _ c d' _} hpulls _ _ h := by
    refine ⟨(Draft.Grows.share _ _ _ .refl).fresh h.1, ?_⟩
    intro p' id entry node category hmem hentry hrole
    rcases List.mem_cons.mp hmem with heq | hmem
    · obtain ⟨rfl, rfl⟩ := Prod.mk.inj heq
      rcases Draft.share_getElem? hentry with hold | ⟨-, rfl⟩
      · simp at hold
      · exact hpulls.of_getVariable hrole
    · rcases Draft.share_getElem? hentry with hold | ⟨rfl, -⟩
      · exact h.2 p' id entry node category hmem hold hrole
      · exact absurd (h.1.lt_of_mem hmem) (Nat.lt_irrefl _)

/-- No output is remembered twice. -/
theorem memo_unique {body : Code} {draft : Draft} (h : g.walk .standard = .ok (body, draft)) {p : Port}
    {id id' : SharedId} (hid : (p, id) ∈ draft.memo) (hid' : (p, id') ∈ draft.memo) : id = id' := by
  obtain ⟨moments, -, -, htally⟩ := g.walkWithin_eq .standard
  have hnodup := (htally body draft h).nodup Draft.fresh_empty List.nodup_nil
  exact congrArg Prod.snd (List.inj_on_of_nodup_map hnodup hid hid' rfl)

/-- The draft shares the read at `n` under this number. -/
structure SharesRead (g : Graph) (n : NodeId) (d : Draft) (q : SharedId) (name : String) : Prop where
  memo : (⟨n, 0⟩, q) ∈ d.memo
  tag : ∃ node, g.node? n = some node ∧ node.tag = some name
  entry : ∃ entry, d.shared[q]? = some entry ∧ entry.value = .getVariable name ∧ entry.ty = .ref .object ∧
    entry.default = .null

namespace SplitsRead

variable (h : g.SplitsRead g' n copy) {body : Code} {draft : Draft}

include h

/-- An output that is remembered as the read is the read. -/
theorem sharesRead (hwalk : g.walk .standard = .ok (body, draft)) {q : SharedId}
    (hmem : (⟨n, 0⟩, q) ∈ draft.memo) : ∃ name, g.SharesRead n draft q name := by
  obtain ⟨log, hwalked⟩ := exists_walk_of_walk hwalk
  obtain ⟨hfresh, hmatches⟩ := hwalked.matches
  obtain ⟨-, hreads⟩ := (kept_sharesReads g).walked hwalked ⟨Draft.fresh_empty, by rintro _ _ _ _ _ ⟨⟩⟩
  obtain ⟨node, category, hrole⟩ := h.read
  have hentry := List.getElem?_eq_getElem (hfresh.lt_of_mem hmem)
  obtain ⟨name, htag, hvalue⟩ := hreads _ q _ node category hmem hentry hrole
  obtain ⟨decl, hdecl, -, hty, hdefault⟩ := hmatches _ q _ hmem hentry
  obtain ⟨-, -, hform⟩ := h.output?_eq hdecl
  have hnode : g.node? n = some node := by
    simp only [role?, Option.bind_eq_bind, Option.pure_def, Option.bind_eq_some_iff, Option.some.injEq,
      Prod.mk.injEq] at hrole
    obtain ⟨node', hnode, -, -, rfl, -⟩ := hrole
    exact hnode
  refine ⟨name, hmem, ⟨node, hnode, htag⟩, _, hentry, hvalue, ?_, ?_⟩
  · rw [(hfresh.entries _ (List.mem_of_getElem? hentry)).2, hvalue]
    rfl
  · rw [hdefault, PortDecl.default, hform]

/-- The read can be left out, whether it is shared or not. -/
theorem exists_unshares (hwalk : g.walk .standard = .ok (body, draft)) :
    (∃ q name, g.SharesRead n draft q name ∧ g.Unshares n q name draft) ∨
      g.Unshares n draft.shared.length "" draft := by
  obtain ⟨log, hwalked⟩ := exists_walk_of_walk hwalk
  obtain ⟨hfresh, hmatches⟩ := hwalked.matches
  have hlive : ∀ x ∈ draft.memo, (g.node? x.1.node).isSome := by
    intro x hx
    have hentry := List.getElem?_eq_getElem (hfresh.lt_of_mem hx)
    obtain ⟨decl, hdecl, -⟩ := hmatches _ _ _ hx hentry
    exact node?_of_output? hdecl
  by_cases hshared : ∃ q, (⟨n, 0⟩, q) ∈ draft.memo
  · obtain ⟨q, hmem⟩ := hshared
    obtain ⟨name, hread⟩ := h.sharesRead hwalk hmem
    refine .inl ⟨q, name, hread, ?_, hlive, fun _ _ _ => hread.tag, ?_⟩
    · intro x hx
      constructor
      · rintro rfl
        exact hfresh.port_unique hx hmem
      · intro hport
        exact memo_unique hwalk (p := ⟨n, 0⟩) (hport ▸ hx) hmem
    · intro entry hentry
      obtain ⟨entry', hentry', -, hty, -⟩ := hread.entry
      cases hentry.symm.trans hentry'
      exact hty
  · -- a number that is not taken stands for a read that is not shared
    refine .inr ⟨?_, hlive, ?_, ?_⟩
    · intro x hx
      refine iff_of_false (Nat.ne_of_lt (hfresh.lt_of_mem hx)) ?_
      intro hport
      exact hshared ⟨x.2, hport ▸ hx⟩
    · intro x hx hlength
      exact absurd hlength (Nat.ne_of_lt (hfresh.lt_of_mem hx))
    · intro entry hentry
      simp at hentry

/-- The graph with a read for each wire is walked in the same way. -/
theorem exists_walk (hwalk : g.walk .standard = .ok (body, draft)) {q : SharedId} {name : String}
    (hvalid : g.Unshares n q name draft) :
    ∃ draft', g'.walk .standard = .ok (body.unshare q name, draft') ∧ draft'.Alike (draft.unshare q name) :=
  h.parallel.exists_walk hwalk hvalid

end SplitsRead

end

end Graph

end FlowGraph
