import Mathlib.Data.List.Dedup
import Mathlib.Data.List.Perm.Subperm
import FlowGraph.Proofs.Traversal

/-! # How deep the walk goes

    The walk opens a frame for every node that it runs and for every output
    that it computes, one inside the other. `compileWithin` compiles in the
    same way and notes the open frames each time that another one is opened.
    It has no bound of its own on the depth: it gives up when more than a
    given number of frames are open.

    Main statement: it never has to, from a limit that is counted on the
    nodes and wires of the graph. The frames that are open at one moment are
    those of different nodes and of different outputs that wires leave
    (`compileWithin_eq`). This holds for every catalog of recipes, and a recipe
    ends with the first request that fails.
-/

namespace FlowGraph

/-- The outputs whose computations are shared. -/
def Draft.remembered (d : Draft) : List Port := d.memo.map Prod.fst

theorem Draft.mem_remembered {d : Draft} {p : Port} : p ∈ d.remembered ↔ ∃ id, (p, id) ∈ d.memo := by
  simp [Draft.remembered]

/-- What a fresh draft does not find it does not remember. -/
theorem Draft.Fresh.not_mem_remembered {d : Draft} (hd : d.Fresh) {p : Port} (h : d.shared? p = none) :
    p ∉ d.remembered := by
  intro hmem
  obtain ⟨id, hmemo⟩ := Draft.mem_remembered.mp hmem
  cases hlookup : d.memo.lookup p with
  | none => simpa using List.lookup_eq_none_iff.mp hlookup (p, id) hmemo
  | some id' =>
    obtain ⟨before, behind, heq, -⟩ := List.lookup_eq_some_iff.mp hlookup
    have hmem' : (p, id') ∈ d.memo := by simp [heq]
    have hlt := hd.lt_of_mem hmem'
    simp [Draft.shared?, hlookup, List.getElem?_eq_getElem hlt] at h

namespace Graph

/-! ## Frames -/

/-- The nodes that frames are open for. -/
def activeNodes (frames : List Event) : List NodeId :=
  frames.filterMap fun
    | .activate id => some id
    | .compute _ => none

/-- The outputs that frames are open for. -/
def openOutputs (frames : List Event) : List Port :=
  frames.filterMap fun
    | .activate _ => none
    | .compute p => some p

@[simp] theorem mem_activeNodes {frames : List Event} {id : NodeId} :
    id ∈ activeNodes frames ↔ .activate id ∈ frames := by
  unfold activeNodes
  rw [List.mem_filterMap]
  constructor
  · intro ⟨e, he, heq⟩
    cases e with
    | activate _ => cases heq; exact he
    | compute _ => cases heq
  · intro he
    exact ⟨_, he, rfl⟩

@[simp] theorem mem_openOutputs {frames : List Event} {p : Port} :
    p ∈ openOutputs frames ↔ .compute p ∈ frames := by
  unfold openOutputs
  rw [List.mem_filterMap]
  constructor
  · intro ⟨e, he, heq⟩
    cases e with
    | activate _ => cases heq
    | compute _ => cases heq; exact he
  · intro he
    exact ⟨_, he, rfl⟩

/-- The outputs that wires leave. -/
def sources (g : Graph) : List Port := (g.wires.map Wire.source).dedup

/-- A walk of the graph can come to it. -/
def HasFrame (g : Graph) : Event → Prop
  | .activate id => (g.node? id).isSome
  | .compute p => p ∈ g.sources

/-- Frames that can be open one inside the other, the innermost first. -/
structure Nested (g : Graph) (frames : List Event) : Prop where
  nodup : frames.Nodup
  hasFrame : ∀ e ∈ frames, g.HasFrame e

/-- As many frames as can be open at once. -/
def nestingBound (g : Graph) : Nat := g.liveNodes.length + g.sources.length

theorem mem_liveNodes {g : Graph} {id : NodeId} (h : (g.node? id).isSome) :
    id ∈ g.liveNodes.map Prod.fst := by
  obtain ⟨node, hnode⟩ := Option.isSome_iff_exists.mp h
  unfold node? at hnode
  rw [Option.join_eq_some_iff] at hnode
  refine List.mem_map.mpr ⟨(id, node), List.mem_filterMap.mpr ⟨(some node, id), ?_, rfl⟩, rfl⟩
  exact List.mem_zipIdx_iff_getElem?.mpr hnode

theorem Nested.length_le {g : Graph} {frames : List Event} (h : g.Nested frames) :
    frames.length ≤ g.nestingBound := by
  let all : List Event := (g.liveNodes.map fun n => .activate n.1) ++ g.sources.map .compute
  have hsubset : frames ⊆ all := by
    intro e he
    have hframe := h.hasFrame e he
    cases e with
    | activate id =>
      obtain ⟨n, hn, rfl⟩ := List.mem_map.mp (mem_liveNodes hframe)
      exact List.mem_append_left _ (List.mem_map.mpr ⟨n, hn, rfl⟩)
    | compute p => exact List.mem_append_right _ (List.mem_map.mpr ⟨p, hframe, rfl⟩)
  calc frames.length ≤ all.length := (h.nodup.subperm hsubset).length_le
    _ = g.nestingBound := by simp [all, nestingBound]

theorem Nested.cons {g : Graph} {e : Event} {frames : List Event} (h : g.Nested frames)
    (hnew : e ∉ frames) (hframe : g.HasFrame e) : g.Nested (e :: frames) where
  nodup := List.nodup_cons.mpr ⟨hnew, h.nodup⟩
  hasFrame := by
    intro e' he'
    rcases List.mem_cons.mp he' with rfl | he'
    · exact hframe
    · exact h.hasFrame e' he'

theorem Nested.nodup_activeNodes {g : Graph} {frames : List Event} (h : g.Nested frames) :
    (activeNodes frames).Nodup := by
  refine h.nodup.filterMap ?_
  intro e e' id he he'
  cases e <;> cases e' <;> simp_all

theorem Nested.nodup_openOutputs {g : Graph} {frames : List Event} (h : g.Nested frames) :
    (openOutputs frames).Nodup := by
  refine h.nodup.filterMap ?_
  intro e e' p he he'
  cases e <;> cases e' <;> simp_all

theorem nestingBound_le (g : Graph) : g.nestingBound ≤ g.nodes.length + g.wires.length := by
  have hnodes : g.liveNodes.length ≤ g.nodes.length := by
    simpa [liveNodes] using List.length_filterMap_le _ g.nodes.zipIdx
  have hwires : g.sources.length ≤ g.wires.length := by
    simpa [sources] using (List.dedup_sublist (g.wires.map Wire.source)).length_le
  unfold nestingBound
  omega

/-! ## What is visited -/

namespace Visit

def frame : Visit → Event
  | .activate r _ => .activate r.id
  | .compute producer => .compute producer.port

/-- The node whose recipe is followed. -/
def subject : Visit → Resolved
  | .activate r _ => r
  | .compute producer => producer.source

def recipe : Visit → Recipe Code
  | .activate r input => r.kind.behaviour.activate r.site input
  | .compute producer => producer.source.kind.behaviour.compute producer.source.site producer.port.index

/-- What is wrong if the frame is open already. -/
def cycle : Visit → GraphError
  | .activate r _ => .signalCycle r.id
  | .compute producer => .valueCycle producer.port

/-- The code of an output that was computed before. -/
def known? (d : Draft) : Visit → Option Code
  | .activate _ _ => none
  | .compute producer => d.shared? producer.port

/-- What happens to the code when the frame is closed. -/
def close (g : Graph) : Visit → Code → Walk Code
  | .activate _ _, code => pure code
  | .compute producer, code => g.shareIfNeeded producer code

/-- Follows the recipe. `deeper` visits what it asks for. -/
def follow {m : Type → Type} [Monad m] [MonadLiftT Walk m] (g : Graph) (catalog : Catalog)
    (deeper : Visit → m Code) (v : Visit) : m Code :=
  perform
    (inputWith g catalog (fun producer => deeper (.compute producer)) v.subject)
    (followWith g catalog (fun r input => deeper (.activate r input)) v.subject) v.recipe

end Visit

/-- A step of the walk in terms of frames. -/
theorem visit_succ (g : Graph) (catalog : Catalog) (depth : Nat) (opened : List Event) (v : Visit)
    (d : Draft) :
    visit g catalog (depth + 1) (activeNodes opened) (openOutputs opened) v d =
      match v.known? d with
      | some code => .ok (code, d)
      | none =>
        if v.frame ∈ opened then .error v.cycle
        else
          (v.follow g catalog (visit g catalog depth (activeNodes (v.frame :: opened))
            (openOutputs (v.frame :: opened))) >>= v.close g) d := by
  cases v with
  | activate r input =>
    have hclose : Visit.close g (.activate r input) = pure := rfl
    simp only [visit, mem_activeNodes, hclose, bind_pure]
    by_cases hopen : Event.activate r.id ∈ opened
    · have hframe : (Visit.activate r input).frame ∈ opened := hopen
      simp only [hopen, hframe, if_true]
      rfl
    · have hframe : (Visit.activate r input).frame ∉ opened := hopen
      simp only [hopen, hframe, if_false]
      rfl
  | compute producer =>
    -- the draft is asked before the open frames are
    have hget : ∀ f : Draft → Walk Code, (get >>= f) d = f d d := fun _ => rfl
    simp only [visit, mem_openOutputs, hget, Visit.known?]
    cases d.shared? producer.port with
    | some code => rfl
    | none =>
      by_cases hopen : Event.compute producer.port ∈ opened
      · have hframe : (Visit.compute producer).frame ∈ opened := hopen
        simp only [hopen, hframe, if_true]
        rfl
      · have hframe : (Visit.compute producer).frame ∉ opened := hopen
        simp only [hopen, hframe, if_false]
        rfl

/-- A step that succeeds has recalled the code, or has followed the recipe
    inside a frame that was not open. -/
theorem visit_eq_ok {g : Graph} {catalog : Catalog} {depth : Nat} {opened : List Event} {v : Visit}
    {d d' : Draft} {code : Code}
    (h : visit g catalog (depth + 1) (activeNodes opened) (openOutputs opened) v d = .ok (code, d')) :
    (v.known? d = some code ∧ d' = d) ∨
    (v.known? d = none ∧ v.frame ∉ opened ∧
      (v.follow g catalog (visit g catalog depth (activeNodes (v.frame :: opened))
        (openOutputs (v.frame :: opened))) >>= v.close g) d = .ok (code, d')) := by
  rw [visit_succ] at h
  cases hknown : v.known? d with
  | some known =>
    simp only [hknown] at h
    cases h
    exact .inl ⟨rfl, rfl⟩
  | none =>
    simp only [hknown] at h
    by_cases hopen : v.frame ∈ opened
    · -- on a cycle the walk fails
      simp only [hopen, if_true] at h
      cases h
    · simp only [hopen, if_false] at h
      exact .inr ⟨rfl, hopen, h⟩

/-! ## The walk with its frames -/

/-- A step of the walk that also notes the open frames; `none` if it gives
    up. -/
def Tracked (α : Type) : Type := StateT Draft (ExceptT GraphError (StateT (List (List Event)) Option)) α

namespace Tracked

variable {α β : Type}

instance : Monad Tracked :=
  inferInstanceAs (Monad (StateT Draft (ExceptT GraphError (StateT (List (List Event)) Option))))

instance : MonadLift Walk Tracked := ⟨fun x d moments => some (x d, moments)⟩

/-- Gives up. -/
def cut : Tracked α := fun _ _ => none

/-- Notes the open frames. -/
def note (frames : List Event) : Tracked Unit := fun d moments => some (.ok ((), d), moments ++ [frames])

theorem bind_of_ok {x : Tracked α} {f : α → Tracked β} {d d' : Draft}
    {moments moments' : List (List Event)} {a : α} (h : x d moments = some (.ok (a, d'), moments')) :
    (x >>= f) d moments = f a d' moments' := by
  show ((x d moments : Option _) >>= _) = _
  rw [h]
  rfl

theorem bind_of_error {x : Tracked α} {f : α → Tracked β} {d : Draft}
    {moments moments' : List (List Event)} {e : GraphError} (h : x d moments = some (.error e, moments')) :
    (x >>= f) d moments = some (.error e, moments') := by
  show ((x d moments : Option _) >>= _) = _
  rw [h]
  rfl

/-- A plain step after a step that does what a plain one does. -/
theorem bind_lift {x : Walk α} {y : Tracked α} (f : α → Walk β) {d : Draft}
    {moments moments' : List (List Event)} (h : y d moments = some (x d, moments')) :
    (y >>= fun a => (monadLift (f a) : Tracked β)) d moments = some ((x >>= f) d, moments') := by
  have hbind : (x >>= f) d = (x d >>= fun s => f s.1 s.2) := rfl
  rw [hbind]
  cases hx : x d with
  | error e => exact bind_of_error (hx ▸ h)
  | ok s => exact bind_of_ok (hx ▸ h)

end Tracked

/-- The code of a node or of an output, inside the frames that are open. At
    most `limit` more are opened. -/
def tracked (g : Graph) (catalog : Catalog) (limit : Nat) (opened : List Event) (v : Visit) :
    Tracked Code := do
  match v.known? (← (get : Walk Draft)) with
  | some code => return code
  | none =>
    if v.frame ∈ opened then refuse v.cycle
    else
      match limit with
      | 0 => Tracked.cut
      | limit + 1 =>
        Tracked.note (v.frame :: opened)
        let code ← v.follow g catalog (tracked g catalog limit (v.frame :: opened))
        v.close g code

/-- The walk of a graph in which at most `limit` frames are open, that of the
    entry included, with the frames that are open whenever another one is
    opened. -/
def walkWithin (g : Graph) (catalog : Catalog) (limit : Nat) :
    Option (Except GraphError (Code × Draft) × List (List Event)) :=
  match g.start catalog, limit with
  | .error e, _ => some (.error e, [])
  | .ok _, 0 => none
  | .ok entry, limit + 1 =>
    let activate r input := tracked g catalog limit [.activate entry.id] (.activate r input)
    followAll g catalog activate entry.id entry.kind.outputs.zipIdx {} [[.activate entry.id]]

def compileWithin (g : Graph) (catalog : Catalog) (limit : Nat) :
    Option (Except GraphError Compilation × List (List Event)) := do
  let (result, moments) ← g.walkWithin catalog limit
  return (do let (body, draft) ← result; return draft.finish body, moments)

/-! ## What a part of the walk does to the draft -/

/-- How often the code of an output is asked for. -/
def computations (p : Port) (moments : List (List Event)) : Nat :=
  moments.countP fun frames => frames.head? == some (.compute p)

/-- A part of the walk inside open frames. An output with several wires is
    remembered each time that it is computed, none that is open is, and none
    is remembered twice. -/
structure Tally (g : Graph) (opened : List Event) (d d' : Draft) (noted : List (List Event)) : Prop where
  grows : d.Grows d'
  apart : ∀ p ∈ d'.remembered, p ∈ d.remembered ∨ .compute p ∉ opened
  count : ∀ p, 1 < (g.leaving p).length →
    computations p noted + d.remembered.count p = d'.remembered.count p
  nodup : d.Fresh → d.remembered.Nodup → d'.remembered.Nodup

namespace Tally

variable {g : Graph} {opened : List Event} {d d₁ d' : Draft} {noted noted' : List (List Event)}

/-- Only problems are recorded. -/
theorem problems (problems : List LooseWire) : Tally g opened d { d with problems := problems } [] where
  grows := Draft.Grows.refl.problems problems
  apart _ hp := .inl hp
  count _ _ := Nat.zero_add _
  nodup _ h := h

theorem append (h : Tally g opened d d₁ noted) (h' : Tally g opened d₁ d' noted') :
    Tally g opened d d' (noted ++ noted') where
  grows := h.grows.trans h'.grows
  apart p hp := by
    rcases h'.apart p hp with hp | hp
    · exact h.apart p hp
    · exact .inr hp
  count p hp := by
    have h₁ := h.count p hp
    have h₂ := h'.count p hp
    unfold computations at *
    rw [List.countP_append]
    omega
  nodup hd hnodup := h'.nodup (h.grows.fresh hd) (h.nodup hd hnodup)

/-- A frame is opened and closed, and nothing is shared. -/
theorem frame {e : Event} (h : Tally g (e :: opened) d d' noted)
    (he : ∀ p, e = .compute p → (g.leaving p).length ≤ 1) :
    Tally g opened d d' ((e :: opened) :: noted) where
  grows := h.grows
  apart p hp := (h.apart p hp).imp_right fun hout hin => hout (List.mem_cons_of_mem _ hin)
  count p hp := by
    have hne : e ≠ .compute p := by
      intro heq
      have := he p heq
      omega
    simpa [computations, List.countP_cons, hne] using h.count p hp
  nodup := h.nodup

/-- A frame is opened for an output, and its code is shared in the end. -/
theorem share {p : Port} {code : Code} {default : Const}
    (h : Tally g (.compute p :: opened) d d' noted) (hopen : .compute p ∉ opened)
    (hnew : d.shared? p = none) :
    Tally g opened d (d'.share p code default).2 ((.compute p :: opened) :: noted) where
  grows := h.grows.share p code default
  apart q hq := by
    rcases List.mem_cons.mp hq with rfl | hq
    · exact .inr hopen
    · exact (h.apart q hq).imp_right fun hout hin => hout (List.mem_cons_of_mem _ hin)
  count q hq := by
    have hcount := h.count q hq
    have hremembered : (d'.share p code default).2.remembered = p :: d'.remembered := rfl
    unfold computations at *
    rw [hremembered, List.count_cons, List.countP_cons]
    by_cases heq : p = q
    · simp only [heq, List.head?_cons, BEq.rfl, if_true]
      omega
    · simp only [List.head?_cons, Option.some_beq_some, beq_iff_eq, Event.compute.injEq, heq, if_false]
      omega
  nodup hd hnodup := by
    refine List.nodup_cons.mpr ⟨?_, h.nodup hd hnodup⟩
    intro hmem
    -- Before the frame was opened the output was not remembered; inside it, it is open.
    rcases h.apart p hmem with hold | hout
    · exact hd.not_mem_remembered hnew hold
    · exact hout List.mem_cons_self

end Tally

/-! ## Where frames come from -/

theorem source_mem_sources {g : Graph} {p : Port} {w : WireId × Wire} (h : w ∈ g.arriving p) :
    w.2.source ∈ g.sources := by
  obtain ⟨⟨w', id⟩, hmem, rfl⟩ := List.mem_map.mp (List.mem_of_mem_filter h)
  exact List.mem_dedup.mpr (List.mem_map.mpr ⟨w', List.fst_mem_of_mem_zipIdx hmem, rfl⟩)

/-- The output at the start of a wire is that of the wire. -/
theorem producer?_ok {g : Graph} {catalog : Catalog} {id : WireId} {w : Wire} {d d' : Draft}
    {found : Option Producer} (h : g.producer? catalog id w d = .ok (found, d')) :
    (∃ problems, d' = { d with problems := problems }) ∧
      ∀ producer, found = some producer → producer.port = w.source := by
  obtain ⟨node, -, heq⟩ := exists_of_producer? h
  have hreported := exists_reported_eq d (sourceAt id w node)
  cases hsource : sourceAt id w node with
  | ok producer =>
    rw [hsource] at heq hreported
    cases heq
    refine ⟨hreported, ?_⟩
    rintro _ ⟨⟩
    exact (of_sourceAt_eq_ok hsource).2.1
  | error problem =>
    rw [hsource] at heq hreported
    cases heq
    exact ⟨hreported, nofun⟩

/-- The node at the end of a wire is there. -/
theorem target?_ok {g : Graph} {catalog : Catalog} {id : WireId} {w : Wire} {d d' : Draft}
    {found : Option (Resolved × Nat)} (h : g.target? catalog id w d = .ok (found, d')) :
    (∃ problems, d' = { d with problems := problems }) ∧
      ∀ target, found = some target → (g.node? target.1.id).isSome := by
  obtain ⟨node, hresolve, heq⟩ := exists_of_target? h
  have hreported := exists_reported_eq d (targetAt id w node)
  cases htarget : targetAt id w node with
  | ok target =>
    rw [htarget] at heq hreported
    cases heq
    refine ⟨hreported, ?_⟩
    rintro _ ⟨⟩
    obtain ⟨rfl, -⟩ := of_targetAt_eq_ok htarget
    obtain ⟨hid, hnode, -⟩ := node?_of_resolve hresolve
    rw [hid, hnode]
    rfl
  | error problem =>
    rw [htarget] at heq hreported
    cases heq
    exact ⟨hreported, nofun⟩

/-! ## The two walks side by side -/

/-- With enough room for frames, the step with frames does what the plain
    step does, and notes frames that can be open at once. -/
def Tracks {α : Type} (g : Graph) (opened : List Event) (x : Walk α) (y : Nat → Tracked α) : Prop :=
  ∀ d moments, ∃ noted,
    (∀ limit, g.nestingBound ≤ limit + opened.length →
      y limit d moments = some (x d, moments ++ noted)) ∧
    (∀ frames ∈ noted, g.Nested frames) ∧
    ∀ a d', x d = .ok (a, d') → Tally g opened d d' noted

namespace Tracks

variable {α β : Type} {g : Graph} {catalog : Catalog} {opened : List Event}

/-- A plain step that records problems at most. -/
theorem lift {x : Walk α} (h : ∀ d a d', x d = .ok (a, d') → ∃ problems, d' = { d with problems := problems }) :
    Tracks g opened (monadLift x) (fun _ => monadLift x) := by
  intro d moments
  refine ⟨[], ?_, by simp, ?_⟩
  · intro limit _
    rw [List.append_nil]
    rfl
  · intro a d' hx
    obtain ⟨problems, rfl⟩ := h d a d' hx
    exact Tally.problems problems

theorem pure (a : α) : Tracks g opened (pure a) (fun _ => pure a) := by
  intro d moments
  refine ⟨[], ?_, by simp, ?_⟩
  · intro limit _
    rw [List.append_nil]
    rfl
  · intro a' d' hx
    cases hx
    exact Tally.problems d.problems

theorem refuse (e : GraphError) :
    Tracks g opened (monadLift (refuse e : Walk α) : Walk α) (fun _ => monadLift (refuse e : Walk α)) :=
  lift fun _ _ _ h => nomatch h

theorem bind {x : Walk α} {y : Nat → Tracked α} {f : α → Walk β} {f' : Nat → α → Tracked β}
    (hx : Tracks g opened x y)
    (hf : ∀ d a d', x d = .ok (a, d') → Tracks g opened (f a) (fun limit => f' limit a)) :
    Tracks g opened (x >>= f) (fun limit => y limit >>= f' limit) := by
  intro d moments
  obtain ⟨noted, hrun, hnested, htally⟩ := hx d moments
  cases hd : x d with
  | error e =>
    have hbind : (x >>= f) d = .error e := by
      show (x d >>= _) = _
      rw [hd]
      rfl
    -- the frames until the failure are noted, and nothing is counted
    refine ⟨noted, ?_, hnested, ?_⟩
    · intro limit hlimit
      rw [hbind]
      exact Tracked.bind_of_error (hd ▸ hrun limit hlimit)
    · intro a d' h
      rw [hbind] at h
      cases h
  | ok r =>
    obtain ⟨a, d₁⟩ := r
    have hbind : (x >>= f) d = f a d₁ := by
      show (x d >>= _) = _
      rw [hd]
      rfl
    obtain ⟨noted', hrun', hnested', htally'⟩ := hf d a d₁ hd d₁ (moments ++ noted)
    refine ⟨noted ++ noted', ?_, ?_, ?_⟩
    · intro limit hlimit
      rw [hbind, ← List.append_assoc, ← hrun' limit hlimit]
      exact Tracked.bind_of_ok (hd ▸ hrun limit hlimit)
    · intro frames hframes
      rcases List.mem_append.mp hframes with hframes | hframes
      · exact hnested frames hframes
      · exact hnested' frames hframes
    · intro b d' h
      rw [hbind] at h
      exact (htally a d₁ hd).append (htally' b d' h)

/-- The value of an input, if the output behind it has frames. -/
theorem inputWith {compute : Producer → Walk Code} {compute' : Nat → Producer → Tracked Code}
    (hcompute : ∀ producer, producer.port ∈ g.sources →
      Tracks g opened (compute producer) (fun limit => compute' limit producer))
    (r : Resolved) (index : Nat) :
    Tracks g opened (inputWith g catalog compute r index)
      (fun limit => inputWith g catalog (compute' limit) r index) := by
  unfold Graph.inputWith
  cases r.kind.inputs[index]? with
  | none => exact refuse _
  | some decl =>
    by_cases hsignal : decl.isSignal = true
    · simp only [hsignal, if_true]
      exact refuse _
    · simp only [hsignal]
      rcases hwires : g.arriving ⟨r.id, index⟩ with _ | ⟨⟨id, w⟩, _ | ⟨_, _⟩⟩
      · exact pure _
      · refine bind (lift fun _ _ _ h => (producer?_ok h).1) ?_
        intro d found d' hfound
        cases found with
        | none => exact pure _
        | some producer =>
          -- the frame that is opened belongs to an output that starts a wire
          have hsource : producer.port ∈ g.sources := by
            rw [(producer?_ok hfound).2 producer rfl]
            exact source_mem_sources (hwires ▸ List.mem_singleton.mpr rfl)
          exact bind (hcompute producer hsource) fun _ _ _ _ => pure _
      · exact refuse _

/-- The nodes at the ends of wires, if they have frames. -/
theorem followWires {activate : Resolved → Nat → Walk Code}
    {activate' : Nat → Resolved → Nat → Tracked Code}
    (hactivate : ∀ r index, (g.node? r.id).isSome →
      Tracks g opened (activate r index) (fun limit => activate' limit r index))
    (wires : List (WireId × Wire)) :
    Tracks g opened (followWires g catalog activate wires)
      (fun limit => followWires g catalog (activate' limit) wires) := by
  induction wires with
  | nil => exact pure _
  | cons head rest ih =>
    refine bind (lift fun _ _ _ h => (target?_ok h).1) ?_
    intro d found d' hfound
    cases found with
    | none => exact ih
    | some found =>
      refine bind (hactivate found.1 found.2 ((target?_ok hfound).2 found rfl)) ?_
      intro _ _ _ _
      exact bind ih fun _ _ _ _ => pure _

theorem followWith {activate : Resolved → Nat → Walk Code}
    {activate' : Nat → Resolved → Nat → Tracked Code}
    (hactivate : ∀ r index, (g.node? r.id).isSome →
      Tracks g opened (activate r index) (fun limit => activate' limit r index))
    (r : Resolved) (index : Nat) :
    Tracks g opened (followWith g catalog activate r index)
      (fun limit => followWith g catalog (activate' limit) r index) := by
  unfold Graph.followWith
  cases r.kind.outputs[index]? with
  | none => exact refuse _
  | some decl =>
    by_cases hsignal : decl.isSignal = true
    · simp only [hsignal, if_true]
      exact followWires hactivate _
    · simp only [hsignal]
      exact refuse _

theorem followAll {activate : Resolved → Nat → Walk Code}
    {activate' : Nat → Resolved → Nat → Tracked Code}
    (hactivate : ∀ r index, (g.node? r.id).isSome →
      Tracks g opened (activate r index) (fun limit => activate' limit r index))
    (catalog : Catalog) (id : NodeId) (decls : List (PortDecl × Nat)) :
    Tracks g opened (followAll g catalog activate id decls)
      (fun limit => followAll g catalog (activate' limit) id decls) := by
  induction decls with
  | nil => exact pure _
  | cons head rest ih =>
    unfold Graph.followAll
    by_cases hsignal : head.1.isSignal = true
    · simp only [hsignal, if_true]
      refine bind (followWires hactivate _) ?_
      intro _ _ _ _
      exact bind ih fun _ _ _ _ => pure _
    · simp only [hsignal]
      exact ih

/-- A recipe, by what it asks for. -/
theorem perform {input follow : Nat → Walk Code} {input' follow' : Nat → Nat → Tracked Code}
    (hinput : ∀ index, Tracks g opened (input index) (fun limit => input' limit index))
    (hfollow : ∀ index, Tracks g opened (follow index) (fun limit => follow' limit index))
    (recipe : Recipe α) :
    Tracks g opened (perform input follow recipe)
      (fun limit => perform (input' limit) (follow' limit) recipe) := by
  induction recipe with
  | done a => exact pure a
  | fail e => exact refuse e
  | input index next ih => exact bind (hinput index) fun _ code _ _ => ih code
  | follow index next ih => exact bind (hfollow index) fun _ code _ _ => ih code

end Tracks

theorem tracks_follow {g : Graph} {opened : List Event} {deeper : Visit → Walk Code}
    {deeper' : Nat → Visit → Tracked Code}
    (h : ∀ v, g.HasFrame v.frame → Tracks g opened (deeper v) (fun limit => deeper' limit v))
    (catalog : Catalog) (v : Visit) :
    Tracks g opened (v.follow g catalog deeper) (fun limit => v.follow g catalog (deeper' limit)) := by
  refine Tracks.perform ?_ ?_ v.recipe
  · exact Tracks.inputWith (fun producer hsource => h (.compute producer) hsource) v.subject
  · exact Tracks.followWith (fun r input hlive => h (.activate r input) hlive) v.subject

/-- Closing a frame changes nothing, or shares the code of an output that
    several wires leave. -/
theorem Visit.close_eq_ok {g : Graph} {v : Visit} {code code' : Code} {d d' : Draft}
    (h : v.close g code d = .ok (code', d')) :
    (d' = d ∧ code' = code ∧ ∀ p, v.frame = .compute p → (g.leaving p).length ≤ 1) ∨
    ∃ producer, v = .compute producer ∧ 1 < (g.leaving producer.port).length ∧
      (code', d') = d.share producer.port code producer.decl.default := by
  cases v with
  | activate r input =>
    cases h
    exact .inl ⟨rfl, rfl, fun _ hframe => nomatch hframe⟩
  | compute producer =>
    have hshare : g.shareIfNeeded producer code d = .ok (code', d') := h
    unfold shareIfNeeded at hshare
    split at hshare
    · next hle =>
      cases hshare
      refine .inl ⟨rfl, rfl, ?_⟩
      intro p hframe
      cases hframe
      exact hle
    · next hle =>
      cases hshare
      exact .inr ⟨producer, rfl, by omega, rfl⟩

/-- Closing a frame notes that it was open. -/
theorem Visit.close_tally {g : Graph} {opened : List Event} {v : Visit} {code code' : Code}
    {d d₁ d' : Draft} {noted : List (List Event)} (hopen : v.frame ∉ opened) (hnew : v.known? d = none)
    (h : Tally g (v.frame :: opened) d d₁ noted) (hclose : v.close g code d₁ = .ok (code', d')) :
    Tally g opened d d' ((v.frame :: opened) :: noted) := by
  rcases Visit.close_eq_ok hclose with ⟨rfl, -, hone⟩ | ⟨producer, rfl, -, hshare⟩
  · exact h.frame hone
  · obtain ⟨-, rfl⟩ := Prod.mk.inj hshare
    exact Tally.share h hopen hnew

/-- A step of the walk with frames. -/
theorem tracked_apply (g : Graph) (catalog : Catalog) (limit : Nat) (opened : List Event) (v : Visit)
    (d : Draft) (moments : List (List Event)) :
    tracked g catalog limit opened v d moments =
      match v.known? d with
      | some code => some (.ok (code, d), moments)
      | none =>
        if v.frame ∈ opened then some (.error v.cycle, moments)
        else
          match limit with
          | 0 => none
          | limit + 1 =>
            (v.follow g catalog (tracked g catalog limit (v.frame :: opened)) >>=
              fun code => (monadLift (v.close g code) : Tracked Code)) d
              (moments ++ [v.frame :: opened]) := by
  have hget : ∀ f : Draft → Tracked Code,
      ((monadLift (get : Walk Draft) : Tracked Draft) >>= f) d moments = f d d moments := fun _ => rfl
  unfold tracked
  show ((monadLift (get : Walk Draft) : Tracked Draft) >>= _) d moments = _
  rw [hget]
  cases v.known? d with
  | some code => rfl
  | none =>
    dsimp only
    by_cases hopen : v.frame ∈ opened
    · simp only [hopen, if_true]
      rfl
    · simp only [hopen, if_false]
      cases limit <;> rfl

/-- A step of the walk, if the steps inside its frame are tracked. -/
theorem tracks_step {g : Graph} {catalog : Catalog} {depth : Nat} {opened : List Event} {v : Visit}
    (hnested : g.Nested opened) (hframe : g.HasFrame v.frame)
    (hdeeper : v.frame ∉ opened → ∀ v', g.HasFrame v'.frame → Tracks g (v.frame :: opened)
      (visit g catalog depth (activeNodes (v.frame :: opened)) (openOutputs (v.frame :: opened)) v')
      (fun limit => tracked g catalog limit (v.frame :: opened) v')) :
    Tracks g opened (visit g catalog (depth + 1) (activeNodes opened) (openOutputs opened) v)
      (fun limit => tracked g catalog limit opened v) := by
  intro d moments
  have hvisit := visit_succ g catalog depth opened v d
  cases hknown : v.known? d with
  | some code =>
    simp only [hknown] at hvisit
    rw [hvisit]
    refine ⟨[], ?_, by simp, ?_⟩
    · intro limit _
      simp only [tracked_apply, hknown, List.append_nil]
    · intro a d' h
      cases h
      exact Tally.problems d.problems
  | none =>
    simp only [hknown] at hvisit
    by_cases hopen : v.frame ∈ opened
    · simp only [hopen, if_true] at hvisit
      rw [hvisit]
      refine ⟨[], ?_, by simp, fun _ _ h => nomatch h⟩
      intro limit _
      simp only [tracked_apply, hknown, hopen, if_true, List.append_nil]
    · simp only [hopen, if_false] at hvisit
      have hcons := hnested.cons hopen hframe
      obtain ⟨noted, hrun, hnoted, htally⟩ :=
        tracks_follow (hdeeper hopen) catalog v d (moments ++ [v.frame :: opened])
      refine ⟨(v.frame :: opened) :: noted, ?_, ?_, ?_⟩
      · intro limit hlimit
        -- there is room for the frame, as it can be open together with the others
        have hroom := hcons.length_le
        rw [List.length_cons] at hroom
        obtain ⟨limit, rfl⟩ : ∃ smaller, limit = smaller + 1 := ⟨limit - 1, by omega⟩
        have hinner := hrun limit (by rw [List.length_cons]; omega)
        simp only [tracked_apply, hknown, hopen, if_false]
        rw [hvisit, Tracked.bind_lift _ hinner, List.append_assoc]
        rfl
      · intro frames hmem
        rcases List.mem_cons.mp hmem with rfl | hmem
        · exact hcons
        · exact hnoted frames hmem
      · intro code d' h
        rw [hvisit] at h
        obtain ⟨inner, d₁, hinner, hclose⟩ := Walk.bind_eq_ok h
        exact Visit.close_tally hopen hknown (htally inner d₁ hinner) hclose

/-- The walk inside open frames. The induction is on the depth that is left
    to it; with every frame that is opened there is room for one less. -/
theorem tracks_visit {g : Graph} {catalog : Catalog} {depth : Nat} {opened : List Event} {v : Visit}
    (hnested : g.Nested opened) (hframe : g.HasFrame v.frame)
    (hdepth : g.nestingBound ≤ depth + opened.length) :
    Tracks g opened (visit g catalog (depth + 1) (activeNodes opened) (openOutputs opened) v)
      (fun limit => tracked g catalog limit opened v) := by
  induction depth generalizing opened v with
  | zero =>
    refine tracks_step hnested hframe ?_
    intro hopen
    have hroom := (hnested.cons hopen hframe).length_le
    rw [List.length_cons] at hroom
    omega
  | succ depth ih =>
    refine tracks_step hnested hframe ?_
    intro hopen v' hframe'
    refine ih (hnested.cons hopen hframe) hframe' ?_
    rw [List.length_cons]
    omega

/-! ## Whole graphs -/

theorem nested_entry {g : Graph} {catalog : Catalog} {entry : Resolved} (h : g.start catalog = .ok entry) :
    g.Nested [.activate entry.id] where
  nodup := by simp
  hasFrame e he := by
    obtain ⟨id, -, hresolve⟩ := start_eq_ok h
    obtain ⟨hid, hnode, -⟩ := node?_of_resolve hresolve
    obtain rfl := List.mem_singleton.mp he
    show (g.node? entry.id).isSome
    rw [hid, hnode]
    rfl

/-- The signals of the entry, with any depth that leaves room for all frames. -/
theorem tracks_entry {g : Graph} {catalog : Catalog} {entry : Resolved}
    (hstart : g.start catalog = .ok entry) {depth : Nat} (hdepth : g.nestingBound ≤ depth) :
    Tracks g [.activate entry.id]
      (followAll g catalog
        (fun r input => visit g catalog (depth + 1) [entry.id] [] (.activate r input)) entry.id
        entry.kind.outputs.zipIdx)
      (fun limit => followAll g catalog
        (fun r input => tracked g catalog limit [.activate entry.id] (.activate r input)) entry.id
        entry.kind.outputs.zipIdx) := by
  refine Tracks.followAll ?_ catalog _ _
  intro r input hlive
  exact tracks_visit (v := .activate r input) (nested_entry hstart) hlive (Nat.le_succ_of_le hdepth)

/-- The walk of a graph has room for all its frames. -/
theorem walkWithin_eq (g : Graph) (catalog : Catalog) :
    ∃ moments,
      (∀ limit, g.nestingBound ≤ limit → g.walkWithin catalog limit = some (g.walk catalog, moments)) ∧
      (∀ frames ∈ moments, g.Nested frames) ∧
      ∀ body draft, g.walk catalog = .ok (body, draft) → Tally g [] {} draft moments := by
  cases hstart : g.start catalog with
  | error e =>
    have hwalk := walk_of_start_error hstart
    refine ⟨[], ?_, by simp, ?_⟩
    · intro limit _
      simp only [walkWithin, hstart, hwalk]
    · intro body draft h
      rw [hwalk] at h
      cases h
  | ok entry =>
    -- the frame of the entry is open all the time, and so is noted first
    have hentry := nested_entry hstart
    have hwalk := walk_of_start hstart
    obtain ⟨noted, hrun, hnoted, htally⟩ :=
      tracks_entry hstart g.nestingBound_le {} [[.activate entry.id]]
    refine ⟨[.activate entry.id] :: noted, ?_, ?_, ?_⟩
    · intro limit hlimit
      have hroom := hentry.length_le
      rw [List.length_singleton] at hroom
      obtain ⟨limit, rfl⟩ : ∃ smaller, limit = smaller + 1 := ⟨limit - 1, by omega⟩
      rw [hwalk]
      simp only [walkWithin, hstart]
      exact hrun limit hlimit
    · intro frames hmem
      rcases List.mem_cons.mp hmem with rfl | hmem
      · exact hentry
      · exact hnoted frames hmem
    · intro body draft h
      rw [hwalk] at h
      exact (htally body draft h).frame (by simp)

/-- What is tracked in the same way is the same. -/
theorem Tracks.unique {α : Type} {g : Graph} {opened : List Event} {x x' : Walk α} {y : Nat → Tracked α}
    (h : Tracks g opened x y) (h' : Tracks g opened x' y) : x = x' := by
  funext d
  obtain ⟨noted, hrun, -⟩ := h d []
  obtain ⟨noted', hrun', -⟩ := h' d []
  have heq := (hrun g.nestingBound (Nat.le_add_right _ _)).symm.trans
    (hrun' g.nestingBound (Nat.le_add_right _ _))
  exact congrArg Prod.fst (Option.some.inj heq)

/-- A deeper bound changes nothing about the walk. -/
theorem followAll_depth {g : Graph} {catalog : Catalog} {entry : Resolved}
    (hstart : g.start catalog = .ok entry) {depth : Nat} (hdepth : g.nestingBound ≤ depth) :
    followAll g catalog
        (fun r input => visit g catalog (depth + 1) [entry.id] [] (.activate r input)) entry.id
        entry.kind.outputs.zipIdx =
      followAll g catalog
        (fun r input => visit g catalog g.depthBound [entry.id] [] (.activate r input)) entry.id
        entry.kind.outputs.zipIdx := by
  have hbound := g.nestingBound_le
  exact (tracks_entry hstart hdepth).unique (tracks_entry hstart hbound)

/-- Compiling a graph ends, whatever its wires are and whatever recipes its
    kinds have: it takes no more open frames at once than there are nodes and
    outputs that wires leave. The frames that are open at any moment are those
    of different nodes, all of them there, and of different outputs. Kinds that
    go on after a request of theirs has failed have no recipe and are not among
    them. -/
theorem compileWithin_eq (g : Graph) (catalog : Catalog) :
    ∃ moments,
      (∀ limit, g.liveNodes.length + g.sources.length ≤ limit →
        g.compileWithin catalog limit = some (g.compile catalog, moments)) ∧
      ∀ frames ∈ moments,
        (activeNodes frames).Nodup ∧ (∀ id ∈ activeNodes frames, (g.node? id).isSome) ∧
        (openOutputs frames).Nodup ∧ (∀ p ∈ openOutputs frames, ∃ w ∈ g.wires, w.source = p) ∧
        frames.length ≤ g.liveNodes.length + g.sources.length := by
  obtain ⟨moments, hwithin, hnested, -⟩ := g.walkWithin_eq catalog
  refine ⟨moments, ?_, ?_⟩
  · intro limit hlimit
    unfold compileWithin
    rw [hwithin limit hlimit]
    rfl
  · intro frames hmem
    have h := hnested frames hmem
    refine ⟨h.nodup_activeNodes, ?_, h.nodup_openOutputs, ?_, h.length_le⟩
    · intro id hid
      exact h.hasFrame _ (mem_activeNodes.mp hid)
    · intro p hp
      have hsource := h.hasFrame _ (mem_openOutputs.mp hp)
      exact List.mem_map.mp (List.mem_dedup.mp hsource)

end Graph

end FlowGraph
