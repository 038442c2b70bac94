import FlowGraph.Proofs.Contents
import FlowGraph.Proofs.Conversions
import FlowGraph.Proofs.Labels
import FlowGraph.Proofs.Segments

/-! # Laid out code on the machine

    The machine does with laid out code what the code tree says, unless it
    reaches a limit (`Scene.realizes`). There is a lemma for each way to lay
    out code; the shared computations enter through what is known of them
    (`Sharing.Valid`).
-/

namespace FlowGraph

variable {σ : Type}

/-! ## Raw pieces of code -/

/-- The effect with another name for the label. -/
def Effect.relabel (g : Label → Label) : Effect → Effect
  | .goto l f => .goto (g l) f
  | effect => effect

namespace Op

theorem effect_relabel (g : Label → Label) (o : Op) (limit : Nat) (f : Frame) :
    (o.relabel g).effect limit f = (o.effect limit f).map (Effect.relabel g) := by
  -- an operation that names no label keeps its name, and jumps nowhere
  have hplain (href : o.references? = none) :
      o.effect limit f = (o.effect limit f).map (Effect.relabel g) := by
    rcases heffect : o.effect limit f with fault | _ | ⟨l, f'⟩ | _ | _ | _ <;> try rfl
    exact absurd (href.symm.trans (effect_goto heffect)) (by simp)
  cases o with
  | label l => rfl
  | jump l => rfl
  | jumpIf l =>
    simp only [relabel, effect, Bind.bind, Except.bind, Except.map]
    rcases f.popBoolean "jumpif" with fault | ⟨_ | _, f⟩ <;> rfl
  | jumpUnless l =>
    simp only [relabel, effect, Bind.bind, Except.bind, Except.map]
    rcases f.popBoolean "jumpunless" with fault | ⟨_ | _, f⟩ <;> rfl
  | _ => exact hplain rfl

/-- New names for labels change nothing but where an operation jumps. -/
theorem act_relabel (host : Host σ) (g : Label → Label) (o : Op) (stack : List Value) :
    (o.relabel g).act host stack = (do
      let (l, stack) ← o.act host stack
      return (l.map g, stack)) := by
  rw [act, act, effect_relabel]
  rcases o.effect (stack.length + 1) ⟨.ofList stack, #[]⟩ with fault | _ | _ | _ | _ | _ <;>
    simp [Except.map, Effect.relabel] <;> rfl

end Op

namespace Code

theorem getElem?_of_labelAt? {ops : List Op} {l : Label} {i : Nat} (h : labelAt? ops l = some i) :
    ops[i]? = some (.label l) := by
  obtain ⟨hi, hdefines, -⟩ := List.findIdx?_eq_some_iff_getElem.mp h
  rw [List.getElem?_eq_getElem hi]
  cases hop : ops[i] <;> simp_all [Op.defines?]

theorem exists_labelAt? {ops : List Op} {l : Label} (h : l ∈ ops.filterMap Op.defines?) :
    ∃ i, labelAt? ops l = some i := by
  obtain ⟨o, ho, hdefines⟩ := List.mem_filterMap.mp h
  refine Option.isSome_iff_exists.mp ?_
  rw [labelAt?, List.findIdx?_isSome, List.any_eq_true]
  exact ⟨o, ho, by simp [hdefines]⟩

end Code

namespace Machine

variable {m : Machine} {host : Host σ} {left pc : Nat} {stack : List Value}
  {locals : Array (Option Value)} {w : σ} {vars : Variables}

/-- A raw piece of code runs on the machine under other names of its labels. -/
theorem Follows.raw (hm : m.Sound) {ops : List Op} (hclosed : Op.Closed ops) (g : Label → Label)
    (hplaced : m.Placed pc (ops.map (Op.relabel g))) {i : Nat} (hi : i ≤ ops.length)
    {keeps : Array (Option Value) → Variables → Prop} (hkeeps : keeps locals vars) :
    m.Follows host left (pc + i) ⟨.ofList stack, locals⟩ w
      ⟨pc + ops.length, Ends.anyOf (fun turns => (Code.actFrom host ops turns i stack).ends) vars w,
        keeps⟩ := by
  -- jumps go back as well, so the induction is on the steps that are left
  induction left using Nat.strongRecOn generalizing i stack w with
  | ind left ih =>
  rcases Nat.lt_or_eq_of_le hi with hlt | rfl
  · have hop : ops[i]? = some ops[i] := List.getElem?_eq_getElem hlt
    obtain ⟨hslot, hret⟩ := hclosed.slots ops[i] (List.getElem_mem hlt)
    have hcode : m.code[pc + i]? = some (ops[i].relabel g) := hplaced i _ (by simp [hop])
    refine .act vars hcode ?_ ?_ ?_ ?_
    · cases ho : ops[i] <;> simp_all [Op.touchesSlot, Op.relabel]
    · cases ho : ops[i] <;> simp_all [Op.touchesSlot, Op.relabel]
    · intro fault w' hact
      rw [Op.act_relabel] at hact
      rcases Act.bind_eq_some hact with ⟨_, _, herror, heq⟩ | ⟨_, _, _, -, heq⟩ <;> cases heq
      -- one turn is enough to come to the fault
      have hfault : Code.actFrom host ops 1 i stack vars w = some (.error fault, w') := by
        rw [Code.actFrom, hop]
        exact Act.bind_of_error herror
      exact ⟨1, hfault⟩
    · intro l stack' w' hact
      rw [Op.act_relabel] at hact
      rcases Act.bind_eq_some hact with ⟨_, _, -, heq⟩ | ⟨⟨l, stack'⟩, _, _, hact, heq⟩ <;> cases heq
      cases l with
      | none =>
        refine ⟨pc + i + 1, rfl, fun left' hleft => ?_⟩
        refine (ih left' hleft (i := i + 1) hlt).mono rfl ?_ fun _ _ h => h
        rintro r ⟨turns, hr⟩
        have hturn : Code.actFrom host ops (turns + 1) i stack vars w = some r := by
          rw [Code.actFrom, hop]
          exact (Act.bind_of_ok hact).trans hr
        exact ⟨turns + 1, hturn⟩
      | some l =>
        obtain ⟨j, hj⟩ := Code.exists_labelAt? (hclosed.defined l
          (List.mem_filterMap.mpr ⟨_, List.getElem_mem hlt, Op.act_goto hact⟩))
        have hlabel := Code.getElem?_of_labelAt? hj
        -- the label has another name on the machine, and the same place in the piece
        have htarget : m.positions[g l]? = some (pc + j) :=
          hm (pc + j) (g l) (hplaced j _ (by simp [hlabel, Op.relabel]))
        refine ⟨pc + j, htarget, fun left' hleft => ?_⟩
        refine (ih left' hleft (i := j) (Nat.le_of_lt (List.getElem?_eq_some_iff.mp hlabel).1)).mono rfl
          ?_ fun _ _ h => h
        rintro r ⟨turns, hr⟩
        have hturn : Code.actFrom host ops (turns + 1) i stack vars w = some r := by
          rw [Code.actFrom, hop]
          refine (Act.bind_of_ok hact).trans ?_
          simp only [hj]
          exact hr
        exact ⟨turns + 1, hturn⟩
  · exact .arrive _ ⟨0, by simp [Code.actFrom, Act.ends]⟩ hkeeps rfl

/-! ## Branches and loops -/

/-- A branch runs one of its arms, by the truth value on the stack. -/
theorem Follows.branch (hm : m.Sound) {ops₁ ops₂ : List Op} {l : Label}
    (hplaced : m.Placed pc ([Op.jumpUnless l] ++ (ops₁ ++ ([Op.jump (l + 1), .label l] ++
      (ops₂ ++ [Op.label (l + 1)])))))
    {keeps : Array (Option Value) → Variables → Prop} {yes no : List Value → Ends σ (List Value)}
    (hyes : ∀ left stack, m.Follows host left (pc + 1) ⟨.ofList stack, locals⟩ w
      ⟨pc + 1 + ops₁.length, yes stack vars w, keeps⟩)
    (hno : ∀ left stack, m.Follows host left (pc + 1 + ops₁.length + 2) ⟨.ofList stack, locals⟩ w
      ⟨pc + 1 + ops₁.length + 2 + ops₂.length, no stack vars w, keeps⟩) :
    m.Follows host left pc ⟨.ofList stack, locals⟩ w
      ⟨pc + 1 + ops₁.length + 2 + ops₂.length + 1,
        (match stack with
          | .boolean true :: stack => yes stack
          | .boolean false :: stack => no stack
          | v :: _ => Ends.fault (.typeMismatch "jumpunless" .boolean v.describe)
          | [] => Ends.fault .stackUnderflow) vars w,
        keeps⟩ := by
  have hmiddle := hplaced.rest.rest
  have hend := hmiddle.rest.rest
  rcases stack with _ | ⟨x | (_ | _) | object, stack⟩
  · exact .fault hplaced.head rfl (by simp) rfl rfl
  · exact .fault hplaced.head rfl (by simp) rfl rfl
  · -- not true: over the first arm, to the label of the second
    have htarget : m.positions[l]? = some (pc + 1 + ops₁.length + 1) := hm _ _ hmiddle.tail.head
    refine .goOn hplaced.head rfl (by simp) (Op.act_jumpUnless _ _ _ false) htarget fun left₁ _ => ?_
    refine .goOn hmiddle.tail.head rfl (by simp) (Op.act_label ..) rfl fun left₂ _ => ?_
    refine (hno left₂ stack).andThen (fun _ _ herror => herror) fun left₃ _ _ _ _ _ hok hk => ?_
    exact .goOn hend.head rfl (by simp) (Op.act_label ..) rfl fun _ _ => .arrive _ hok hk rfl
  · -- true: through the first arm, then over the second
    have htarget : m.positions[l + 1]? = some (pc + 1 + ops₁.length + 2 + ops₂.length) := hm _ _ hend.head
    refine .goOn hplaced.head rfl (by simp) (Op.act_jumpUnless _ _ _ true) rfl fun left₁ _ => ?_
    refine (hyes left₁ stack).andThen (fun _ _ herror => herror) fun left₂ _ _ _ _ _ hok hk => ?_
    refine .goOn hmiddle.head rfl (by simp) (Op.act_jump ..) htarget fun left₃ _ => ?_
    exact .goOn hend.head rfl (by simp) (Op.act_label ..) rfl fun _ _ => .arrive _ hok hk rfl
  · exact .fault hplaced.head rfl (by simp) rfl rfl

/-- A loop that counts in its slots repeats what its body does. The invariant
    says what the counter is, and holds wherever the body starts and ends. -/
theorem Follows.loop (hm : m.Sound) {ops : List Op} {slot : Nat} {head : Label}
    (hplaced : m.Placed pc (loopTest slot head ++ (ops ++ loopEnd slot head))) {limit : Double}
    (inv : Double → Array (Option Value) → Variables → Prop)
    {body : List Value → Ends σ (List Value)}
    (hlimit : ∀ k locals vars, inv k locals vars → locals[slot]? = some (some (.double limit)))
    (hcounter : ∀ k locals vars, inv k locals vars → locals[slot + 1]? = some (some (.double k)))
    (hcount : ∀ k locals vars, inv k locals vars →
      inv (k.add .one) (locals.setIfInBounds (slot + 1) (some (.double (k.add .one)))) vars)
    (hbody : ∀ left k stack locals vars w, inv k locals vars →
      m.Follows host left (pc + 5) ⟨.ofList stack, locals⟩ w
        ⟨pc + 5 + ops.length, body stack vars w, inv k⟩)
    {k : Double} (hinv : inv k locals vars) :
    m.Follows host left pc ⟨.ofList stack, locals⟩ w
      ⟨pc + 5 + ops.length + 6, Ends.anyOf (fun turns => Ends.iterate body limit turns k stack) vars w,
        fun locals vars => ∃ k, inv k locals vars⟩ := by
  -- a turn takes steps, so the induction is on those that are left
  induction left using Nat.strongRecOn generalizing k stack locals vars w with
  | ind left ih =>
  have htest := hplaced.first
  have hend := hplaced.rest.rest
  have hhead : m.positions[head]? = some pc := hm pc head htest.head
  have hexit : m.positions[head + 1]? = some (pc + 5 + ops.length + 5) := hm _ _ (hend 5 _ rfl)
  refine .goOn htest.head rfl (by simp) (Op.act_label ..) rfl fun left₁ h₁ => ?_
  refine .load htest.tail.head (hcounter k locals vars hinv) fun left₂ h₂ => ?_
  refine .load htest.tail.tail.head (hlimit k locals vars hinv) fun left₃ h₃ => ?_
  have hcompare (b : Bool) (hb : k.lt limit = b) :
      (Op.compare .lt).act host (.double limit :: .double k :: stack) = pure (none, .boolean b :: stack) :=
    hb ▸ Op.act_compare host stack .lt k limit
  cases hlt : k.lt limit with
  | false =>
    -- the loop is left, and no turn was needed
    refine .goOn (htest 3 _ rfl) rfl (by simp) (hcompare false hlt) rfl fun left₄ h₄ => ?_
    refine .goOn (htest 4 _ rfl) rfl (by simp) (Op.act_jumpUnless _ _ _ false) hexit fun left₅ h₅ => ?_
    refine .goOn (hend 5 _ rfl) rfl (by simp) (Op.act_label ..) rfl fun left₆ h₆ => ?_
    have hdone : Ends.iterate body limit 0 k stack vars w (.ok (stack, vars), w) := by
      rw [Ends.iterate, hlt]
      rfl
    exact .arrive _ ⟨0, hdone⟩ ⟨k, hinv⟩ rfl
  | true =>
    refine .goOn (htest 3 _ rfl) rfl (by simp) (hcompare true hlt) rfl fun left₄ h₄ => ?_
    refine .goOn (htest 4 _ rfl) rfl (by simp) (Op.act_jumpUnless _ _ _ true) rfl fun left₅ h₅ => ?_
    -- this turn comes before those that the counter allows afterwards
    have hturn (turns : Nat) {r : Except Fault (List Value × Variables) × σ}
        (hr : (body stack >>= Ends.iterate body limit turns (k.add .one)) vars w r) :
        Ends.anyOf (fun turns => Ends.iterate body limit turns k stack) vars w r := by
      refine ⟨turns + 1, ?_⟩
      simp only [Ends.iterate, hlt, if_true]
      exact hr
    refine (hbody left₅ k stack locals vars w hinv).andThen ?_ ?_
    · intro fault w' herror
      exact hturn 0 (Ends.bind_error herror)
    · intro left₆ stack' locals' vars' w' h₆ hok hinv'
      -- the body keeps the invariant, so the counter is still in its slot
      have hsize : slot + 1 < locals'.size :=
        (Array.getElem?_eq_some_iff.mp (hcounter k locals' vars' hinv')).1
      refine .load (hend 0 _ rfl) (hcounter k locals' vars' hinv') fun left₇ h₇ => ?_
      refine .goOn (hend 1 _ rfl) rfl (by simp) (Op.act_const ..) rfl fun left₈ h₈ => ?_
      refine .goOn (hend 2 _ rfl) rfl (by simp) (Op.act_arith ..) rfl fun left₉ h₉ => ?_
      refine .store (hend 3 _ rfl) rfl hsize fun left₁₀ h₁₀ => ?_
      refine .goOn (hend 4 _ rfl) rfl (by simp) (Op.act_jump ..) hhead fun left₁₁ h₁₁ => ?_
      refine (ih left₁₁ (by omega) (hcount k locals' vars' hinv')).mono rfl ?_ fun _ _ h => h
      rintro r ⟨turns, hr⟩
      exact hturn turns (Ends.bind_ok hok hr)

end Machine

/-! ## Scenes -/

/-- The shared computations of a draft do what is known of them. A value that
    a computation gave may be given again, whatever has happened since. -/
structure Sharing.Valid (s : Sharing σ) (host : Host σ) (d : Draft) : Prop where
  computes : ∀ (id : SharedId) (entry : Shared), d.shared[id]? = some entry →
    entry.value.Computes host s (s.value id)
  typed : ∀ (id : SharedId) (entry : Shared), d.shared[id]? = some entry →
    (s.value id).Yields fun v => v.conforms entry.ty = true
  settled : ∀ id vars w v vars' w', s.value id vars w (.ok (v, vars'), w') →
    vars' = vars ∧ s.Settled id v
  idle : Ends.Within (pure ()) s.ahead
  ahead : ∀ id, Ends.Within (do let _ ← s.value id; s.ahead) s.ahead

/-- A machine with code that is laid out from a draft in which every slot is
    reserved, and what is known of its shared computations. -/
structure Scene (σ : Type) where
  machine : Machine
  host : Host σ
  sharing : Sharing σ
  draft : Draft
  /-- The number of locals. -/
  total : Nat
  sound : machine.Sound
  reserved : draft.Reserved
  apart : draft.Apart
  valid : sharing.Valid host draft

/-- What a job should do. -/
def Job.ends (host : Host σ) (s : Sharing σ) (stack : List Value) : Job → Ends σ (List Value)
  | .code c _ => c.ends host s stack
  | .stores _ _ => do
    s.ahead
    return stack

/-- The job computes only what comes before a shared value. -/
def Job.Before (d : Draft) (id : SharedId) : Job → Prop
  | .code c _ => c.isValue = true ∧ c.Fits d.types id
  | .stores ids _ => ∀ id' ∈ ids, id' < id

namespace Scene

variable (S : Scene σ)

/-- The operations of a job stand at a position, and the locals are as it
    needs them. -/
structure Ready (job : Job) (d : Draft) (ops : List Op) (d' : Draft) (pc : Nat)
    (busy : SharedId → Prop) (temps : Nat → Option Double) (vars : Variables)
    (locals : Array (Option Value)) : Prop where
  advances : S.draft.Advances d
  fits : job.Fits S.draft
  placed : S.machine.Placed pc ops
  slots : d'.nextSlot ≤ S.total
  before : ∀ id, busy id → job.Before S.draft id
  taken : ∀ n x, temps n = some x → n < d.nextSlot
  agrees : S.draft.Agrees S.sharing S.total ⟨d.stored, busy, temps, vars⟩ locals

/-- Comes to a position, with the locals as later code needs them. -/
def goal (target : Nat) (allowed : Except Fault (List Value × Variables) × σ → Prop)
    (stored : List SharedId) (busy : SharedId → Prop) (temps : Nat → Option Double) : Machine.Goal σ :=
  ⟨target, allowed, fun locals vars => S.draft.Agrees S.sharing S.total ⟨stored, busy, temps, vars⟩ locals⟩

/-- The machine does with the operations what the job should do. -/
def Realizes (job : Job) (d : Draft) (ops : List Op) (d' : Draft) : Prop :=
  ∀ {left pc busy temps vars locals stack w}, S.Ready job d ops d' pc busy temps vars locals →
    S.machine.Follows S.host left pc ⟨.ofList stack, locals⟩ w
      (S.goal (pc + ops.length) (job.ends S.host S.sharing stack vars w) d'.stored busy temps)

variable {S}

/-! ## Straight code -/

theorem realizes_op {o : Op} {ty : Ty} {after : List Code} {d : Draft} :
    S.Realizes (.code (.op o ty) after) d [o] d := by
  intro left pc busy temps vars locals stack w h
  obtain ⟨_, hplain⟩ := h.fits
  have hslot : o.touchesSlot = false := by cases o <;> first | rfl | cases hplain
  have hret : o ≠ .ret := by rintro rfl; cases hplain
  refine .act vars h.placed.head hslot hret (fun fault w' hact => Ends.bind_error hact) ?_
  rintro (_ | l) stack' w' hact
  · exact ⟨pc + 1, rfl, fun left' _ => .arrive _ (Ends.bind_ok hact rfl) h.agrees rfl⟩
  · have href := Op.act_goto hact
    rw [Op.references?_of_isPlain hplain] at href
    cases href

theorem realizes_done {ty : Ty} {after : List Code} {d : Draft} :
    S.Realizes (.code (.done ty) after) d [] d := by
  intro left pc busy temps vars locals stack w h
  exact .arrive _ rfl h.agrees rfl

theorem realizes_andThen {first rest : Code} {after : List Code} {d d₁ d₂ : Draft} {ops₁ ops₂ : List Op}
    (h₁ : Lays (.code first (rest :: after)) d ops₁ d₁) (h₂ : Lays (.code rest after) d₁ ops₂ d₂)
    (ih₁ : S.Realizes (.code first (rest :: after)) d ops₁ d₁)
    (ih₂ : S.Realizes (.code rest after) d₁ ops₂ d₂) :
    S.Realizes (.code (.andThen first rest) after) d (ops₁ ++ ops₂) d₂ := by
  intro left pc busy temps vars locals stack w h
  obtain ⟨n, hfits⟩ := h.fits
  have hfirst : S.Ready (.code first (rest :: after)) d ops₁ d₁ pc busy temps vars locals := {
    h with
    fits := ⟨n, hfits.1⟩
    placed := h.placed.first
    slots := Nat.le_trans h₂.advances.nextSlot h.slots
    before := fun id hid =>
      ⟨(Bool.and_eq_true_iff.mp (h.before id hid).1).1, (h.before id hid).2.1⟩ }
  rw [List.length_append, ← Nat.add_assoc]
  -- the second part finds the slots as the first one has left them
  refine (ih₁ hfirst).bind fun left' stack' locals' vars' w' _ _ hagrees => ih₂ ?_
  exact {
    advances := h.advances.trans h₁.advances
    fits := ⟨n, hfits.2⟩
    placed := h.placed.rest
    slots := h.slots
    before := fun id hid =>
      ⟨(Bool.and_eq_true_iff.mp (h.before id hid).1).2, (h.before id hid).2.2⟩
    taken := fun n x hx => Nat.lt_of_lt_of_le (h.taken n x hx) h₁.advances.nextSlot
    agrees := hagrees }

theorem realizes_raw {ty : Ty} {ops : List Op} {after : List Code} {d : Draft} :
    S.Realizes (.code (.raw ty ops) after) d (d.emitRaw ops).ops (d.emitRaw ops).draft := by
  intro left pc busy temps vars locals stack w h
  obtain ⟨_, hclosed⟩ := h.fits
  have hplaced := h.placed
  simp only [Draft.emitRaw, Emission.ops, Block.toList_ops] at hplaced ⊢
  rw [List.length_map]
  exact .raw S.sound hclosed _ hplaced (Nat.zero_le _) h.agrees

/-! ## Variables -/

theorem realizes_getVariable {name : String} {after : List Code} {d : Draft} {slot : Nat}
    (hslot : d.variableSlots.lookup name = some slot) :
    S.Realizes (.code (.getVariable name) after) d [.load slot (.ref .object)] d := by
  intro left pc busy temps vars locals stack w h
  have hat : S.draft.At (.var name) slot := by rwa [Draft.At, ← h.advances.variableSlots]
  refine .load h.placed.head (h.agrees.var hat) fun left' _ => ?_
  exact .arrive _ (Ends.bind_ok (Act.fetch_apply name vars w) rfl) h.agrees rfl

theorem realizes_setVariable {name : String} {value : Code} {after : List Code} {d d' : Draft} {slot : Nat}
    {ops : List Op} (hvalue : Lays (.code value after) d ops d')
    (hslot : d'.variableSlots.lookup name = some slot) (ih : S.Realizes (.code value after) d ops d') :
    S.Realizes (.code (.setVariable name value) after) d (ops ++ [Op.store slot (.ref .object)]) d' := by
  intro left pc busy temps vars locals stack w h
  -- assignments are not part of any value, so nothing is being computed
  have hbusy (id : SharedId) : ¬busy id := fun hid => nomatch (h.before id hid).1
  have hat : S.draft.At (.var name) slot := by
    rwa [Draft.At, ← (h.advances.trans hvalue.advances).variableSlots]
  have hvalue : S.Ready (.code value after) d ops d' pc busy temps vars locals := {
    h with
    placed := h.placed.first
    before := fun id hid => absurd hid (hbusy id) }
  have hop := h.placed.rest.head
  rw [List.length_append, ← Nat.add_assoc]
  refine (ih hvalue).bind fun left' stack' locals' vars' w' _ _ hagrees => ?_
  rcases stack' with _ | ⟨x | b | object, stack'⟩
  · exact .store_empty hop rfl
  · exact .store_mismatch hop rfl rfl
  · exact .store_mismatch hop rfl rfl
  · have hlt : slot < S.total := by
      rw [← hagrees.size]
      exact (Array.getElem?_eq_some_iff.mp (hagrees.var hat)).1
    refine .store hop (Value.conforms_object.mpr ⟨object, rfl⟩) (hagrees.size ▸ hlt) fun left' _ => ?_
    refine .arrive (vars'.set name object)
      (Ends.bind_ok (Act.store_apply name object vars' w') rfl) ?_ rfl
    refine hagrees.set S.apart hat hlt (by simp [Contents.Allows]) ?_
    -- no other place has this slot
    rintro (name' | id | n) content hne hallows
    · have hname : name' ≠ name := fun heq => hne (heq ▸ rfl)
      simpa [Contents.Allows, hname] using hallows
    · exact hallows
    · exact hallows

/-! ## Shared computations -/

/-- A shared value is being computed. -/
def computing (busy : SharedId → Prop) (id : SharedId) : SharedId → Prop := fun id' => busy id' ∨ id' = id

theorem realizes_load {id : SharedId} {ty : Ty} {after : List Code} {d : Draft} {entry : Shared} {slot : Nat}
    (hentry : d.shared[id]? = some entry) (hslot : entry.slot = some slot) (hstored : d.isStored id = true) :
    S.Realizes (.code (.shared id ty) after) d [.load slot ty] d := by
  intro left pc busy temps vars locals stack w h
  have hat : S.draft.At (.shared id) slot := ⟨entry, h.advances.shared ▸ hentry, hslot⟩
  have hbusy : ¬busy id := fun hid => Nat.lt_irrefl id (h.before id hid).2.1
  obtain ⟨v, hv, hsettled⟩ := h.agrees.shared hat (List.contains_iff_mem.mp hstored) hbusy
  refine .load h.placed.head hv fun left' _ => ?_
  exact .arrive _ (Ends.bind_ok (hsettled vars w) rfl) h.agrees rfl

/-- The computation of a shared value leaves it on the stack, for what
    follows. -/
theorem follows_computation {job : Job} {id : SharedId} {after : List Code} {d d' d'' : Draft}
    {entry : Shared} {ops ops' : List Op} (hentry : d.shared[id]? = some entry)
    (ih : S.Realizes (.code entry.value after) (d.markStored id) ops d')
    {left pc target busy temps vars locals stack w keeps} {g : Value → Ends σ (List Value)}
    (h : S.Ready job d (ops ++ ops') d'' pc busy temps vars locals) (hslots : d'.nextSlot ≤ d''.nextSlot)
    (hbefore : ∀ id', busy id' → id < id')
    (hrest : ∀ left' v locals' w', v.conforms entry.ty = true → S.sharing.Settled id v →
      S.draft.Agrees S.sharing S.total ⟨d'.stored, computing busy id, temps, vars⟩ locals' →
      S.machine.Follows S.host left' (pc + ops.length) ⟨.ofList (v :: stack), locals'⟩ w'
        ⟨target, g v vars w', keeps⟩) :
    S.machine.Follows S.host left pc ⟨.ofList stack, locals⟩ w
      ⟨target, (S.sharing.value id >>= g) vars w, keeps⟩ := by
  have hentry' : S.draft.shared[id]? = some entry := h.advances.shared ▸ hentry
  obtain ⟨hvalue, hfits⟩ := S.reserved.ordered id entry hentry'
  -- it is marked as stored before it is, which is why it counts as being computed
  have hagrees : S.draft.Agrees S.sharing S.total
      ⟨(d.markStored id).stored, computing busy id, temps, vars⟩ locals := by
    refine h.agrees.mono ?_
    rintro (name | id' | n) content hallows
    · exact hallows
    · intro hmem hbusy
      obtain ⟨hbusy, hne⟩ := not_or.mp hbusy
      exact hallows ((List.mem_cons.mp hmem).resolve_left hne) hbusy
    · exact hallows
  -- a value names only earlier ones, so none of those that are being computed
  have hready : S.Ready (.code entry.value after) (d.markStored id) ops d' pc (computing busy id) temps vars
      locals := {
    advances := h.advances.trans (d.advances_markStored id)
    fits := S.reserved.fits_value hentry' after
    placed := h.placed.first
    slots := Nat.le_trans hslots h.slots
    before := by
      rintro id' (hid' | rfl)
      · exact ⟨hvalue, hfits.mono (List.prefix_refl _) (Nat.le_of_lt (hbefore id' hid'))⟩
      · exact ⟨hvalue, hfits⟩
    taken := h.taken
    agrees := hagrees }
  have hcomputed := S.valid.computes id entry hentry' stack vars w
  refine (ih hready).andThen (fun fault w' herror => ?_) ?_
  · rcases hcomputed _ herror with ⟨_, _, hv, heq⟩ | ⟨_, _, _, -, heq⟩ <;> cases heq
    exact Ends.bind_error hv
  · intro left' stack' locals' vars' w' _ hok hagrees'
    rcases hcomputed _ hok with ⟨_, _, _, heq⟩ | ⟨v, vars', w', hv, heq⟩ <;> cases heq
    -- a shared value changes no variables, and stays what it is
    obtain ⟨rfl, hsettled⟩ := S.valid.settled _ _ _ _ _ _ hv
    have htyped := S.valid.typed id entry hentry' _ _ _ _ _ hv
    exact (hrest left' v locals' w' htyped hsettled hagrees').mono rfl (fun _ hr => Ends.bind_ok hv hr)
      fun _ _ hk => hk

/-- A value that was computed is put into its slot. -/
theorem agrees_settle {stored : List SharedId} {busy : SharedId → Prop} {temps : Nat → Option Double}
    {vars : Variables} {locals : Array (Option Value)} {id : SharedId} {slot : Nat} {v : Value}
    (h : S.draft.Agrees S.sharing S.total ⟨stored, computing busy id, temps, vars⟩ locals)
    (hat : S.draft.At (.shared id) slot) (hslot : slot < S.total) (hv : S.sharing.Settled id v) :
    S.draft.Agrees S.sharing S.total ⟨stored, busy, temps, vars⟩
      (locals.setIfInBounds slot (some v)) := by
  refine h.set S.apart hat hslot (fun _ _ => ⟨v, rfl, hv⟩) ?_
  rintro (name | id' | n) content hne hallows
  · exact hallows
  · intro hmem hbusy
    have hid : id' ≠ id := fun heq => hne (heq ▸ rfl)
    exact hallows hmem (not_or.mpr ⟨hbusy, hid⟩)
  · exact hallows

/-- A slot of a shared value is one of the locals. -/
theorem slot_lt {d d' : Draft} {id : SharedId} {slot : Nat} (hd : S.draft.Advances d)
    (hd' : d.Advances d') (htotal : d'.nextSlot ≤ S.total) (hat : S.draft.At (.shared id) slot) :
    slot < S.total :=
  Nat.lt_of_lt_of_le (S.apart.lt hat (by simp))
    (Nat.le_trans (hd.trans hd').nextSlot htotal)

theorem realizes_compute {id : SharedId} {ty : Ty} {after : List Code} {d d' : Draft} {entry : Shared}
    {slot : Nat} {ops : List Op} (hentry : d.shared[id]? = some entry) (hslot : entry.slot = some slot)
    (hvalue : Lays (.code entry.value after) (d.markStored id) ops d')
    (ih : S.Realizes (.code entry.value after) (d.markStored id) ops d') :
    S.Realizes (.code (.shared id ty) after) d (ops ++ [Op.dup, .store slot ty]) d' := by
  intro left pc busy temps vars locals stack w h
  have hat : S.draft.At (.shared id) slot := ⟨entry, h.advances.shared ▸ hentry, hslot⟩
  have hlt := slot_lt h.advances ((d.advances_markStored id).trans hvalue.advances) h.slots hat
  have hty : entry.ty = ty := by
    obtain ⟨n, hfits⟩ := h.fits
    obtain ⟨entry', hentry', rfl⟩ := Option.map_eq_some_iff.mp (List.getElem?_map.symm.trans hfits.2)
    rw [← h.advances.shared, hentry] at hentry'
    rw [Option.some.inj hentry']
  refine follows_computation hentry ih h (Nat.le_refl _) (fun id' hid' => (h.before id' hid').2.1) ?_
  intro left' v locals' w' htyped hsettled hagrees
  have hcode := h.placed.rest
  refine .goOn hcode.head rfl (by simp) (Op.act_dup ..) rfl fun left' _ => ?_
  refine .store hcode.tail.head (hty ▸ htyped) (hagrees.size ▸ hlt) fun left' _ => ?_
  exact .arrive _ rfl (agrees_settle hagrees hat hlt hsettled) (by simp [Nat.add_assoc])

/-! ## Computing ahead -/

theorem realizes_nil {after : List Code} {d : Draft} : S.Realizes (.stores [] after) d [] d := by
  intro left pc busy temps vars locals stack w h
  exact .arrive _ (Ends.bind_ok (S.valid.idle vars w _ rfl) rfl) h.agrees rfl

theorem realizes_skip {id : SharedId} {rest : List SharedId} {after : List Code} {d d' : Draft}
    {ops : List Op} (ih : S.Realizes (.stores rest after) d ops d') :
    S.Realizes (.stores (id :: rest) after) d ops d' := by
  intro left pc busy temps vars locals stack w h
  exact ih { h with
    fits := trivial
    before := fun id' hid' x hx => h.before id' hid' x (List.mem_cons_of_mem _ hx) }

/-- A value that is computed ahead counts as ahead. -/
theorem ahead_within (id : SharedId) (x : Ends σ (List Value)) :
    Ends.Within (do let _ ← S.sharing.value id; S.sharing.ahead; x) (do S.sharing.ahead; x) := by
  have hahead := (S.valid.ahead id).bind_right fun _ => x
  rwa [bind_assoc] at hahead

theorem realizes_store {id : SharedId} {rest : List SharedId} {after : List Code} {d d₁ d₂ : Draft}
    {entry : Shared} {slot : Nat} {ops₁ ops₂ : List Op} (hentry : d.shared[id]? = some entry)
    (hslot : entry.slot = some slot) (hvalue : Lays (.code entry.value after) (d.markStored id) ops₁ d₁)
    (hrest : Lays (.stores rest after) d₁ ops₂ d₂)
    (ih₁ : S.Realizes (.code entry.value after) (d.markStored id) ops₁ d₁)
    (ih₂ : S.Realizes (.stores rest after) d₁ ops₂ d₂) :
    S.Realizes (.stores (id :: rest) after) d (ops₁ ++ [Op.store slot entry.value.ty] ++ ops₂) d₂ := by
  intro left pc busy temps vars locals stack w h
  rw [List.append_assoc] at h ⊢
  have hadvances := (d.advances_markStored id).trans hvalue.advances
  have hat : S.draft.At (.shared id) slot := ⟨entry, h.advances.shared ▸ hentry, hslot⟩
  have hlt := slot_lt h.advances (hadvances.trans hrest.advances) h.slots hat
  have hty : entry.ty = entry.value.ty :=
    S.reserved.types entry (List.mem_of_getElem? (h.advances.shared ▸ hentry))
  have hcode := h.placed.rest
  -- the value is computed and stored, and the others after it
  have hcomputed : S.machine.Follows S.host left pc ⟨.ofList stack, locals⟩ w
      (S.goal (pc + (ops₁ ++ ([Op.store slot entry.value.ty] ++ ops₂)).length)
        ((do let _ ← S.sharing.value id; S.sharing.ahead; return stack : Ends σ _) vars w) d₂.stored busy
        temps) := by
    refine follows_computation hentry ih₁ h hrest.advances.nextSlot
      (fun id' hid' => h.before id' hid' id List.mem_cons_self) ?_
    intro left' v locals' w' htyped hsettled hagrees
    refine .store hcode.head (hty ▸ htyped) (hagrees.size ▸ hlt) fun left' _ => ?_
    have hlength : pc + (ops₁ ++ ([Op.store slot entry.value.ty] ++ ops₂)).length =
        pc + ops₁.length + 1 + ops₂.length := by simp; omega
    rw [hlength]
    exact ih₂ {
      advances := h.advances.trans hadvances
      fits := trivial
      placed := hcode.tail
      slots := h.slots
      before := fun id' hid' x hx => h.before id' hid' x (List.mem_cons_of_mem _ hx)
      taken := fun n x hx => Nat.lt_of_lt_of_le (h.taken n x hx) hadvances.nextSlot
      agrees := agrees_settle hagrees hat hlt hsettled }
  exact hcomputed.mono rfl (ahead_within id (pure stack) vars w) fun _ _ hk => hk

/-- What is computed ahead, and what follows. -/
theorem follows_ahead {ids : List SharedId} {after : List Code} {d d' : Draft} {ops : List Op}
    (ih : S.Realizes (.stores ids after) d ops d') {left pc target busy temps vars locals stack w keeps}
    {x : Ends σ (List Value)} (h : S.Ready (.stores ids after) d ops d' pc busy temps vars locals)
    (hrest : ∀ left' locals' vars' w',
      S.draft.Agrees S.sharing S.total ⟨d'.stored, busy, temps, vars'⟩ locals' →
      S.machine.Follows S.host left' (pc + ops.length) ⟨.ofList stack, locals'⟩ w'
        ⟨target, x vars' w', keeps⟩) :
    S.machine.Follows S.host left pc ⟨.ofList stack, locals⟩ w
      ⟨target, (do S.sharing.ahead; x) vars w, keeps⟩ := by
  refine (ih h).andThen (fun fault w' herror => ?_) ?_
  · rcases herror with ⟨_, _, hahead, heq⟩ | ⟨_, _, _, -, heq⟩ <;> cases heq
    exact Ends.bind_error hahead
  · rintro left' stack' locals' vars' w' - (⟨_, _, -, heq⟩ | ⟨_, vars', w', hahead, heq⟩) hagrees <;> cases heq
    exact (hrest left' locals' vars' w' hagrees).mono rfl (fun _ hx => Ends.bind_ok hahead hx)
      fun _ _ hk => hk

/-! ## Loops and branches -/

/-- The temporaries with one more. -/
def holding (temps : Nat → Option Double) (slot : Nat) (x : Double) : Nat → Option Double :=
  fun n => if n = slot then some x else temps n

/-- The temporaries with the limit of a loop and its counter. -/
def looping (temps : Nat → Option Double) (slot : Nat) (limit counter : Double) : Nat → Option Double :=
  holding (holding temps slot limit) (slot + 1) counter

section

variable {stored : List SharedId} {busy : SharedId → Prop} {temps temps' : Nat → Option Double}
  {vars : Variables} {locals : Array (Option Value)} {slot : Nat}

/-- Writes a temporary. -/
theorem agrees_temp (hslot : S.draft.nextSlot ≤ slot) (hlt : slot < S.total)
    (h : S.draft.Agrees S.sharing S.total ⟨stored, busy, temps, vars⟩ locals) (x : Double)
    (hself : temps' slot = some x) (hother : ∀ n, n ≠ slot → temps' n = temps n) :
    S.draft.Agrees S.sharing S.total ⟨stored, busy, temps', vars⟩
      (locals.setIfInBounds slot (some (.double x))) := by
  have hat : S.draft.At (.temp slot) slot := ⟨rfl, hslot⟩
  refine h.set S.apart hat hlt (by simp [Contents.Allows, hself]) ?_
  rintro (name | id | n) content hne hallows
  · exact hallows
  · exact hallows
  · have hn : n ≠ slot := fun heq => hne (heq ▸ rfl)
    simpa [Contents.Allows, hother n hn] using hallows

theorem lt_of_looping (htaken : ∀ n x, temps n = some x → n < slot) {limit k x : Double} {n : Nat}
    (hx : looping temps slot limit k n = some x) : n < slot + 2 := by
  simp only [looping, holding] at hx
  split at hx
  · omega
  · split at hx
    · omega
    · exact Nat.lt_succ_of_lt (Nat.lt_succ_of_lt (htaken n x hx))

/-- Writes the limit of a loop and starts its counter. -/
theorem agrees_beginLoop (hslot : S.draft.nextSlot ≤ slot) (hlt : slot + 2 ≤ S.total)
    (h : S.draft.Agrees S.sharing S.total ⟨stored, busy, temps, vars⟩ locals) (limit k : Double) :
    S.draft.Agrees S.sharing S.total ⟨stored, busy, looping temps slot limit k, vars⟩
      ((locals.setIfInBounds slot (some (.double limit))).setIfInBounds (slot + 1) (some (.double k))) := by
  have hlimit : S.draft.Agrees S.sharing S.total ⟨stored, busy, holding temps slot limit, vars⟩
      (locals.setIfInBounds slot (some (.double limit))) :=
    agrees_temp hslot (by omega) h limit (by simp [holding]) fun n hn => by simp [holding, hn]
  exact agrees_temp (Nat.le_succ_of_le hslot) hlt hlimit k (by simp [looping, holding])
    fun n hn => by simp [looping, holding, hn]

/-- After a loop its temporaries do not matter. -/
theorem agrees_endLoop (htaken : ∀ n x, temps n = some x → n < slot) {limit k : Double}
    (h : S.draft.Agrees S.sharing S.total ⟨stored, busy, looping temps slot limit k, vars⟩ locals) :
    S.draft.Agrees S.sharing S.total ⟨stored, busy, temps, vars⟩ locals := by
  refine h.mono ?_
  rintro (name | id | n) content hallows
  · exact hallows
  · exact hallows
  · intro x hx
    have hn := htaken n x hx
    have hlooping : looping temps slot limit k n = temps n := by
      rw [looping, holding, holding, if_neg (by omega), if_neg (by omega)]
    exact hallows x (hlooping.trans hx)

/-- What was stored earlier is stored. -/
theorem agrees_forget {stored' : List SharedId} (hstored : ∀ id ∈ stored', id ∈ stored)
    (h : S.draft.Agrees S.sharing S.total ⟨stored, busy, temps, vars⟩ locals) :
    S.draft.Agrees S.sharing S.total ⟨stored', busy, temps, vars⟩ locals := by
  refine h.mono ?_
  rintro (name | id | n) content hallows
  · exact hallows
  · exact fun hmem => hallows (hstored id hmem)
  · exact hallows

end

/-- The turns of a loop, from its test to behind it. -/
theorem follows_turns {body : Code} {after : List Code} {d d' : Draft} {ops : List Op}
    (hbody : Lays (.code body after) d ops d') (ih : S.Realizes (.code body after) d ops d')
    (hadvances : S.draft.Advances d) (hfits : (Job.code body after).Fits S.draft)
    (hslots : d'.nextSlot ≤ S.total) {busy : SharedId → Prop} (hbusy : ∀ id, ¬busy id)
    {temps : Nat → Option Double} {slot : Nat} (htaken : ∀ n x, temps n = some x → n < slot)
    (hslot : S.draft.nextSlot ≤ slot) (hnext : slot + 2 ≤ d.nextSlot) {head : Label} {left pc : Nat}
    (hplaced : S.machine.Placed pc (loopTest slot head ++ (ops ++ loopEnd slot head)))
    {limit k : Double} {vars : Variables} {locals : Array (Option Value)} {stack : List Value} {w : σ}
    (hagrees : S.draft.Agrees S.sharing S.total ⟨d.stored, busy, looping temps slot limit k, vars⟩ locals) :
    S.machine.Follows S.host left pc ⟨.ofList stack, locals⟩ w
      (S.goal (pc + 5 + ops.length + 6)
        (Ends.anyOf (fun turns => Ends.iterate (body.ends S.host S.sharing) limit turns k stack) vars w)
        d.stored busy temps) := by
  have htotal : slot + 2 ≤ S.total := Nat.le_trans hnext (Nat.le_trans hbody.advances.nextSlot hslots)
  -- the invariant is that the slots agree with the draft, and the counter is in its own
  refine Machine.Follows.mono (Machine.Follows.loop S.sound hplaced
    (fun k locals vars =>
      S.draft.Agrees S.sharing S.total ⟨d.stored, busy, looping temps slot limit k, vars⟩ locals)
    ?_ ?_ ?_ ?_ hagrees) rfl (fun _ hr => hr) fun locals vars ⟨k, hk⟩ => agrees_endLoop htaken hk
  · intro k locals vars h
    exact h.temp hslot (by simp [looping, holding])
  · intro k locals vars h
    exact h.temp (Nat.le_succ_of_le hslot) (by simp [looping, holding])
  · intro k locals vars h
    exact agrees_temp (Nat.le_succ_of_le hslot) htotal h (k.add .one) (by simp [looping, holding])
      fun n hn => by simp [looping, holding, hn]
  · -- what the body has stored besides is forgotten at the end of a turn
    intro left k stack locals vars w h
    refine (ih ?_).mono rfl (fun _ hr => hr) fun _ _ => agrees_forget hbody.advances.stored
    exact {
      advances := hadvances
      fits := hfits
      placed := hplaced.rest.first
      slots := hslots
      before := fun id hid => absurd hid (hbusy id)
      taken := fun n x hx => Nat.lt_of_lt_of_le (lt_of_looping htaken hx) hnext
      agrees := h }

theorem realizes_loop {times body : Code} {after : List Code} {d d₁ d₂ d₃ : Draft}
    {ops₁ ops₂ ops₃ : List Op} (h₁ : Lays (.code times (body :: after)) d ops₁ d₁)
    (h₂ : Lays (.stores (d₁.toHoist [body] after) (body :: after)) d₁.beginLoop ops₂ d₂)
    (h₃ : Lays (.code body after) d₂ ops₃ d₃)
    (ih₁ : S.Realizes (.code times (body :: after)) d ops₁ d₁)
    (ih₂ : S.Realizes (.stores (d₁.toHoist [body] after) (body :: after)) d₁.beginLoop ops₂ d₂)
    (ih₃ : S.Realizes (.code body after) d₂ ops₃ d₃) :
    S.Realizes (.code (.loop times body) after) d
      (ops₁ ++ loopStart d₁.nextSlot ++ ops₂ ++ loopTest d₁.nextSlot d₁.nextLabel ++ ops₃ ++
        loopEnd d₁.nextSlot d₁.nextLabel)
      (d₃.restoreMarks d₂.stored) := by
  intro left pc busy temps vars locals stack w h
  obtain ⟨n, hfits⟩ := h.fits
  have hbusy (id : SharedId) : ¬busy id := fun hid => nomatch (h.before id hid).1
  have hadv₁ := h.advances.trans h₁.advances
  have hadv₂ := hadv₁.trans (d₁.advances_beginLoop.trans h₂.advances)
  have hslot₃ : d₃.nextSlot ≤ S.total := h.slots
  have hslot₂ : d₂.nextSlot ≤ S.total := Nat.le_trans h₃.advances.nextSlot hslot₃
  have hslot₁ : d₁.nextSlot + 2 ≤ d₂.nextSlot := h₂.advances.nextSlot
  have htaken : ∀ n x, temps n = some x → n < d₁.nextSlot := fun n x hx =>
    Nat.lt_of_lt_of_le (h.taken n x hx) h₁.advances.nextSlot
  have hplaced := h.placed
  simp only [List.append_assoc] at hplaced
  have hstart := hplaced.rest.first
  have htimes : S.Ready (.code times (body :: after)) d ops₁ d₁ pc busy temps vars locals := {
    h with
    fits := ⟨n, hfits.1⟩
    placed := hplaced.first
    slots := by omega
    before := fun id hid => absurd hid (hbusy id) }
  -- the number of times, the start, what goes ahead, and then the turns
  refine (ih₁ htimes).bind fun left₁ stack₁ locals₁ vars₁ w₁ _ _ hagrees₁ => ?_
  rcases stack₁ with _ | ⟨limit | b | object, stack₁⟩
  · exact .store_empty hstart.head rfl
  · refine .store hstart.head rfl (by rw [hagrees₁.size]; omega) fun left₂ _ => ?_
    refine .goOn hstart.tail.head rfl (by simp) (Op.act_const ..) rfl fun left₃ _ => ?_
    refine .store hstart.tail.tail.head rfl (by rw [Array.size_setIfInBounds, hagrees₁.size]; omega)
      fun left₄ _ => ?_
    have hbegun := agrees_beginLoop hadv₁.nextSlot (by omega) hagrees₁ limit .zero
    refine follows_ahead ih₂ {
        advances := hadv₁.trans d₁.advances_beginLoop
        fits := trivial
        placed := hplaced.rest.rest.first
        slots := hslot₂
        before := fun id hid => absurd hid (hbusy id)
        taken := fun n x hx => lt_of_looping htaken hx
        agrees := hbegun } ?_
    intro left₅ locals₂ vars₂ w₂ hagrees₂
    refine (follows_turns h₃ ih₃ hadv₂ ⟨n, hfits.2⟩ hslot₃ hbusy htaken hadv₁.nextSlot hslot₁
      hplaced.rest.rest.rest hagrees₂).mono ?_ (fun _ hr => hr) fun _ _ hk => hk
    simp [goal, loopStart, loopTest, loopEnd]
    omega
  · exact .store_mismatch hstart.head rfl rfl
  · exact .store_mismatch hstart.head (by cases object <;> rfl) rfl

theorem realizes_branch {condition yes no : Code} {after : List Code} {d d₁ d₂ d₃ d₄ : Draft}
    {ops₁ ops₂ ops₃ ops₄ : List Op} (h₁ : Lays (.code condition (yes :: no :: after)) d ops₁ d₁)
    (h₂ : Lays (.stores (d₁.toHoist [yes, no] after) (yes :: no :: after)) d₁ ops₂ d₂)
    (h₃ : Lays (.code yes after) d₂.beginBranch ops₃ d₃)
    (h₄ : Lays (.code no after) (d₃.restoreMarks d₂.stored) ops₄ d₄)
    (ih₁ : S.Realizes (.code condition (yes :: no :: after)) d ops₁ d₁)
    (ih₂ : S.Realizes (.stores (d₁.toHoist [yes, no] after) (yes :: no :: after)) d₁ ops₂ d₂)
    (ih₃ : S.Realizes (.code yes after) d₂.beginBranch ops₃ d₃)
    (ih₄ : S.Realizes (.code no after) (d₃.restoreMarks d₂.stored) ops₄ d₄) :
    S.Realizes (.code (.branch condition yes no) after) d
      (ops₁ ++ ops₂ ++ [Op.jumpUnless d₂.nextLabel] ++ ops₃ ++
        [Op.jump (d₂.nextLabel + 1), .label d₂.nextLabel] ++ ops₄ ++ [Op.label (d₂.nextLabel + 1)])
      (d₄.restoreMarks d₂.stored) := by
  intro left pc busy temps vars locals stack w h
  obtain ⟨n, hfits⟩ := h.fits
  have hbusy (id : SharedId) : ¬busy id := fun hid => nomatch (h.before id hid).1
  have hadv₁ := h.advances.trans h₁.advances
  have hadv₂ := hadv₁.trans h₂.advances
  have hadv₃ : d₂.Advances d₃ := d₂.advances_beginBranch.trans h₃.advances
  have hslot₄ : d₄.nextSlot ≤ S.total := h.slots
  have hslot₃ : d₃.nextSlot ≤ S.total := Nat.le_trans h₄.advances.nextSlot hslot₄
  have hslot₂ : d₂.nextSlot ≤ S.total := Nat.le_trans hadv₃.nextSlot hslot₃
  have htaken : ∀ n x, temps n = some x → n < d₂.nextSlot := fun n x hx =>
    Nat.lt_of_lt_of_le (h.taken n x hx) (h₁.advances.trans h₂.advances).nextSlot
  have hplaced := h.placed
  simp only [List.append_assoc] at hplaced
  have hcondition : S.Ready (.code condition (yes :: no :: after)) d ops₁ d₁ pc busy temps vars locals := {
    h with
    fits := ⟨n, hfits.1⟩
    placed := hplaced.first
    slots := Nat.le_trans h₂.advances.nextSlot hslot₂
    before := fun id hid => absurd hid (hbusy id) }
  -- the condition, what goes ahead, and then the test with its arms
  refine (ih₁ hcondition).bind fun left₁ stack₁ locals₁ vars₁ w₁ _ _ hagrees₁ => ?_
  refine follows_ahead ih₂ {
      advances := hadv₁
      fits := trivial
      placed := hplaced.rest.first
      slots := hslot₂
      before := fun id hid => absurd hid (hbusy id)
      taken := fun n x hx => Nat.lt_of_lt_of_le (h.taken n x hx) h₁.advances.nextSlot
      agrees := hagrees₁ } ?_
  intro left₂ locals₂ vars₂ w₂ hagrees₂
  refine (Machine.Follows.branch S.sound hplaced.rest.rest ?_ ?_).mono ?_ (fun _ hr => hr) fun _ _ hk => hk
  · intro left₃ stack₂
    refine (ih₃ ?_).mono rfl (fun _ hr => hr) fun _ _ => agrees_forget h₃.advances.stored
    exact {
      advances := hadv₂.trans d₂.advances_beginBranch
      fits := ⟨n, hfits.2.1⟩
      placed := hplaced.rest.rest.rest.first
      slots := hslot₃
      before := fun id hid => absurd hid (hbusy id)
      taken := htaken
      agrees := hagrees₂ }
  · -- the second arm starts from what was stored at the test, in slots behind those of the first
    intro left₃ stack₂
    refine (ih₄ ?_).mono rfl (fun _ hr => hr) fun _ _ => agrees_forget h₄.advances.stored
    exact {
      advances := hadv₂.trans hadv₃.restore
      fits := ⟨n, hfits.2.2⟩
      placed := hplaced.rest.rest.rest.rest.rest.first
      slots := hslot₄
      before := fun id hid => absurd hid (hbusy id)
      taken := fun n x hx => Nat.lt_of_lt_of_le (htaken n x hx) hadv₃.nextSlot
      agrees := hagrees₂ }
  · simp
    omega

/-! ## All of it -/

/-- Laid out code does on the machine what its tree says. -/
theorem realizes {job : Job} {d d' : Draft} {ops : List Op} (h : Lays job d ops d') :
    S.Realizes job d ops d' := by
  induction h with
  | op => exact realizes_op
  | done => exact realizes_done
  | andThen h₁ h₂ ih₁ ih₂ => exact realizes_andThen h₁ h₂ ih₁ ih₂
  | raw => exact realizes_raw
  | load hentry hslot hstored => exact realizes_load hentry hslot hstored
  | compute hentry hslot _ hvalue ih => exact realizes_compute hentry hslot hvalue ih
  | getVariable hslot => exact realizes_getVariable hslot
  | setVariable hvalue hslot ih => exact realizes_setVariable hvalue hslot ih
  | loop h₁ h₂ h₃ ih₁ ih₂ ih₃ => exact realizes_loop h₁ h₂ h₃ ih₁ ih₂ ih₃
  | branch h₁ h₂ h₃ h₄ ih₁ ih₂ ih₃ ih₄ => exact realizes_branch h₁ h₂ h₃ h₄ ih₁ ih₂ ih₃ ih₄
  | nil => exact realizes_nil
  | skip _ _ ih => exact realizes_skip ih
  | store hentry hslot _ hvalue hrest ih₁ ih₂ => exact realizes_store hentry hslot hvalue hrest ih₁ ih₂

end Scene

end FlowGraph
