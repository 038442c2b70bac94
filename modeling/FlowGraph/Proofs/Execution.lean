import FlowGraph.Proofs.Simulation

/-! # Runs of finished programs

    A program starts with every variable unset and nothing stored, runs its
    code, and returns. So a run either reaches a limit or ends as its code
    tree says (`Draft.Complete.runs`).
-/

namespace FlowGraph

variable {σ : Type}

/-! ## The prologue -/

namespace Initial

theorem insert_perm (i : Initial) (list : List Initial) : (i.insert list).Perm (i :: list) := by
  induction list with
  | nil => exact .refl _
  | cons j rest ih =>
    rw [insert]
    split
    · exact .refl _
    · exact (ih.cons j).trans (.swap i j rest)

theorem sorted_perm (list : List Initial) : (sorted list).Perm list := by
  induction list with
  | nil => exact .refl _
  | cons i rest ih => exact (insert_perm i (sorted rest)).trans (ih.cons i)

/-- The operations that give a slot its first value. -/
def ops (i : Initial) : List Op := [.const i.value, .store i.slot i.ty]

end Initial

/-- Slots are given their first values one after the other. -/
theorem Machine.follows_initials {m : Machine} {host : Host σ} {total : Nat} {stack : List Value}
    (vars : Variables) {list : List Initial}
    (hlist : ∀ i ∈ list, (Value.ofConst i.value).conforms i.ty = true ∧ i.slot < total)
    (honce : (list.map Initial.slot).Nodup) {left pc : Nat} {locals : Array (Option Value)} {w : σ}
    (hplaced : m.Placed pc (list.flatMap Initial.ops)) (hsize : locals.size = total) :
    m.Follows host left pc ⟨.ofList stack, locals⟩ w
      ⟨pc + (list.flatMap Initial.ops).length, (pure stack : Ends σ _) vars w,
        fun locals' _ => locals'.size = total ∧
          (∀ i ∈ list, locals'[i.slot]? = some (some (Value.ofConst i.value))) ∧
          ∀ slot, slot ∉ list.map Initial.slot → locals'[slot]? = locals[slot]?⟩ := by
  induction list generalizing left pc locals w with
  | nil => exact .arrive vars rfl ⟨hsize, by simp, by simp⟩ rfl
  | cons i rest ih =>
    obtain ⟨hty, hlt⟩ := hlist i List.mem_cons_self
    -- no slot is named twice, so the rest of the prologue leaves this one as it is
    obtain ⟨hnew, honce⟩ := List.nodup_cons.mp honce
    have hcode := hplaced.first
    refine .goOn hcode.head rfl (by simp) (Op.act_const ..) rfl fun left₁ _ => ?_
    refine .store hcode.tail.head hty (hsize ▸ hlt) fun left₂ _ => ?_
    refine (ih (fun j hj => hlist j (List.mem_cons_of_mem _ hj)) honce hplaced.rest
      (by rw [Array.size_setIfInBounds, hsize])).mono ?_ (fun _ hr => hr) ?_
    · simp only [List.flatMap_cons, List.length_append, Nat.add_assoc]
    · rintro locals' vars' ⟨hsize', hrest, hother⟩
      refine ⟨hsize', ?_, ?_⟩
      · intro j hj
        rcases List.mem_cons.mp hj with rfl | hj
        · rw [hother _ hnew, Array.getElem?_setIfInBounds_self_of_lt (hsize ▸ hlt)]
        · exact hrest j hj
      · intro slot hslot
        obtain ⟨hne, hslot⟩ := not_or.mp (mt List.mem_cons.mpr hslot)
        rw [hother slot hslot, Array.getElem?_setIfInBounds_ne (Ne.symm hne)]

namespace Draft

theorem prologue_eq (d : Draft) : d.prologue = (Initial.sorted d.initials).flatMap Initial.ops := rfl

/-- Laying out code reserves no slots. -/
theorem Advances.initials_eq {d d' : Draft} (h : d.Advances d') : d'.initials = d.initials := by
  rw [initials, initials, h.variableSlots, h.shared]

theorem labels_prologue (d : Draft) :
    d.prologue.filterMap Op.defines? = [] ∧ d.prologue.filterMap Op.references? = [] := by
  constructor
  · refine List.filterMap_eq_nil_iff.mpr fun o ho => ?_
    obtain ⟨i, -, hi⟩ := List.mem_flatMap.mp ho
    rcases List.mem_pair.mp hi with rfl | rfl <;> rfl
  · refine List.filterMap_eq_nil_iff.mpr fun o ho => ?_
    obtain ⟨i, -, hi⟩ := List.mem_flatMap.mp ho
    rcases List.mem_pair.mp hi with rfl | rfl <;> rfl

/-- The first values are of the types of their slots. -/
theorem Prepared.initials {d : Draft} (h : d.Prepared) :
    ∀ i ∈ d.initials, (Value.ofConst i.value).conforms i.ty = true ∧ i.slot < d.nextSlot := by
  intro i hi
  refine ⟨?_, List.mem_range.mp (h.packed.mem_iff.mp (List.mem_map_of_mem hi))⟩
  rcases List.mem_append.mp hi with hi | hi
  · obtain ⟨v, -, rfl⟩ := List.mem_map.mp hi
    rfl
  · obtain ⟨entry, hentry, hslot⟩ := List.mem_filterMap.mp hi
    obtain ⟨slot, -, rfl⟩ := Option.map_eq_some_iff.mp hslot
    exact h.defaults entry hentry

/-- After the prologue every variable is unset. -/
theorem agrees_unset {d : Draft} {s : Sharing σ} {total : Nat} {locals : Array (Option Value)}
    (hsize : locals.size = total)
    (h : ∀ i ∈ d.initials, locals[i.slot]? = some (some (Value.ofConst i.value))) :
    d.Agrees s total ⟨[], fun _ => False, fun _ => none, Variables.unset⟩ locals := by
  refine ⟨hsize, ?_⟩
  rintro (name | id | n) slot hat
  · have hmem : ⟨slot, .null, .ref .object⟩ ∈ d.initials :=
      List.mem_append_left _ (List.mem_map.mpr ⟨_, List.mem_reverse.mpr (mem_of_at_var hat), rfl⟩)
    have hslot : locals[slot]? = some (some Value.null) := h _ hmem
    rw [hslot]
    rfl
  · exact fun hmem => nomatch hmem
  · exact fun x hx => nomatch hx

end Draft

/-! ## The whole program -/

/-- A run reaches a limit or ends as allowed, with the stack that it leaves. -/
def Outcome.Allowed (allowed : Except Fault (List Value × Variables) × σ → Prop) :
    Except Fault Outcome × σ → Prop
  | (.error fault, w) => fault.isLimit = true ∨ allowed (.error fault, w)
  | (.ok outcome, w) => ∃ vars, allowed (.ok (outcome.stack.reverse, vars), w)

/-- A run that is followed to a `return`. -/
theorem Machine.Follows.outcome {m : Machine} {host : Host σ} {left pc : Nat} {f : Frame} {w : σ}
    {goal : Machine.Goal σ} (h : m.Follows host left pc f w goal) (hret : m.code[goal.target]? = some .ret)
    (steps : Nat) : Outcome.Allowed goal.allowed (m.run host left ⟨pc, steps, f⟩ w) := by
  rcases h steps with ⟨fault, w', hrun, hfault⟩ |
    ⟨left', steps', stack, locals, vars, w', -, hrun, hallowed, -⟩
  · rw [hrun]
    exact hfault
  · rw [hrun]
    cases left' with
    | zero =>
      simp only [Machine.run, hret]
      exact .inl rfl
    | succ left' =>
      simp only [Machine.run, hret, Machine.step, Op.effect]
      exact ⟨vars, by simpa [Machine.State.outcome] using hallowed⟩

theorem Sharing.Valid.of_reserves {s : Sharing σ} {host : Host σ} {d d' : Draft} (h : s.Valid host d)
    (hd : d.Reserves d') : s.Valid host d' where
  computes id entry hentry := by
    obtain ⟨entry', hentry', hvalue, -⟩ := hd.getElem? hentry
    exact hvalue ▸ h.computes id entry' hentry'
  typed id entry hentry := by
    obtain ⟨entry', hentry', -, hty, -⟩ := hd.getElem? hentry
    exact hty ▸ h.typed id entry' hentry'
  settled := h.settled
  idle := h.idle
  ahead := h.ahead

/-- The labels of a finished program are its own. -/
theorem Lays.labelled_program {d d' : Draft} {body : Code} {ops : List Op} (h : Lays (.code body []) d ops d')
    (hd : d.Reserved) (hfits : (Job.code body []).Fits d) :
    Labelled 0 d'.nextLabel (d'.prologue ++ ops ++ [Op.ret]) := by
  obtain ⟨hdefines, hreferences⟩ := d'.labels_prologue
  have hprologue : Labelled 0 d.nextLabel d'.prologue := .of_none hdefines hreferences
  exact (hprologue.append (h.labelled hd hfits) (Nat.zero_le _) h.advances.nextLabel).append_none rfl rfl

/-- The prologue, and the code after it. -/
theorem Scene.follows_program {S : Scene σ} (hd : S.draft.Prepared) {body : Code} {d' : Draft}
    {ops : List Op} (hlays : Lays (.code body []) S.draft ops d')
    (hfits : (Job.code body []).Fits S.draft) (htotal : S.total = d'.nextSlot)
    (hplaced : S.machine.Placed 0 (d'.prologue ++ ops ++ [Op.ret])) (left : Nat) (w : σ) :
    S.machine.Follows S.host left 0 ⟨.ofList [], Array.replicate S.total none⟩ w
      (S.goal (d'.prologue.length + ops.length) (body.ends S.host S.sharing [] Variables.unset w)
        d'.stored (fun _ => False) fun _ => none) := by
  -- laying out code reserves no slots, so the prologue is that of the draft before it
  have hinitials : (Initial.sorted d'.initials).Perm S.draft.initials := by
    rw [hlays.advances.initials_eq]
    exact Initial.sorted_perm _
  have hlist : ∀ i ∈ Initial.sorted d'.initials,
      (Value.ofConst i.value).conforms i.ty = true ∧ i.slot < S.total := by
    intro i hi
    obtain ⟨hty, hlt⟩ := hd.initials i (hinitials.mem_iff.mp hi)
    exact ⟨hty, htotal ▸ Nat.lt_of_lt_of_le hlt hlays.advances.nextSlot⟩
  have honce : ((Initial.sorted d'.initials).map Initial.slot).Nodup := by
    rw [(hinitials.map Initial.slot).nodup_iff, hd.packed.nodup_iff]
    exact List.nodup_range
  -- the prologue cannot fail, and the code finds every slot with its first value
  refine (Machine.follows_initials Variables.unset hlist honce hplaced.first.first
    Array.size_replicate).andThen (fun _ _ herror => nomatch herror) ?_
  rintro left' stack' locals' vars' w' - heq ⟨hsize, hvalues, -⟩
  cases heq
  rw [← Draft.prologue_eq]
  refine (S.realizes hlays ?_).mono ?_ (fun _ hr => hr) fun _ _ hk => hk
  · exact {
      advances := .refl _
      fits := hfits
      placed := hplaced.first.rest
      slots := Nat.le_of_eq htotal.symm
      before := fun _ h => h.elim
      taken := fun _ _ h => nomatch h
      agrees := hd.stored ▸ Draft.agrees_unset hsize fun i hi => hvalues i (hinitials.mem_iff.mpr hi) }
  · simp [goal, Draft.prologue_eq]

/-- A finished program does what its code tree says. -/
theorem Draft.Complete.runs {d : Draft} {body : Code} (h : d.Complete body) {host : Host σ}
    {s : Sharing σ} (hs : s.Valid host d) (limits : Limits) (w : σ) :
    Outcome.Allowed (body.ends host s [] Variables.unset w)
      ((d.finish body).program.run limits host w) := by
  obtain ⟨hprepared, hfits, hnames⟩ := h.prepared
  have hlays := lays_emit hprepared.toReserved hfits hnames
  have hlabelled := hlays.labelled_program hprepared.toReserved ⟨_, hfits⟩
  change Labelled _ _ (d.finish body).program.ops at hlabelled
  rcases Nat.lt_or_ge limits.locals (d.finish body).program.locals with hlt | hle
  · -- too many slots are refused, and that is a limit
    rw [Program.run, Machine.load, if_pos hlt]
    exact .inl rfl
  · obtain ⟨m, hload, -, hprogram, hcode, hpositions⟩ := Program.exists_load hlabelled hle
    have hget (i : Nat) : m.code[i]? = (d.finish body).program.ops[i]? := by simp [hcode]
    let S : Scene σ := {
      machine := m
      host := host
      sharing := s
      draft := d.prepare body
      total := (d.finish body).program.locals
      sound := fun i l hl => hpositions i l (hget i ▸ hl)
      reserved := hprepared.toReserved
      apart := hprepared.packed.apart
      valid := hs.of_reserves h.reserves }
    have hplaced : m.Placed 0 (d.finish body).program.ops := fun i o ho => by
      rw [Nat.zero_add, hget, ho]
    have hfollows := Scene.follows_program (S := S) hprepared hlays ⟨_, hfits⟩ rfl hplaced limits.steps w
    -- the return stands behind the prologue and the code
    have hret : m.code[((d.prepare body).emit body (d.prepare body).nextSlot).draft.prologue.length +
        ((d.prepare body).emit body (d.prepare body).nextSlot).ops.length]? = some .ret := by
      rw [hget]
      simp [Draft.finish]
    simp only [Program.run, hload, Machine.start, hprogram]
    exact hfollows.outcome hret 0

/-! ## Accounts and runs -/

namespace Graph

namespace Account

variable (a : Account σ) (g : Graph) (d : Draft)

/-- Shared values are what the account allows for the outputs that they were
    shared for. -/
def sharing (ahead : Ends σ Unit) : Sharing σ where
  value id := fun vars w r => ∃ p decl, (p, id) ∈ d.memo ∧ g.output? p = some decl ∧
    a.typed (.output p) decl vars w r
  ahead := ahead

/-- The account allows to compute a shared output once: a value that it gave
    may be given again, and may be computed ahead. -/
structure Settles (ahead : Ends σ Unit) : Prop where
  again {p id decl} : (p, id) ∈ d.memo → g.output? p = some decl → ∀ {vars w v vars' w'},
    a.typed (.output p) decl vars w (.ok (v, vars'), w') →
    vars' = vars ∧ ∀ vars w, a.typed (.output p) decl vars w (.ok (v, vars), w)
  idle : Ends.Within (pure ()) ahead
  early {p id decl} : (p, id) ∈ d.memo → g.output? p = some decl →
    Ends.Within (do let _ ← a.typed (.output p) decl; ahead) ahead

end Account

variable {a : Account σ} {g : Graph} {host : Host σ} {d : Draft} {ahead : Ends σ Unit}

theorem Account.shares_sharing (hd : d.Fresh) : a.Shares g (a.sharing g d ahead) d := by
  rintro p id decl hmem hdecl vars w r ⟨p', decl', hmem', hdecl', hr⟩
  obtain rfl := hd.port_unique hmem hmem'
  obtain rfl := Option.some.inj (hdecl.symm.trans hdecl')
  exact hr

theorem Account.Settles.valid (h : a.Settles g d ahead) (hd : d.Fresh) (hmatches : g.Matches d)
    (hknown : a.Known g host (a.sharing g d ahead) d) : (a.sharing g d ahead).Valid host d where
  computes id entry hentry := by
    obtain ⟨p, hp⟩ := hd.exists_port (List.getElem?_eq_some_iff.mp hentry).1
    obtain ⟨decl, hdecl, -⟩ := hmatches p id entry hp hentry
    exact (hknown p id entry decl hp hentry hdecl).within fun _ _ _ hr => ⟨p, decl, hp, hdecl, hr⟩
  typed id entry hentry := by
    rintro vars w v vars' w' ⟨p, decl, hp, hdecl, hv⟩
    obtain ⟨decl', hdecl', -, hty, -⟩ := hmatches p id entry hp hentry
    rw [hty, ← Option.some.inj (hdecl.symm.trans hdecl')]
    exact hv.2 v vars' rfl
  settled id vars w v vars' w' := by
    rintro ⟨p, decl, hmem, hdecl, hv⟩
    obtain ⟨rfl, hagain⟩ := h.again hmem hdecl hv
    exact ⟨rfl, fun vars w => ⟨p, decl, hmem, hdecl, hagain vars w⟩⟩
  idle := h.idle
  ahead id := by
    rintro vars w r (⟨fault, w', ⟨p, decl, hmem, hdecl, hv⟩, rfl⟩ |
      ⟨v, vars', w', ⟨p, decl, hmem, hdecl, hv⟩, hr⟩)
    · exact h.early hmem hdecl _ _ _ (Ends.bind_error hv)
    · exact h.early hmem hdecl _ _ _ (Ends.bind_ok hv hr)

/-- How a run of the program of a graph may end: it reaches a limit, or ends
    as allowed with nothing on the stack. -/
def Keeps (allowed : Except Fault (Unit × Variables) × σ → Prop) : Except Fault Outcome × σ → Prop
  | (.error fault, w) => fault.isLimit = true ∨ allowed (.error fault, w)
  | (.ok outcome, w) => outcome.stack = [] ∧ ∃ vars, allowed (.ok ((), vars), w)

/-- The program of a graph keeps to every account that admits the graph and
    lets shared outputs be computed once. -/
theorem Walked.keeps {body : Code} {log : List Event} (h : g.Walked body d log)
    (ha : a.Admits g host ahead) (hs : a.Settles g d ahead) (limits : Limits) (w : σ) :
    ∃ id, g.entry = some id ∧
      Keeps (a.ports g (g.signalOutputs id) Variables.unset w)
        ((d.finish body).program.run limits host w) := by
  obtain ⟨hfresh, hmatches⟩ := h.matches
  obtain ⟨hknown, id, hentry, hperforms⟩ :=
    h.performs (s := a.sharing g d ahead) ha (Account.shares_sharing hfresh)
  have hrun := h.complete.runs (hs.valid hfresh hmatches hknown) limits w
  refine ⟨id, hentry, ?_⟩
  rcases hresult : (d.finish body).program.run limits host w with ⟨fault | outcome, w₁⟩
  · rw [hresult] at hrun
    refine hrun.imp_right fun hends => ?_
    rcases hperforms [] _ _ _ hends with ⟨_, _, hports, heq⟩ | ⟨_, _, _, -, heq⟩ <;> cases heq
    exact hports
  · rw [hresult] at hrun
    obtain ⟨vars, hends⟩ := hrun
    rcases hperforms [] _ _ _ hends with ⟨_, _, -, heq⟩ | ⟨_, vars', w₂, hports, heq⟩
    · cases heq
    · -- signals leave the stack as it was, so it is empty at the end
      obtain ⟨⟨hstack, rfl⟩, rfl⟩ : (outcome.stack.reverse = [] ∧ vars = vars') ∧ w₁ = w₂ := by
        simpa [Ends.pure_iff] using heq
      exact ⟨List.reverse_eq_nil_iff.mp hstack, vars, hports⟩

end Graph

end FlowGraph
