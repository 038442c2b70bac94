import Mathlib
import FlowGraph.Proofs.Meaning
import FlowGraph.Proofs.Recording

/-! # Programs of graphs that share nothing

    If no value output of a graph drives more than one wire, nothing is
    shared and nothing is computed ahead. The program then does exactly what
    the graph means, whatever the host does: the same operations of the host
    in the same order, and the same result (`Graph.run_eq_interpret`).
-/

namespace FlowGraph

variable {σ : Type}

namespace Graph

theorem length_leaving (g : Graph) (p : Port) :
    (g.leaving p).length = (g.wires.map Wire.source).count p := by
  have hwires : g.numberedWires.map (fun w => w.2.source) = g.wires.map Wire.source := by
    have hsource : g.numberedWires.map (fun w => w.2.source) =
        (g.wires.zipIdx.map Prod.fst).map Wire.source := by
      simp only [numberedWires, List.map_map]
      rfl
    rw [hsource, List.zipIdx_map_fst]
  rw [leaving, ← List.countP_eq_length_filter, ← hwires, List.count, List.countP_map]
  rfl

/-- A walk shares only outputs with several wires. -/
theorem kept_unshared {g : Graph} (hsingle : ∀ p, g.isValueOutput p = true → (g.leaving p).length ≤ 1) :
    Kept g fun d => d.memo = [] where
  problems _ h := h
  share {_ p decl _ _ _ _} hpulls hmany hdecl _ := by
    have hvalue : g.isValueOutput p = true := by
      simp [isValueOutput, hdecl, hpulls.isSignal_eq_false hdecl]
    exact absurd (hsingle p hvalue) (Nat.not_le.mpr hmany)

/-- An act has one end, so it is what it is up to equality. -/
theorem respects_eq (g : Graph) (host : Host σ) : g.Respects host Eq host := by
  have hself {α : Type} (x : Act σ α) : x.ends.Within (x.upTo Eq) := by
    rintro vars w r hr _ rfl
    exact ⟨r.2, hr, rfl⟩
  exact ⟨fun _ => hself _, fun _ => hself _, fun _ => hself _⟩

/-- Where nothing is shared, there is nothing to settle. -/
theorem settles_eq {g : Graph} {host : Host σ} {draft : Draft} (h : draft.memo = []) :
    (g.meaning host Eq).Settles g draft ((pure () : Act σ Unit).upTo Eq) where
  again hmem := nomatch h ▸ hmem
  idle := Act.pure_within_upTo Eq ()
  early hmem := nomatch h ▸ hmem

/-- The program of a graph in which no value output drives more than one
    wire: unless a limit is reached, it asks the host for the same operations
    in the same order as the graph does, and ends in the same way. -/
theorem run_eq_interpret {g : Graph} {c : Compilation} (hc : g.compile .standard = .ok c)
    (hsingle : ∀ p, g.isValueOutput p = true → (g.leaving p).length ≤ 1) (host : Host σ)
    (limits : Limits) (w : σ)
    (hlimit : ∀ fault, (c.program.run limits host w).1 = .error fault → fault.isLimit = false) :
    ∃ ops, c.program.run limits host.recorded (w, []) =
        ((c.program.run limits host w).1, (c.program.run limits host w).2, ops) ∧
      g.interpret host.recorded (w, []) =
        some ((c.program.run limits host w).1.map fun _ => (), (c.program.run limits host w).2, ops) := by
  obtain ⟨body, draft, log, hwalked, rfl⟩ := exists_walk_of_compile hc
  have hmemo : draft.memo = [] := (kept_unshared hsingle).walked hwalked rfl
  obtain ⟨ops, hrecorded⟩ := (draft.finish body).program.run_recorded limits host w
  obtain ⟨_, hinterpret, rfl⟩ := hwalked.exists_interpret (respects_eq g host.recorded)
    (settles_eq hmemo) limits (rfl : (w, ([] : List HostOp)) = (w, [])) (by rw [hrecorded]; exact hlimit)
  rw [hrecorded] at hinterpret
  exact ⟨ops, hrecorded, hinterpret⟩

/-- A branch on an answer of the host, with a command in one of its arms. -/
def asking : Graph where
  nodes := [some ⟨"start", [], none⟩, some ⟨"if", [], none⟩, some ⟨"query:condition", [], some "ready"⟩,
    some ⟨"emit:text", [], some "print"⟩, some ⟨"query:text", [], some "name"⟩]
  wires := [⟨⟨0, 0⟩, ⟨1, 0⟩⟩, ⟨⟨2, 0⟩, ⟨1, 1⟩⟩, ⟨⟨1, 1⟩, ⟨3, 0⟩⟩, ⟨⟨4, 0⟩, ⟨3, 1⟩⟩]
  entry := some 0

def askingProgram : Program where
  ops := [.invoke "ready" 0 .boolean, .jumpUnless 0, .jump 1, .label 0, .invoke "name" 0 (.ref .text),
    .invoke "print" 1 .void, .label 1, .ret]
  locals := 0

theorem run_eq_interpret_asking :
    asking.compile .standard = .ok ⟨askingProgram, []⟩ ∧
      ∃ ops, askingProgram.run {} Script.host.recorded (.empty, []) =
          ((askingProgram.run {} Script.host .empty).1, (askingProgram.run {} Script.host .empty).2, ops) ∧
        asking.interpret Script.host.recorded (.empty, []) =
          some ((askingProgram.run {} Script.host .empty).1.map fun _ => (),
            (askingProgram.run {} Script.host .empty).2, ops) := by
  have hc : asking.compile .standard = .ok ⟨askingProgram, []⟩ := by rfl
  have hsources : (asking.wires.map Wire.source).Nodup := by decide
  refine ⟨hc, run_eq_interpret hc ?_ Script.host {} .empty ?_⟩
  · intro p _
    rw [length_leaving]
    exact List.nodup_iff_count.mp hsources p
  · have hrun : (askingProgram.run {} Script.host .empty).1 = .ok ⟨[], 7⟩ := by cbv
    intro fault hfault
    rw [hrun] at hfault
    cases hfault

end Graph

end FlowGraph
