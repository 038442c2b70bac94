import FlowGraph.Graph.Compile
import FlowGraph.Graph.Json
import FlowGraph.Proofs.Decoding
import FlowGraph.Proofs.Numbers

/-! # Graphs read back

    A graph that was saved as a document is read back from it, with all its
    gaps, kinds, tags, insets and wires.

    What is typed in is written without its kind: the shape of the text alone
    tells an integer from a number, and `null` stands for an input into which
    nothing is typed. So a `null` that was typed in is lost, and a number that
    is not finite too (`Literal.isKept`). Node numbers and port indices have
    to fit their words. That a finite number comes back is up to the reader and
    the printer of numbers (`Graph.KeepsNumbers`).

    Main statements: `Graph.ofDocument?_eq_iff`, and
    `Graph.ofDocument?_document_exact` for a reader that finds the nearest
    double.
-/

namespace FlowGraph

open Json (Readable)

namespace Json

section

variable {α : Type} {toJson : α → Json} {ofJson? : Json → Option α}

theorem Readable.ofOption {a : Option α} (h : ∀ b, a = some b → Readable (toJson b)) :
    Readable (ofOption toJson a) := by
  cases a with
  | none => exact .null
  | some a => exact h a rfl

theorem Readable.list {as : List α} (h : ∀ a ∈ as, Readable (toJson a)) : Readable (.array (as.map toJson)) := by
  apply Readable.array
  intro item hitem
  obtain ⟨a, ha, rfl⟩ := List.mem_map.mp hitem
  exact h a ha

/-- A value that is not `null` is not taken for an absent one. -/
theorem option?_of_ne_null {j : Json} (h : j ≠ .null) : j.option? ofJson? = (ofJson? j).map some := by
  cases j with
  | null => exact absurd rfl h
  | boolean | integer | real | string | array | object => rfl

/-- Something that may be absent is read back if it is when present. -/
theorem option?_ofOption_iff {kept : α → Bool} (hne : ∀ a, toJson a ≠ .null) {a : Option α}
    (h : ∀ b, a = some b → (ofJson? (toJson b) = some b ↔ kept b = true)) :
    (ofOption toJson a).option? ofJson? = some a ↔ a.all kept = true := by
  cases a with
  | none => simp [ofOption, option?]
  | some a =>
    rw [ofOption, option?_of_ne_null (hne a), Option.all_some, ← h a rfl]
    cases ofJson? (toJson a) <;> simp

theorem mapM_map_iff {kept : α → Bool} {as : List α} (h : ∀ a ∈ as, ofJson? (toJson a) = some a ↔ kept a = true) :
    (as.map toJson).mapM ofJson? = some as ↔ as.all kept = true := by
  induction as with
  | nil => simp
  | cons a as ih =>
    obtain ⟨ha, has⟩ := List.forall_mem_cons.mp h
    rw [List.map_cons, List.mapM_cons, List.all_cons, Bool.and_eq_true, ← ha, ← ih has]
    cases ofJson? (toJson a) <;> cases (as.map toJson).mapM ofJson? <;> simp

end

theorem Readable.nat (n : ℕ) : Readable (nat n) := .integer n

theorem nat?_nat_iff (bound n : ℕ) : (nat n).nat? bound = some n ↔ n < bound := by
  rw [nat?_nat]
  split <;> simp [*]

end Json

/-! ## Literals -/

namespace Literal

/-- The literal can be told from the text of an inset. -/
def isKept : Literal → Bool
  | .null => false
  | .integer n => -0x8000000000000000 ≤ n && n < 0x8000000000000000
  | .number x => x.isFinite
  | .boolean _ | .text _ => true

/-- If the literal is a finite number, it comes back from its text. -/
def KeepsNumber (l : Literal) (numbers : Json.Numbers) : Prop :=
  ∀ x, l = .number x → x.isFinite = true → numbers.Keeps x

variable {numbers : Json.Numbers}

theorem readable {l : Literal} (h : l.KeepsNumber numbers) : Readable (l.toJson numbers) := by
  cases l with
  | null => exact .null
  | boolean b => exact .boolean b
  | integer n => exact .integer n
  | number x =>
    rw [toJson, Json.ofDouble]
    split
    · next hfinite => exact .real (Json.numberText_real (h x rfl hfinite).proper)
    · exact .null
  | text s => exact .string s

/-- An inset is read back exactly if its literal is kept. -/
theorem option?_ofJson?_iff {l : Option Literal} (h : ∀ l', l = some l' → l'.KeepsNumber numbers) :
    (Json.ofOption (toJson · numbers) l).option? (ofJson? · numbers) = some l ↔ l.all isKept = true := by
  cases l with
  | none => simp [Json.ofOption, Json.option?]
  | some l =>
    rw [Json.ofOption, Option.all_some]
    cases l with
    | null => simp [toJson, Json.option?, isKept]
    | boolean | text => simp [toJson, Json.text, Json.option?, ofJson?, isKept]
    | integer n =>
      -- an integer beyond its word is read as a number
      simp only [toJson, Json.option?, ofJson?, isKept, Bool.and_eq_true, decide_eq_true_eq]
      split
      · next hrange => simp [hrange]
      · next hrange =>
        simp only [hrange, iff_false]
        cases (Json.integer n).double? numbers <;> simp
    | number x =>
      simp only [toJson, Json.ofDouble, isKept]
      split
      · next hfinite =>
        have hread := (h _ rfl x rfl hfinite).read
        simp [Json.option?, ofJson?, Json.double?, hread, hfinite]
      · next hfinite => simp [Json.option?, hfinite]

end Literal

/-! ## Nodes and wires -/

namespace Port

def inRange (p : Port) : Bool := p.node < UInt32.size && p.index < UInt64.size

theorem readable (p : Port) : Readable p.toJson := by
  apply Readable.record
  simp only [List.forall_mem_cons]
  exact ⟨.nat p.node, .nat p.index, by simp⟩

theorem ofJson?_toJson_iff (p : Port) : ofJson? p.toJson = some p ↔ p.inRange = true := by
  have hfields : p.toJson.fields? ["node", "index"] = some [some (.nat p.node), some (.nat p.index)] := rfl
  unfold ofJson?
  rw [hfields]
  simp only [Option.bind_eq_bind, Option.bind_some, Json.nat?_nat, inRange, Bool.and_eq_true, decide_eq_true_eq]
  by_cases hnode : p.node < UInt32.size <;> by_cases hindex : p.index < UInt64.size <;> simp [hnode, hindex]

end Port

namespace Wire

def inRange (w : Wire) : Bool := w.source.inRange && w.target.inRange

theorem readable (w : Wire) : Readable w.toJson := by
  apply Readable.record
  simp only [List.forall_mem_cons]
  exact ⟨w.source.readable, w.target.readable, by simp⟩

theorem ofJson?_toJson_iff (w : Wire) : ofJson? w.toJson = some w ↔ w.inRange = true := by
  have hfields : w.toJson.fields? ["from", "to"] = some [some w.source.toJson, some w.target.toJson] := rfl
  obtain ⟨source, target⟩ := w
  unfold ofJson?
  rw [hfields, inRange, Bool.and_eq_true, ← source.ofJson?_toJson_iff, ← target.ofJson?_toJson_iff]
  simp only [Option.bind_eq_bind, Option.bind_some]
  cases Port.ofJson? source.toJson <;> cases Port.ofJson? target.toJson <;> simp

end Wire

namespace Node

def isKept (n : Node) : Bool := n.insets.all (Option.all Literal.isKept)

def KeepsNumbers (n : Node) (numbers : Json.Numbers) : Prop := ∀ l, some l ∈ n.insets → l.KeepsNumber numbers

variable {n : Node} {numbers : Json.Numbers}

theorem KeepsNumbers.inset (h : n.KeepsNumbers numbers) {inset : Option Literal} (hinset : inset ∈ n.insets)
    (l : Literal) (hl : inset = some l) : l.KeepsNumber numbers :=
  h l (hl ▸ hinset)

theorem readable (h : n.KeepsNumbers numbers) : Readable (n.toJson numbers) := by
  apply Readable.record
  simp only [List.forall_mem_cons]
  refine ⟨.string n.kind, .list fun inset hinset => ?_, .ofOption fun tag _ => .string tag, by simp⟩
  exact .ofOption fun l hl => Literal.readable (h.inset hinset l hl)

theorem ofJson?_toJson_iff (h : n.KeepsNumbers numbers) :
    ofJson? (n.toJson numbers) numbers = some n ↔ n.isKept = true := by
  have hfields : (n.toJson numbers).fields? ["kind", "insets", "tag"] = some [some (.text n.kind),
      some (.array (n.insets.map (Json.ofOption (Literal.toJson · numbers)))), some (Json.ofOption Json.text n.tag)] := rfl
  have htag : (Json.ofOption Json.text n.tag).option? Json.text? = some n.tag := by
    cases n.tag <;> rfl
  have hinsets := Json.mapM_map_iff fun inset hinset => Literal.option?_ofJson?_iff (h.inset hinset)
  obtain ⟨kind, insets, tag⟩ := n
  unfold ofJson?
  rw [hfields, isKept, ← hinsets]
  simp only [Option.bind_eq_bind, Option.bind_some, Option.getD_some, htag, Json.list?, Json.text, Json.text?]
  cases (insets.map (Json.ofOption (Literal.toJson · numbers))).mapM (Json.option? (Literal.ofJson? · numbers)) <;> simp

end Node

/-! ## Graphs -/

namespace Graph

/-- All that the graph says can be read from its document. -/
def isKept (g : Graph) : Bool :=
  g.nodes.all (Option.all Node.isKept) && g.wires.all Wire.inRange && g.entry.all (· < UInt32.size)

/-- Every finite number that is typed in comes back from its text. -/
def KeepsNumbers (g : Graph) (numbers : Json.Numbers) : Prop := ∀ n, some n ∈ g.nodes → n.KeepsNumbers numbers

variable {g : Graph} {numbers : Json.Numbers}

theorem KeepsNumbers.node (h : g.KeepsNumbers numbers) {gap : Option Node} (hgap : gap ∈ g.nodes) (n : Node)
    (hn : gap = some n) : n.KeepsNumbers numbers :=
  h n (hn ▸ hgap)

theorem readable (h : g.KeepsNumbers numbers) : Readable (g.toJson numbers) := by
  apply Readable.record
  simp only [List.forall_mem_cons]
  refine ⟨.list fun gap hgap => ?_, .list fun w _ => w.readable, .ofOption fun id _ => .nat id, by simp⟩
  exact .ofOption fun n hn => Node.readable (h.node hgap n hn)

theorem ofJson?_toJson_iff (h : g.KeepsNumbers numbers) :
    ofJson? (g.toJson numbers) numbers = some g ↔ g.isKept = true := by
  have hfields : (g.toJson numbers).fields? ["nodes", "wires", "entry"] =
      some [some (.array (g.nodes.map (Json.ofOption (Node.toJson · numbers)))),
        some (.array (g.wires.map Wire.toJson)), some (Json.ofOption Json.nat g.entry)] := rfl
  have hnode (gap : Option Node) (hgap : gap ∈ g.nodes) :
      (Json.ofOption (Node.toJson · numbers) gap).option? (Node.ofJson? · numbers) = some gap ↔
        gap.all Node.isKept = true :=
    Json.option?_ofOption_iff (fun n => by simp [Node.toJson, Json.record])
      fun n hn => Node.ofJson?_toJson_iff (h.node hgap n hn)
  have hnodes := Json.mapM_map_iff hnode
  have hwires := Json.mapM_map_iff fun w (_ : w ∈ g.wires) => w.ofJson?_toJson_iff
  have hentry : (Json.ofOption Json.nat g.entry).option? (Json.nat? UInt32.size) = some g.entry ↔
      g.entry.all (· < UInt32.size) = true := by
    apply Json.option?_ofOption_iff
    · simp [Json.nat]
    · simp [Json.nat?_nat_iff]
  obtain ⟨nodes, wires, entry⟩ := g
  unfold ofJson?
  rw [hfields, isKept, Bool.and_eq_true, Bool.and_eq_true, ← hnodes, ← hwires, ← hentry]
  simp only [Option.bind_eq_bind, Option.bind_some, Option.getD_some, Json.list?]
  cases (nodes.map (Json.ofOption (Node.toJson · numbers))).mapM (Json.option? (Node.ofJson? · numbers)) <;>
    cases (wires.map Wire.toJson).mapM Wire.ofJson? <;>
      cases (Json.ofOption Json.nat entry).option? (Json.nat? UInt32.size) <;> simp [and_assoc]

/-- A document, compact or indented, is read as what it was written from. -/
theorem ofDocument?_eq_ofJson? (h : g.KeepsNumbers numbers) :
    ∀ document ∈ [g.document numbers, (g.toJson numbers).pretty],
      ofDocument? document numbers = ofJson? (g.toJson numbers) numbers := by
  have hcompact := Json.parse?_of_written (Json.written_compact (readable h)) Json.blank_nil
  have hpretty := Json.parse?_of_written (Json.written_pretty (readable h) 0) Json.blank_nil
  rw [List.append_nil] at hcompact hpretty
  have hcompact : Json.parse? (g.document numbers) = some (g.toJson numbers) := hcompact
  have hpretty : Json.parse? (g.toJson numbers).pretty = some (g.toJson numbers) := hpretty
  simp [ofDocument?, hcompact, hpretty]

/-- With numbers that come back from their texts, a graph is read back from
    its document, compact or indented, exactly as it was, and so compiles to
    the same, if all that it says is kept; otherwise it is not. -/
theorem ofDocument?_eq_iff (g : Graph) (numbers : Json.Numbers) (h : g.KeepsNumbers numbers) :
    (∀ document ∈ [g.document numbers, (g.toJson numbers).pretty], ofDocument? document numbers = some g ∧
      ∀ catalog, (ofDocument? document numbers).map (compile · catalog) = some (g.compile catalog)) ↔
      g.isKept = true := by
  have hread := ofDocument?_eq_ofJson? h
  constructor
  · intro hback
    obtain ⟨hgraph, -⟩ := hback (g.document numbers) List.mem_cons_self
    rwa [hread _ List.mem_cons_self, ofJson?_toJson_iff h] at hgraph
  · intro hkept document hdocument
    have hgraph : ofDocument? document numbers = some g := by
      rw [hread document hdocument, ofJson?_toJson_iff h]
      exact hkept
    refine ⟨hgraph, ?_⟩
    intro catalog
    rw [hgraph, Option.map_some]

/-- A graph with a gap, and with numbers that are easily taken for others. -/
def saved : Graph where
  nodes := [some ⟨"start", [], none⟩, none,
    some ⟨"add", [some (.number ⟨0x401c000000000000⟩), some (.integer 7), none], none⟩,
    some ⟨"subtract", [some (.number ⟨0x8000000000000000⟩), some (.number ⟨0x3fb999999999999a⟩)], some "a \"tag\""⟩]
  wires := [⟨⟨0, 0⟩, ⟨1, 9⟩⟩]
  entry := some 3

theorem keepsNumbers_saved : saved.KeepsNumbers .standard := by
  have hall : ∀ x ∈ [(⟨0x401c000000000000⟩ : Double), ⟨0x8000000000000000⟩, ⟨0x3fb999999999999a⟩],
      x.isFinite = true ∧ Json.Numbers.standard.read? (Json.Numbers.shortest x) = some x := by
    decide +kernel
  intro n hn l hl x hx _
  have hmem : x ∈ [(⟨0x401c000000000000⟩ : Double), ⟨0x8000000000000000⟩, ⟨0x3fb999999999999a⟩] := by
    subst hx
    simp only [saved, List.mem_cons, Option.some.injEq, List.not_mem_nil, or_false, reduceCtorEq, false_or] at hn
    rcases hn with rfl | rfl | rfl
    · cases hl
    · simp_all
    · simp_all
  obtain ⟨hfinite, hread⟩ := hall x hmem
  exact Json.Numbers.keeps_standard hfinite hread

theorem ofDocument?_eq_iff_saved : saved.KeepsNumbers .standard ∧ saved.isKept = true ∧
    ∀ document ∈ [saved.document .standard, (saved.toJson .standard).pretty],
      ofDocument? document .standard = some saved ∧
        ∀ catalog, (ofDocument? document .standard).map (compile · catalog) = some (saved.compile catalog) := by
  have hkept : saved.isKept = true := by decide +kernel
  exact ⟨keepsNumbers_saved, hkept, (ofDocument?_eq_iff saved .standard keepsNumbers_saved).mpr hkept⟩

/-- If the nearest double is read, every graph comes back that is kept. -/
theorem ofDocument?_document_exact (g : Graph) :
    ofDocument? (g.document .exact) .exact = some g ↔ g.isKept = true := by
  have h : g.KeepsNumbers .exact := fun _ _ _ _ _ _ hfinite => Json.Numbers.keeps_exact hfinite
  rw [ofDocument?_eq_ofJson? h _ List.mem_cons_self, ofJson?_toJson_iff h]

end Graph

end FlowGraph
