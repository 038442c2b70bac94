import FlowGraph.Program.Format
import FlowGraph.Proofs.JsonText

/-! # Programs read back

    A program that was written as a JSON document is read back from it,
    whatever its texts, names and constants are. The numbers of slots, labels,
    locals and arguments have to fit the words that the format has for them
    (`Program.inRange`); a document with larger ones is refused.

    Main statement: `Program.decode_encode_iff`.
-/

namespace FlowGraph

open Json (Readable)

namespace Json

theorem nat?_nat (bound n : Nat) : (nat n).nat? bound = if n < bound then some n else none := by
  simp [nat, nat?]

theorem Readable.record {members : List (String × Json)} (h : ∀ m ∈ members, Readable m.2) :
    Readable (record members) := by
  apply Readable.object
  · intro m hm
    obtain ⟨m, -, rfl⟩ := List.mem_map.mp hm
    rfl
  · intro m hm
    obtain ⟨m, hmem, rfl⟩ := List.mem_map.mp hm
    exact h m hmem

theorem Readable.tagged (name : String) {payload : Json} (h : Readable payload) : Readable (tagged name payload) := by
  apply Readable.record
  simpa using h

end Json

/-! ## Types and constants -/

theorem HeapClass.ofJson?_toJson (c : HeapClass) : HeapClass.ofJson? c.toJson = some c := by
  cases c <;> rfl

theorem HeapClass.readable (c : HeapClass) : Readable c.toJson := .string c.name

theorem Ty.ofJson?_toJson (ty : Ty) : Ty.ofJson? ty.toJson = some ty := by
  cases ty with
  | ref c =>
    show (HeapClass.ofJson? c.toJson).map Ty.ref = some (.ref c)
    rw [c.ofJson?_toJson, Option.map_some]
  | void | double | boolean => rfl

theorem Ty.readable (ty : Ty) : Readable ty.toJson := by
  cases ty with
  | ref c => exact .tagged "Ref" c.readable
  | void | double | boolean => exact .string _

/-- A number is kept bit by bit. -/
theorem Const.ofJson?_toJson (c : Const) : Const.ofJson? c.toJson = some c := by
  cases c with
  | number x =>
    have hbits : (Json.nat x.bits.toNat).nat? UInt64.size = some x.bits.toNat := by
      rw [Json.nat?_nat, if_pos x.bits.toNat_lt_size]
    show ((Json.nat x.bits.toNat).nat? UInt64.size).map _ = _
    rw [hbits, Option.map_some, UInt64.ofNat_toNat]
  | null | boolean | text => rfl

theorem Const.readable (c : Const) : Readable c.toJson := by
  cases c with
  | null => exact .string _
  | number x => exact .tagged "Number" (.integer _)
  | boolean b => exact .tagged "Boolean" (.boolean b)
  | text s => exact .tagged "Text" (.string s)

/-! ## Operations -/

theorem Arith.ofJson?_toJson (f : Arith) : Arith.ofJson? f.toJson = some f := by
  cases f <;> rfl

theorem Comparison.ofJson?_toJson (f : Comparison) : Comparison.ofJson? f.toJson = some f := by
  cases f <;> rfl

namespace Op

/-- The numbers of an operation fit their words. -/
def inRange : Op → Bool
  | .load slot _ | .store slot _ => slot < UInt32.size
  | .label l | .jump l | .jumpIf l | .jumpUnless l => l < UInt32.size
  | .invoke _ argc _ => argc < UInt8.size
  | _ => true

theorem slotOfJson?_record (slot : Nat) (ty : Ty) :
    slotOfJson? (.record [("slot", .nat slot), ("ty", ty.toJson)]) =
      if slot < UInt32.size then some (slot, ty) else none := by
  have hfields : (Json.record [("slot", .nat slot), ("ty", ty.toJson)]).fields? ["slot", "ty"] =
      some [some (.nat slot), some ty.toJson] := rfl
  unfold slotOfJson?
  rw [hfields]
  simp only [Option.bind_eq_bind, Option.bind_some, Json.nat?_nat, ty.ofJson?_toJson]
  by_cases hslot : slot < UInt32.size <;> simp [hslot]

/-- An operation is read back unless a number is too large. -/
theorem ofJson?_toJson (op : Op) : ofJson? op.toJson = if op.inRange then some op else none := by
  -- slots, labels and counts of arguments are the only numbers that can be too large
  cases op with
  | const c =>
    show (Const.ofJson? c.toJson).map Op.const = some (.const c)
    rw [c.ofJson?_toJson, Option.map_some]
  | load slot ty | store slot ty =>
    show (slotOfJson? (.record [("slot", .nat slot), ("ty", ty.toJson)])).map _ = _
    rw [slotOfJson?_record]
    by_cases hslot : slot < UInt32.size <;> simp [inRange, hslot]
  | instanceOf c | checkCast c | box c | unbox c =>
    show (HeapClass.ofJson? c.toJson).map _ = some _
    rw [c.ofJson?_toJson, Option.map_some]
  | arith f =>
    show (Arith.ofJson? f.toJson).map Op.arith = some (.arith f)
    rw [f.ofJson?_toJson, Option.map_some]
  | compare f =>
    show (Comparison.ofJson? f.toJson).map Op.compare = some (.compare f)
    rw [f.ofJson?_toJson, Option.map_some]
  | label l | jump l | jumpIf l | jumpUnless l =>
    show ((Json.nat l).nat? UInt32.size).map _ = _
    rw [Json.nat?_nat]
    by_cases hl : l < UInt32.size <;> simp [inRange, hl]
  | getStatic owner name ty =>
    show (Ty.ofJson? ty.toJson).bind _ = some _
    rw [ty.ofJson?_toJson, Option.bind_some]
    rfl
  | invoke target argc returns =>
    show ((Json.nat argc).nat? UInt8.size).bind _ = _
    rw [Json.nat?_nat]
    by_cases hargc : argc < UInt8.size <;> simp [inRange, hargc, returns.ofJson?_toJson]
  | pop | dup | not | ret => rfl

theorem readable (op : Op) : Readable op.toJson := by
  cases op with
  | const c => exact .tagged _ c.readable
  | instanceOf c | checkCast c | box c | unbox c => exact .tagged _ c.readable
  | arith f => exact .tagged _ (by cases f <;> exact .string _)
  | compare f => exact .tagged _ (by cases f <;> exact .string _)
  | label l | jump l | jumpIf l | jumpUnless l => exact .tagged _ (.integer l)
  | pop | dup | not | ret => exact .string _
  | load slot ty | store slot ty =>
    apply Readable.tagged
    apply Readable.record
    simp only [List.forall_mem_cons]
    exact ⟨.integer slot, ty.readable, by simp⟩
  | getStatic owner name ty =>
    apply Readable.tagged
    apply Readable.record
    simp only [List.forall_mem_cons]
    exact ⟨.string owner, .string name, ty.readable, by simp⟩
  | invoke target argc returns =>
    apply Readable.tagged
    apply Readable.record
    simp only [List.forall_mem_cons]
    exact ⟨.string target, .integer argc, returns.readable, by simp⟩

theorem mapM_ofJson? (ops : List Op) :
    (ops.map toJson).mapM ofJson? = if ops.all inRange then some ops else none := by
  induction ops with
  | nil => rfl
  | cons op ops ih =>
    rw [List.map_cons, List.mapM_cons, op.ofJson?_toJson, ih]
    by_cases hop : op.inRange = true <;> by_cases hops : ops.all inRange = true <;> simp [hop, hops]

end Op

/-! ## Programs -/

namespace Program

/-- All numbers fit their words. -/
def inRange (p : Program) : Bool := p.ops.all Op.inRange && p.locals < UInt32.size

theorem ofJson?_toJson (p : Program) : ofJson? p.toJson = if p.inRange then some p else none := by
  have hfields : p.toJson.fields? ["ops", "max_locals"] =
      some [some (.array (p.ops.map Op.toJson)), some (.nat p.locals)] := rfl
  unfold ofJson?
  rw [hfields]
  simp only [Option.bind_eq_bind, Option.bind_some, Json.list?, Op.mapM_ofJson?, Json.nat?_nat, inRange]
  by_cases hops : p.ops.all Op.inRange = true <;> by_cases hlocals : p.locals < UInt32.size <;> simp [hops, hlocals]

theorem readable (p : Program) : Readable p.toJson := by
  apply Readable.record
  simp only [List.forall_mem_cons]
  refine ⟨.array ?_, .integer p.locals, by simp⟩
  intro item hitem
  obtain ⟨op, -, rfl⟩ := List.mem_map.mp hitem
  exact op.readable

theorem parse?_jsonText (p : Program) : Json.parse? p.jsonText = some p.toJson := by
  have htext : p.jsonText = String.ofList (Json.writePretty 0 p.toJson ++ ['\n']) := by
    rw [String.ofList_append]
    rfl
  rw [htext]
  exact Json.parse?_of_written (Json.written_pretty p.readable 0) (by simp [Json.Blank, Json.isBlank])

/-- The bytes of the JSON document of a program decode to the program, if its
    numbers fit their words, and not otherwise. -/
theorem decode_encode_iff (p : Program) :
    (String.fromUTF8? (p.encode .json)).bind ofJsonText? = some p ↔ p.inRange = true := by
  have hbytes : String.fromUTF8? (p.encode .json) = some p.jsonText := dif_pos p.jsonText.isValidUTF8
  rw [hbytes, Option.bind_some]
  unfold ofJsonText?
  rw [p.parse?_jsonText]
  show ofJson? p.toJson = some p ↔ _
  rw [p.ofJson?_toJson]
  by_cases h : p.inRange = true <;> simp [h]

end Program

end FlowGraph
