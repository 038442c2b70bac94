import FlowGraph.Proofs.Decoding
import Mathlib

/-! # Programs read from bytes

    The bytes of a program say where they end. A reader takes the program from
    the front of them and leaves what comes behind (`Program.reads`), so no two
    programs have the same bytes, and those of one are never the beginning of
    those of another.

    * A reader takes something from the front of a list of bytes, or fails.
      There is one for each of the forms: numbers with the lowest byte first,
      alternatives by their number in four bytes, lists and texts by their
      length in eight.
    * `Reads` says that a reader takes just these bytes, whatever follows. It
      has a rule for each way to put readers together.

    Main statement: `Program.encode_binary_prefix_iff`.
-/

namespace FlowGraph

namespace Binary

variable {α β : Type}

/-! ## Readers -/

/-- Takes something from the front of the bytes, if it is there. -/
abbrev Reader := StateT (List UInt8) Option

def readByte : Reader UInt8
  | [] => none
  | b :: rest => some (b, rest)

/-- A number in so many bytes, the lowest first. -/
def readNumber : Nat → Reader Nat
  | 0 => return 0
  | count + 1 => do
    let low ← readByte
    (low.toNat + 256 * ·) <$> readNumber count

def readFlag : Reader Bool := do
  match ← readByte with
  | 0 => return false
  | 1 => return true
  | _ => failure

/-- So many items, one behind the other. -/
def readTimes (item : Reader α) : Nat → Reader (List α)
  | 0 => return []
  | count + 1 => do
    let first ← item
    (first :: ·) <$> readTimes item count

def readList (item : Reader α) : Reader (List α) := do
  let count ← readNumber 8
  readTimes item count

def readText : Reader String := do
  let bytes ← readList readByte
  StateT.lift (String.fromUTF8? ⟨bytes.toArray⟩)

/-- One of the alternatives, by its number. -/
def oneOf (alternatives : List (Reader α)) : Reader α := do
  let number ← readNumber 4
  alternatives[number]?.getD failure

/-! ## Texts as lists of bytes -/

/-- The front of a byte array, once listed, is completed by the back. -/
theorem toList_loop {bytes : ByteArray} (front back : List UInt8) (h : bytes.data.toList = front ++ back) :
    ByteArray.toList.loop bytes front.length front.reverse = front ++ back := by
  have hsize : bytes.size = (front ++ back).length := congrArg List.length h
  rw [List.length_append] at hsize
  rw [ByteArray.toList.loop]
  -- on the bytes that are still to be listed
  induction back generalizing front with
  | nil =>
    rw [List.length_nil] at hsize
    rw [if_neg (by omega), List.reverse_reverse, List.append_nil]
  | cons b back ih =>
    rw [List.length_cons] at hsize
    have hnext : bytes.get! front.length = b := by
      show bytes.data[front.length]! = b
      rw [← Array.getElem!_toList, h]
      simp
    have hback := ih (front ++ [b]) (by simp [h]) (by simp [hsize]; omega)
    rw [if_pos (by omega), hnext, ByteArray.toList.loop]
    simpa using hback

theorem toList_eq (bytes : ByteArray) : bytes.toList = bytes.data.toList :=
  toList_loop [] _ rfl

/-- A text is written like the list of its bytes. -/
theorem utf8_eq_sequence (s : String) : utf8 s = sequence (fun b => [b]) s.toUTF8.data.toList := by
  have hlength : s.toUTF8.data.toList.length = s.utf8ByteSize := rfl
  rw [utf8, sequence, toList_eq, hlength]
  simp

/-! ## What readers take -/

/-- The reader takes just these bytes, and understands them so. -/
def Reads (reader : Reader α) (bytes : List UInt8) (a : α) : Prop :=
  ∀ rest, reader.run (bytes ++ rest) = some (a, rest)

namespace Reads

variable {reader : Reader α} {bytes bytes' : List UInt8} {a : α} {b : β}

theorem pure (a : α) : Reads (Pure.pure a) [] a := by
  intro rest
  rfl

theorem bind {next : α → Reader β} (h : Reads reader bytes a) (h' : Reads (next a) bytes' b) :
    Reads (reader >>= next) (bytes ++ bytes') b := by
  intro rest
  rw [List.append_assoc, StateT.run_bind, h]
  exact h' rest

theorem map (f : α → β) (h : Reads reader bytes a) : Reads (f <$> reader) bytes (f a) := by
  intro rest
  rw [StateT.run_map, h]
  rfl

theorem byte (b : UInt8) : Reads readByte [b] b := by
  intro rest
  rfl

theorem flag (b : Bool) : Reads readFlag (Binary.flag b) b := by
  intro rest
  cases b <;> rfl

/-- A number is read back if it has room. -/
theorem number {count n : Nat} (h : n < 256 ^ count) : Reads (readNumber count) (littleEndian count n) n := by
  induction count generalizing n with
  | zero =>
    have hzero : n = 0 := by simpa using h
    rw [hzero]
    exact pure 0
  | succ count ih =>
    -- the lowest byte, and what the bytes above it come to
    have hhigh : n / 256 < 256 ^ count := by
      rw [Nat.pow_succ] at h
      exact Nat.div_lt_of_lt_mul (by rwa [Nat.mul_comm] at h)
    have hsum : (UInt8.ofNat (n % 256)).toNat + 256 * (n / 256) = n := by
      have hlow : (UInt8.ofNat (n % 256)).toNat = n % 256 := by
        rw [UInt8.toNat_ofNat']
        omega
      omega
    have hread : Reads (readNumber (count + 1)) (littleEndian (count + 1) n)
        ((UInt8.ofNat (n % 256)).toNat + 256 * (n / 256)) := (byte _).bind ((ih hhigh).map _)
    rw [hsum] at hread
    exact hread

theorem times {item : Reader α} {encode : α → List UInt8} {xs : List α}
    (h : ∀ x ∈ xs, Reads item (encode x) x) : Reads (readTimes item xs.length) (xs.flatMap encode) xs := by
  induction xs with
  | nil => exact pure []
  | cons x xs ih =>
    have hrest := ih fun y hy => h y (List.mem_cons_of_mem _ hy)
    exact (h x List.mem_cons_self).bind (hrest.map _)

theorem list {item : Reader α} {encode : α → List UInt8} {xs : List α} (hlength : xs.length < UInt64.size)
    (h : ∀ x ∈ xs, Reads item (encode x) x) : Reads (readList item) (sequence encode xs) xs :=
  (number hlength).bind (times h)

theorem oneOf {alternatives : List (Reader α)} {i : Nat} (h : alternatives[i]? = some reader) (hi : i < 256 ^ 4)
    (hreader : Reads reader bytes a) : Reads (Binary.oneOf alternatives) (choice i ++ bytes) a := by
  apply (number hi).bind
  rw [h]
  exact hreader

theorem text {s : String} (h : s.utf8ByteSize < UInt64.size) : Reads readText (utf8 s) s := by
  have hbytes : Reads (readList readByte) (utf8 s) s.toUTF8.data.toList := by
    rw [utf8_eq_sequence]
    exact list h fun b _ => byte b
  have hvalid : String.fromUTF8? s.toUTF8 = some s := dif_pos s.isValidUTF8
  intro rest
  -- the bytes are a text, so nothing is refused
  rw [readText, StateT.run_bind, hbytes rest]
  show (StateT.lift (String.fromUTF8? s.toUTF8)).run rest = _
  rw [hvalid]
  rfl

/-- Bytes that are the beginning of others mean the same. -/
theorem eq_of_isPrefix {a' : α} (h : Reads reader bytes a) (h' : Reads reader bytes' a') (hfront : bytes <+: bytes') :
    a = a' := by
  obtain ⟨rest, rfl⟩ := hfront
  have hread := h' []
  rw [List.append_nil, h rest] at hread
  exact congrArg Prod.fst (Option.some.inj hread)

end Reads

end Binary

open Binary

/-! ## Types and constants -/

def HeapClass.reader : Reader HeapClass := oneOf [return .object, return .double, return .boolean, return .text]

theorem HeapClass.reads (c : HeapClass) : Reads reader c.toBytes c := by
  cases c <;> exact .oneOf rfl (by decide) (.pure _)

def Ty.reader : Reader Ty := oneOf [return .void, return .double, return .boolean, Ty.ref <$> HeapClass.reader]

theorem Ty.reads (ty : Ty) : Reads reader ty.toBytes ty := by
  cases ty with
  | ref c => exact .oneOf rfl (by decide) (c.reads.map Ty.ref)
  | void | double | boolean => exact .oneOf rfl (by decide) (.pure _)

namespace Const

def reader : Reader Const := oneOf [
  return .null,
  (fun bits => .number ⟨.ofNat bits⟩) <$> readNumber 8,
  Const.boolean <$> readFlag,
  Const.text <$> readText]

/-- The length of a text fits its word. -/
def lengthsFit : Const → Bool
  | .text s => s.utf8ByteSize < UInt64.size
  | _ => true

theorem reads {c : Const} (h : c.lengthsFit = true) : Reads reader c.toBytes c := by
  cases c with
  | null => exact .oneOf rfl (by decide) (.pure _)
  | number x =>
    have hbits : Reads ((fun bits => Const.number ⟨.ofNat bits⟩) <$> readNumber 8)
        (littleEndian 8 x.bits.toNat) (.number ⟨.ofNat x.bits.toNat⟩) := .map _ (.number x.bits.toNat_lt_size)
    rw [UInt64.ofNat_toNat] at hbits
    exact .oneOf rfl (by decide) hbits
  | boolean b => exact .oneOf rfl (by decide) (.map _ (.flag b))
  | text s => exact .oneOf rfl (by decide) (.map _ (.text (of_decide_eq_true h)))

end Const

/-! ## Operations -/

def Arith.reader : Reader Arith := oneOf [return .add, return .sub, return .mul, return .div]

theorem Arith.reads (f : Arith) : Reads reader f.toBytes f := by
  cases f <;> exact .oneOf rfl (by decide) (.pure _)

def Comparison.reader : Reader Comparison := oneOf [return .lt, return .gt, return .eq]

theorem Comparison.reads (f : Comparison) : Reads reader f.toBytes f := by
  cases f <;> exact .oneOf rfl (by decide) (.pure _)

namespace Op

def reader : Reader Op := oneOf [
  Op.const <$> Const.reader,
  return .pop,
  return .dup,
  do let slot ← readNumber 4; Op.load slot <$> Ty.reader,
  do let slot ← readNumber 4; Op.store slot <$> Ty.reader,
  Op.instanceOf <$> HeapClass.reader,
  Op.checkCast <$> HeapClass.reader,
  Op.box <$> HeapClass.reader,
  Op.unbox <$> HeapClass.reader,
  Op.arith <$> Arith.reader,
  Op.compare <$> Comparison.reader,
  return .not,
  Op.label <$> readNumber 4,
  Op.jump <$> readNumber 4,
  Op.jumpIf <$> readNumber 4,
  Op.jumpUnless <$> readNumber 4,
  do let owner ← readText; let name ← readText; Op.getStatic owner name <$> Ty.reader,
  do let target ← readText; let argc ← readNumber 1; Op.invoke target argc <$> Ty.reader,
  return .ret]

/-- The lengths of the texts fit their words. -/
def lengthsFit : Op → Bool
  | .const c => c.lengthsFit
  | .getStatic owner name _ => owner.utf8ByteSize < UInt64.size && name.utf8ByteSize < UInt64.size
  | .invoke target _ _ => target.utf8ByteSize < UInt64.size
  | _ => true

theorem reads {op : Op} (hrange : op.inRange = true) (hfit : op.lengthsFit = true) : Reads reader op.toBytes op := by
  cases op with
  | const c => exact .oneOf rfl (by decide) ((Const.reads hfit).map _)
  | load slot ty | store slot ty =>
    have hslot : slot < 256 ^ 4 := of_decide_eq_true hrange
    -- the number of the alternative stands apart from the fields behind it
    rw [toBytes, List.append_assoc]
    exact .oneOf rfl (by decide) ((Reads.number hslot).bind (ty.reads.map _))
  | instanceOf c | checkCast c | box c | unbox c => exact .oneOf rfl (by decide) (c.reads.map _)
  | arith f => exact .oneOf rfl (by decide) (f.reads.map _)
  | compare f => exact .oneOf rfl (by decide) (f.reads.map _)
  | label l | jump l | jumpIf l | jumpUnless l =>
    have hlabel : l < 256 ^ 4 := of_decide_eq_true hrange
    exact .oneOf rfl (by decide) ((Reads.number hlabel).map _)
  | getStatic owner name ty =>
    obtain ⟨howner, hname⟩ := Bool.and_eq_true_iff.mp hfit
    rw [toBytes, List.append_assoc, List.append_assoc]
    exact .oneOf rfl (by decide) ((Reads.text (of_decide_eq_true howner)).bind
      ((Reads.text (of_decide_eq_true hname)).bind (ty.reads.map _)))
  | invoke target argc returns =>
    have hargc : argc < 256 ^ 1 := of_decide_eq_true hrange
    rw [toBytes, List.append_assoc, List.append_assoc]
    exact .oneOf rfl (by decide) ((Reads.text (of_decide_eq_true hfit)).bind
      ((Reads.number hargc).bind (returns.reads.map _)))
  | pop | dup | not | ret => exact .oneOf rfl (by decide) (.pure _)

end Op

/-! ## Programs -/

namespace Program

def reader : Reader Program := do
  let ops ← readList Op.reader
  Program.mk ops <$> readNumber 4

/-- The lengths of the texts and of the program itself fit their words. -/
def lengthsFit (p : Program) : Bool := p.ops.length < UInt64.size && p.ops.all Op.lengthsFit

/-- The bytes of a program are read back, whatever follows. -/
theorem reads {p : Program} (hrange : p.inRange = true) (hfit : p.lengthsFit = true) :
    Reads reader (p.encode .binary).data.toList p := by
  obtain ⟨hops, hlocals⟩ := Bool.and_eq_true_iff.mp hrange
  obtain ⟨hlength, htexts⟩ := Bool.and_eq_true_iff.mp hfit
  have hread : Reads (readList Op.reader) (sequence Op.toBytes p.ops) p.ops := by
    apply Reads.list (of_decide_eq_true hlength)
    intro op hop
    exact Op.reads (List.all_eq_true.mp hops op hop) (List.all_eq_true.mp htexts op hop)
  exact hread.bind (.map _ (.number (of_decide_eq_true hlocals)))

/-- The bytes of a program are read back to it from in front of anything, and
    are the beginning of the bytes of a program only if that is the same. What
    does not fit its word is cut, so that it has the bytes of something else. -/
theorem encode_binary_prefix_iff (u v : Program) (hu : u.inRange = true) (hv : v.inRange = true)
    (hfitu : u.lengthsFit = true) (hfitv : v.lengthsFit = true) :
    (∀ rest, reader.run ((u.encode .binary).data.toList ++ rest) = some (u, rest)) ∧
      ((u.encode .binary).data.toList <+: (v.encode .binary).data.toList ↔ u = v) := by
  have hreadu := reads hu hfitu
  have hreadv := reads hv hfitv
  refine ⟨hreadu, ?_, ?_⟩
  · intro hfront
    exact hreadu.eq_of_isPrefix hreadv hfront
  · intro heq
    rw [heq]

example : (Program.mk [] UInt32.size).encode .binary = (Program.mk [] 0).encode .binary := by decide

/-- Returns a static text. -/
def fetching (owner name : String) : Program := ⟨[.getStatic owner name (.ref .text), .ret], 0⟩

/-- Where one text ends and the next begins can be told. -/
theorem encode_binary_prefix_iff_fetching :
    (∀ p ∈ [fetching "Ab" "c", fetching "A" "bc"], p.inRange = true ∧ p.lengthsFit = true) ∧
    reader.run ((fetching "Ab" "c").encode .binary).data.toList = some (fetching "Ab" "c", []) ∧
    ¬ ((fetching "Ab" "c").encode .binary).data.toList <+: ((fetching "A" "bc").encode .binary).data.toList := by
  obtain ⟨hread, hiff⟩ := encode_binary_prefix_iff (fetching "Ab" "c") (fetching "A" "bc")
    (by decide) (by decide) (by decide) (by decide)
  refine ⟨by decide, ?_, ?_⟩
  · simpa using hread []
  · rw [hiff]
    decide

end Program

end FlowGraph
