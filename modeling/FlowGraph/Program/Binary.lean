import FlowGraph.Program.Basic

/-! # Programs as bytes

    Integers are little endian. A text and a list start with their length
    in eight bytes, an alternative with its number in four.
-/

namespace FlowGraph

namespace Binary

/-- The lowest `count` bytes of a number, the lowest first. -/
def littleEndian : Nat → Nat → List UInt8
  | 0, _ => []
  | count + 1, n => UInt8.ofNat (n % 256) :: littleEndian count (n / 256)

/-- The number of an alternative. -/
def choice (n : Nat) : List UInt8 := littleEndian 4 n

def word (n : Nat) : List UInt8 := littleEndian 4 n

def flag (b : Bool) : List UInt8 := [if b then 1 else 0]

def utf8 (s : String) : List UInt8 := littleEndian 8 s.utf8ByteSize ++ s.toUTF8.toList

def sequence {α : Type} (item : α → List UInt8) (xs : List α) : List UInt8 :=
  littleEndian 8 xs.length ++ xs.flatMap item

end Binary

open Binary

def HeapClass.toBytes : HeapClass → List UInt8
  | .object => choice 0
  | .double => choice 1
  | .boolean => choice 2
  | .text => choice 3

def Ty.toBytes : Ty → List UInt8
  | .void => choice 0
  | .double => choice 1
  | .boolean => choice 2
  | .ref c => choice 3 ++ c.toBytes

def Const.toBytes : Const → List UInt8
  | .null => choice 0
  | .number x => choice 1 ++ littleEndian 8 x.bits.toNat
  | .boolean b => choice 2 ++ flag b
  | .text s => choice 3 ++ utf8 s

def Arith.toBytes : Arith → List UInt8
  | .add => choice 0
  | .sub => choice 1
  | .mul => choice 2
  | .div => choice 3

def Comparison.toBytes : Comparison → List UInt8
  | .lt => choice 0
  | .gt => choice 1
  | .eq => choice 2

def Op.toBytes : Op → List UInt8
  | .const c => choice 0 ++ c.toBytes
  | .pop => choice 1
  | .dup => choice 2
  | .load slot ty => choice 3 ++ word slot ++ ty.toBytes
  | .store slot ty => choice 4 ++ word slot ++ ty.toBytes
  | .instanceOf c => choice 5 ++ c.toBytes
  | .checkCast c => choice 6 ++ c.toBytes
  | .box c => choice 7 ++ c.toBytes
  | .unbox c => choice 8 ++ c.toBytes
  | .arith op => choice 9 ++ op.toBytes
  | .compare op => choice 10 ++ op.toBytes
  | .not => choice 11
  | .label l => choice 12 ++ word l
  | .jump l => choice 13 ++ word l
  | .jumpIf l => choice 14 ++ word l
  | .jumpUnless l => choice 15 ++ word l
  | .getStatic owner name ty => choice 16 ++ utf8 owner ++ utf8 name ++ ty.toBytes
  | .invoke target argc returns =>
    choice 17 ++ utf8 target ++ littleEndian 1 argc ++ returns.toBytes
  | .ret => choice 18

def Program.toBytes (p : Program) : List UInt8 := sequence Op.toBytes p.ops ++ word p.locals

end FlowGraph
