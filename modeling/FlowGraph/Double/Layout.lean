import FlowGraph.Double.Numeral
import FlowGraph.Double.Shortest

/-! # Writing doubles

    Every text form of a double has the digits of its shortest decimal. The
    forms differ in where they stop writing positionally and in how they
    write an exponent; a `Layout` holds these decisions.

    * `plain`: for values that a program shows. Always positional.
    * `literal`: for constants in listings. A fraction is always written,
      very small and very large numbers get an exponent.
-/

namespace FlowGraph

/-- The decisions of one text form of doubles. -/
structure Layout where
  /-- Whether a number whose first digit has this exponent is written
      without an exponent. -/
  positional : Int → Bool
  /-- Whether a whole number is written with `.0`. -/
  wholeFraction : Bool
  /-- Written before an exponent that is not negative. -/
  exponentSign : List Char
  tie : Tie

namespace Layout

def plain : Layout := ⟨fun _ => true, false, [], .up⟩

def literal : Layout := ⟨fun e => -4 ≤ e && e < 16, true, [], .up⟩

/-- A decimal without an exponent. -/
def positionalNumeral (layout : Layout) (negative : Bool) (d : Decimal) : Numeral :=
  let digits := d.digitText
  if 0 ≤ d.exponent then
    ⟨negative, digits ++ List.replicate d.exponent.toNat '0', if layout.wholeFraction then ['0'] else [], none⟩
  else if d.leading < 0 then
    ⟨negative, ['0'], List.replicate (-d.leading - 1).toNat '0' ++ digits, none⟩
  else
    let whole := (d.leading + 1).toNat
    ⟨negative, digits.take whole, digits.drop whole, none⟩

/-- A decimal with one digit before the point and an exponent. -/
def scientificNumeral (negative : Bool) (d : Decimal) : Numeral :=
  ⟨negative, d.digitText.take 1, d.digitText.drop 1, some d.leading⟩

def numeral (layout : Layout) (negative : Bool) (d : Decimal) : Numeral :=
  if layout.positional d.leading then layout.positionalNumeral negative d else scientificNumeral negative d

end Layout

namespace Double

/-- The text of a double in a layout. A NaN is written without its sign. -/
def write (layout : Layout) (x : Double) : List Char :=
  match x.magnitude with
  | .nan => ['N', 'a', 'N']
  | .infinite => if x.isNegative then ['-', 'i', 'n', 'f'] else ['i', 'n', 'f']
  | .finite mantissa scale =>
    (layout.numeral x.isNegative (shortest layout.tie mantissa scale)).text layout.exponentSign

def plainText (x : Double) : String := String.ofList (x.write .plain)

def literalText (x : Double) : String := String.ofList (x.write .literal)

end Double

end FlowGraph
