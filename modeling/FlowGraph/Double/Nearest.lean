import FlowGraph.Double.Basic

/-! # The nearest double

    Rounds an exact ratio to the nearest double, a half going to the even
    neighbour, and reads integers through it.

    A positive ratio `n / d` is brought to `m * 2 ^ scale`, with `m` of
    fifty-three bits, or fewer once `scale` has reached the least exponent.
    The bits of the result are then `(scale + 1074) * 2 ^ 52 + m`: a
    fraction that rounds up past its width carries into the exponent, which
    is the next double, and past the largest one that is infinity.
-/

namespace FlowGraph

namespace Double

/-- The quotient rounded to the nearest integer, a half to the even one. -/
def roundHalfEven (n d : Nat) : Nat :=
  let quotient := n / d
  let remainder := n % d
  if 2 * remainder < d then quotient
  else if d < 2 * remainder then quotient + 1
  else quotient + quotient % 2

/-- The scale at which `n / d` has a mantissa of fifty-three bits. -/
def scaleOf (n d : Nat) : Int :=
  let guess : Int := (n.log2 : Int) - d.log2 - 52
  let short := n <<< (-guess).toNat < (d <<< guess.toNat) * exponentWeight
  max (-1074) (if short then guess - 1 else guess)

/-- The double nearest to `n / d`, infinite when there is no finite one. -/
def ofRatio (negative : Bool) (n d : Nat) : Double :=
  if n = 0 then withSign negative 0
  else
    let scale := scaleOf n d
    let mantissa := roundHalfEven (n <<< (-scale).toNat) (d <<< scale.toNat)
    let below := (scale + 1074).toNat * exponentWeight + mantissa
    withSign negative (min below (2047 * exponentWeight))

/-- The double nearest to an integer. -/
def ofInt (n : Int) : Double := ofRatio (n < 0) n.natAbs 1

end Double

end FlowGraph
