/-! Exact rational coefficients. A sum or product is formed only when the arithmetic stays
inside signed 64-bit numerators and denominators; otherwise the operands are kept apart. -/
namespace TensorCalculus

abbrev Number := Rat

namespace Number

def fits (n : Int) : Bool :=
  -9223372036854775808 ≤ n && n ≤ 9223372036854775807

def inRange (q : Number) : Bool :=
  fits q.num && fits q.den

/-- The sum over the least common denominator. It is refused when that denominator, one of
the two numerators over it, or their sum does not fit, even if the reduced sum would. -/
def add? (a b : Number) : Option Number :=
  let den := Nat.lcm a.den b.den
  let left : Int := a.num * (den / a.den : Nat)
  let right : Int := b.num * (den / b.den : Nat)
  if fits den && fits left && fits right && fits (left + right) then some (a + b) else none

def mul? (a b : Number) : Option Number :=
  if inRange (a * b) then some (a * b) else none

def isInteger (q : Number) : Bool :=
  q.den == 1

/-- An integer power, up to the exponent 64 and as long as the power of the base itself
fits; a negative exponent then inverts it. -/
def pow? (base exponent : Number) : Option Number :=
  let n := exponent.num
  if !isInteger exponent || 64 < n.natAbs || (base == 0 && n < 0) then none
  else
    let p := base ^ n.natAbs
    if inRange p then some (if n < 0 then p⁻¹ else p) else none

/-- The inversion of a negative power is not checked, and its result need not fit. -/
def powOverflows (base exponent : Number) : Bool :=
  (pow? base exponent).any (!inRange ·)

def compare (a b : Number) : Ordering :=
  Ord.compare (a.num * b.den) (b.num * a.den)

/-- `n`, or `n/d` in lowest terms with the sign on the numerator. -/
def text (q : Number) : String :=
  if isInteger q then toString q.num else toString q.num ++ "/" ++ toString q.den

/-- Combine numbers from the left. A number that cannot be combined with what was
gathered so far is left over. -/
def gather (op : Number → Number → Option Number) : Number → List Number → Number × List Number
  | acc, [] => (acc, [])
  | acc, q :: qs =>
    match op acc q with
    | some r => gather op r qs
    | none =>
      let (total, left) := gather op acc qs
      (total, q :: left)

theorem add?_eq_some {a b c : Number} (h : add? a b = some c) : c = a + b := by
  simp only [add?] at h
  split at h
  · exact (Option.some.inj h).symm
  · contradiction

theorem mul?_eq_some {a b c : Number} (h : mul? a b = some c) : c = a * b := by
  simp only [mul?] at h
  split at h
  · exact (Option.some.inj h).symm
  · contradiction

theorem inRange_of_mul? {a b c : Number} (h : mul? a b = some c) : inRange c := by
  simp only [mul?] at h
  split at h
  · cases Option.some.inj h; assumption
  · contradiction

end Number

end TensorCalculus
