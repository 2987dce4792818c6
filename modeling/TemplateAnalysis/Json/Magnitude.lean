namespace TemplateAnalysis.Json.Magnitude

/-- The number that a row of decimal digits denotes. -/
def digitsValue (digits : List Char) : Nat :=
  digits.foldl (fun value digit => 10 * value + (digit.toNat - '0'.toNat)) 0

/-- The number that results from writing digits after another one, as long as it fits into 64
    binary digits, together with the count of the digits that are left over. -/
def extend (value : Nat) : List Char → Nat × Nat
  | [] => (value, 0)
  | digit :: rest =>
    let longer := 10 * value + (digit.toNat - '0'.toNat)
    if longer < 18446744073709551616 then extend longer rest else (value, rest.length + 1)

/-- The nearest number that needs no more than 53 binary digits before its last zeros. Of two that
    are equally near it is the one whose last digit is even. -/
def nearest (value : Nat) : Nat :=
  let unit := Nat.pow 2 (value.log2 - 52)
  let count := value / unit
  let twice := 2 * (value % unit)
  if twice < unit ∨ twice = unit ∧ count % 2 = 0 then count * unit else (count + 1) * unit

/-- The first power of two that is beyond the finite values of 64 bits. -/
def limit : Nat := Nat.pow 2 1024

/-- The greatest power of ten that is a finite value of 64 bits. -/
def maxExponent : Int := 308

/-- Whether a number with these digits before and after its point, times a power of ten, is a finite
    value of 64 bits. The leading digits make a whole number of up to 64 binary digits; those left
    over count by their places only. That number and the power of ten are rounded before they are
    multiplied, and the product is rounded again, so close to the limit it is not the exact value
    that decides. -/
def isFinite (whole fraction : List Char) (exponent : Int) : Bool :=
  let (value, wholeRest) := extend 0 whole
  let (value, fractionRest) := extend value fraction
  let exponent := exponent + wholeRest + fractionRest - fraction.length
  value == 0 || exponent < 0 ||
    exponent ≤ maxExponent &&
      nearest (nearest value * nearest (Nat.pow 10 exponent.toNat)) < limit

end TemplateAnalysis.Json.Magnitude
