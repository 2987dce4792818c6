import TemplateAnalysis.Json.Magnitude

namespace TemplateAnalysis.Json

/-- The words, marks and literals of which a written value consists. -/
inductive Token
  | leftBrace | rightBrace | leftBracket | rightBracket | comma | colon
  | null
  | bool (value : Bool)
  | integer (value : Int)
  | decimal (text : String)
  | string (value : String)
  deriving DecidableEq, Inhabited

namespace Token

/-- The value of a hexadecimal digit. -/
def hexDigit? (c : Char) : Option Nat :=
  if '0' ≤ c ∧ c ≤ '9' then some (c.toNat - '0'.toNat)
  else if 'a' ≤ c ∧ c ≤ 'f' then some (c.toNat - 'a'.toNat + 10)
  else if 'A' ≤ c ∧ c ≤ 'F' then some (c.toNat - 'A'.toNat + 10)
  else none

/-- The character that an escape of one letter stands for. -/
def shortEscape? : Char → Option Char
  | '"' => some '"'
  | '\\' => some '\\'
  | '/' => some '/'
  | 'b' => some '\x08'
  | 'f' => some '\x0c'
  | 'n' => some '\n'
  | 'r' => some '\r'
  | 't' => some '\t'
  | _ => none

/-- The UTF-16 unit that an escape stands for, with the number of characters after the backslash. -/
def escape? : List Char → Option (Nat × Nat)
  | 'u' :: a :: b :: c :: d :: _ => do
    let digits ← [a, b, c, d].mapM hexDigit?
    return (digits.foldl (fun value digit => 16 * value + digit) 0, 5)
  | c :: _ => (shortEscape? c).map fun escaped => (escaped.toNat, 1)
  | [] => none

/-- The code points and UTF-16 units of a string after its opening quote mark, with the number of
    characters through the closing one. Control characters must be escaped. -/
def stringUnits? : List Char → Option (List Nat × Nat)
  | [] => none
  | c :: rest =>
    if c = '"' then some ([], 1)
    else if c = '\\' then
      match escape? rest with
      | some (unit, length) =>
        (stringUnits? (rest.drop length)).map fun (units, more) =>
          (unit :: units, 1 + length + more)
      | none => none
    else if c.toNat < 0x20 then none
    else (stringUnits? rest).map fun (units, more) => (c.toNat :: units, 1 + more)
  termination_by text => text.length
  decreasing_by
    all_goals
      simp only [List.length_cons, List.length_drop]
      omega

/-- The characters of a sequence of units. Two halves of a surrogate pair make one character; a
    half that stands alone makes none. -/
def joinSurrogates? : List Nat → Option (List Char)
  | [] => some []
  | [unit] => if 0xd800 ≤ unit ∧ unit < 0xe000 then none else some [Char.ofNat unit]
  | high :: low :: rest =>
    if 0xd800 ≤ high ∧ high < 0xdc00 then
      if 0xdc00 ≤ low ∧ low < 0xe000 then
        (joinSurrogates? rest).map
          (Char.ofNat (0x10000 + (high - 0xd800) * 0x400 + (low - 0xdc00)) :: ·)
      else none
    else if 0xdc00 ≤ high ∧ high < 0xe000 then none
    else (joinSurrogates? (low :: rest)).map (Char.ofNat high :: ·)

/-- The digits of a whole part: a zero alone, or a row of digits that begins with another one. -/
def wholeDigits? : List Char → Option (List Char)
  | '0' :: _ => some ['0']
  | c :: rest => if c.isDigit then some (c :: rest.takeWhile Char.isDigit) else none
  | [] => none

/-- The digits of a fraction, empty if there is none, but not if none follows the point. -/
def fractionDigits? : List Char → Option (List Char)
  | '.' :: rest =>
    let digits := rest.takeWhile Char.isDigit
    if digits.isEmpty then none else some digits
  | _ => some []

/-- The value of an exponent with the number of its characters. Both are zero if there is none, but
    an exponent needs a digit. -/
def exponent? : List Char → Option (Int × Nat)
  | e :: rest =>
    if e = 'e' ∨ e = 'E' then
      let sign := if rest.head? = some '-' ∨ rest.head? = some '+' then 1 else 0
      let digits := (rest.drop sign).takeWhile Char.isDigit
      let value : Int := Magnitude.digitsValue digits
      if digits.isEmpty then none
      else some (if rest.head? = some '-' then -value else value, 1 + sign + digits.length)
    else some (0, 0)
  | [] => some (0, 0)

/-- The number that the text begins with, and the count of its characters. A number beyond the
    finite values is refused. -/
def number? (text : List Char) : Option (Token × Nat) := do
  let negative := text.head? = some '-'
  let sign := if negative then 1 else 0
  let whole ← wholeDigits? (text.drop sign)
  let afterWhole := text.drop (sign + whole.length)
  let fraction ← fractionDigits? afterWhole
  let point := if fraction.isEmpty then 0 else 1
  let (exponent, exponentLength) ← exponent? (afterWhole.drop (point + fraction.length))
  let length := sign + whole.length + point + fraction.length + exponentLength
  let magnitude : Int := Magnitude.digitsValue whole
  let value := if negative then -magnitude else magnitude
  if point + exponentLength = 0 ∧ -9223372036854775808 ≤ value ∧ value < 18446744073709551616 ∧
      ¬ (negative ∧ value = 0) then
    return (integer value, length)
  else if Magnitude.isFinite whole fraction exponent then
    return (decimal (String.ofList (text.take length)), length)
  else none

/-- The token that begins with a character, and the number of its characters after that one. -/
def next? (c : Char) (rest : List Char) : Option (Token × Nat) :=
  match c with
  | '{' => some (leftBrace, 0)
  | '}' => some (rightBrace, 0)
  | '[' => some (leftBracket, 0)
  | ']' => some (rightBracket, 0)
  | ',' => some (comma, 0)
  | ':' => some (colon, 0)
  | 'n' => if rest.take 3 = ['u', 'l', 'l'] then some (null, 3) else none
  | 't' => if rest.take 3 = ['r', 'u', 'e'] then some (bool true, 3) else none
  | 'f' => if rest.take 4 = ['a', 'l', 's', 'e'] then some (bool false, 4) else none
  | '"' => do
    let (units, length) ← stringUnits? rest
    let characters ← joinSurrogates? units
    return (string (String.ofList characters), length)
  | c => (number? (c :: rest)).map fun (token, length) => (token, length - 1)

/-- Whether a character separates tokens. -/
def isSeparator (c : Char) : Bool :=
  c == ' ' || c == '\t' || c == '\n' || c == '\r'

/-- The tokens of a text, if it consists of nothing else. -/
def all? : List Char → Option (List Token)
  | [] => some []
  | c :: rest =>
    if isSeparator c then all? rest
    else
      match next? c rest with
      | some (token, more) => (all? (rest.drop more)).map (token :: ·)
      | none => none
  termination_by text => text.length
  decreasing_by
    all_goals
      simp only [List.length_cons, List.length_drop]
      omega

end Token

end TemplateAnalysis.Json
