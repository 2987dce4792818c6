import TemplateAnalysis.Text.Search

namespace TemplateAnalysis.Uri

/-- Whether a character may stand in every part of an address. -/
def isUnreserved (c : Char) : Bool :=
  c.isAlphanum || c == '-' || c == '.' || c == '_' || c == '~'

/-- Whether a character may separate pieces within one part of an address. -/
def isSubDelimiter (c : Char) : Bool :=
  ['!', '$', '&', '\'', '(', ')', '*', '+', ',', ';', '='].contains c

/-- Whether a character is a hexadecimal digit. -/
def isHexDigit (c : Char) : Bool :=
  c.isDigit || ('a' ≤ c && c ≤ 'f') || ('A' ≤ c && c ≤ 'F')

/-- Whether a text consists of allowed characters and of percent signs with two hexadecimal digits
    after each. -/
def isEncoded (allowed : Char → Bool) : List Char → Bool
  | [] => true
  | '%' :: first :: second :: rest =>
    isHexDigit first && isHexDigit second && isEncoded allowed rest
  | c :: rest => c != '%' && allowed c && isEncoded allowed rest

/-- Whether a character may stand in a segment of a path. -/
def isPathCharacter (c : Char) : Bool :=
  isUnreserved c || isSubDelimiter c || c == ':' || c == '@'

/-- Whether a text is a scheme. -/
def isScheme : List Char → Bool
  | [] => false
  | c :: rest => c.isAlpha && rest.all fun c => c.isAlphanum || c == '+' || c == '-' || c == '.'

/-- Whether a text is a number from 0 to 255 without needless zeros. -/
def isDecimalOctet (text : List Char) : Bool :=
  match text with
  | [a] => a.isDigit
  | ['1', b, c] => b.isDigit && c.isDigit
  | ['2', '5', c] => '0' ≤ c && c ≤ '5'
  | ['2', b, c] => '0' ≤ b && b ≤ '4' && c.isDigit
  | [a, b] => a.isDigit && a != '0' && b.isDigit
  | _ => false

/-- Whether a text is an address of four octets. -/
def isAddress4 (text : List Char) : Bool :=
  let octets := Text.pieces '.' text
  octets.length == 4 && octets.all isDecimalOctet

/-- Whether a text is a group of up to four hexadecimal digits. -/
def isGroup (text : List Char) : Bool :=
  0 < text.length && text.length ≤ 4 && text.all isHexDigit

/-- The number of groups in a row that colons separate, if it is one. The last item may be an
    address of four octets, which counts twice. -/
def groups? (mayEndInAddress : Bool) (text : List Char) : Option Nat :=
  if text.isEmpty then some 0
  else
    let items := Text.pieces ':' text
    if items.all isGroup then some items.length
    else if mayEndInAddress && items.dropLast.all isGroup && items.getLast?.any isAddress4 then
      some (items.length + 1)
    else none

/-- Whether a text is an address of eight groups. Two colons stand for the groups left out. -/
def isAddress6 (text : List Char) : Bool :=
  match Text.splitAt? [':', ':'] text with
  | none => groups? true text == some 8
  | some (before, after) =>
    match groups? false before, groups? true after with
    | some first, some second => first + second ≤ 7
    | _, _ => false

/-- Whether a text is a host, with or without a service number after a colon. -/
def isHostAndNumber : List Char → Bool
  | '[' :: rest =>
    let address := rest.takeWhile (· ≠ ']')
    let isNumber :=
      match rest.drop address.length with
      | [']'] => true
      | ']' :: ':' :: digits => digits.all Char.isDigit
      | _ => false
    isAddress6 address && isNumber
  | text =>
    let host := text.takeWhile (· ≠ ':')
    isEncoded (fun c => isUnreserved c || isSubDelimiter c) host &&
      (text.drop (host.length + 1)).all Char.isDigit

/-- Whether a text names a host, with an optional user before it. -/
def isAuthority (text : List Char) : Bool :=
  match Text.splitAt? ['@'] text with
  | some (user, host) =>
    isEncoded (fun c => isUnreserved c || isSubDelimiter c || c == ':') user && isHostAndNumber host
  | none => isHostAndNumber text

/-- Whether a text is a path. -/
def isPath (text : List Char) : Bool :=
  isEncoded (fun c => isPathCharacter c || c == '/') text

/-- Whether a text is a path that a host may stand before, after two slashes. -/
def isHierarchy : List Char → Bool
  | '/' :: '/' :: rest =>
    let authority := rest.takeWhile (· ≠ '/')
    isAuthority authority && isPath (rest.drop authority.length)
  | text => isPath text

/-- Whether a text is a query or a fragment. -/
def isSuffix (text : List Char) : Bool :=
  isEncoded (fun c => isPathCharacter c || c == '/' || c == '?') text

/-- The text before a mark, and the text after it if the mark occurs. -/
def cut (mark : Char) (text : List Char) : List Char × List Char :=
  let before := text.takeWhile (· ≠ mark)
  (before, text.drop (before.length + 1))

/-- Whether a text is an address, absolute or relative to another one. A first segment that holds a
    colon must be a scheme. -/
def isReference (text : String) : Bool :=
  let (withoutFragment, fragment) := cut '#' text.toList
  let (hierarchy, query) := cut '?' withoutFragment
  let first := hierarchy.takeWhile fun c => c ≠ ':' ∧ c ≠ '/'
  isSuffix fragment && isSuffix query &&
    if (hierarchy.drop first.length).head? = some ':' then
      isScheme first && isHierarchy (hierarchy.drop (first.length + 1))
    else isHierarchy hierarchy

end TemplateAnalysis.Uri
