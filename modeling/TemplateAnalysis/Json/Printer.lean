import TemplateAnalysis.Json

namespace TemplateAnalysis.Json

/-- The hexadecimal digit of a number below sixteen. -/
def hexDigit (digit : Nat) : Char :=
  if digit < 10 then Char.ofNat ('0'.toNat + digit) else Char.ofNat ('a'.toNat + (digit - 10))

/-- How a character is written inside a string. Quote marks, backslashes and control characters are
    escaped, and all others stand for themselves. -/
def escaped (c : Char) : List Char :=
  match c with
  | '"' => ['\\', '"']
  | '\\' => ['\\', '\\']
  | '\n' => ['\\', 'n']
  | '\r' => ['\\', 'r']
  | '\t' => ['\\', 't']
  | c =>
    if c.toNat < 0x20 then
      ['\\', 'u', '0', '0', hexDigit (c.toNat / 16), hexDigit (c.toNat % 16)]
    else [c]

/-- How a text is written as a string. -/
def quoted (text : String) : String :=
  "\"" ++ String.ofList (text.toList.flatMap escaped) ++ "\""

mutual

/-- Writes a value behind a text, on the same line and without blanks. -/
def write (out : String) : Json → String
  | null => out ++ "null"
  | bool value => out ++ if value then "true" else "false"
  | integer value => out ++ toString value
  | decimal text => out ++ text
  | string value => out ++ quoted value
  | array items => (writeItems (out.push '[') items).push ']'
  | object fields => (writeFields (out.push '{') fields).push '}'

/-- Writes the items of an array behind a text. -/
def writeItems (out : String) : List Json → String
  | [] => out
  | [item] => write out item
  | item :: rest => writeItems ((write out item).push ',') rest

/-- Writes the fields of an object behind a text. -/
def writeFields (out : String) : List (String × Json) → String
  | [] => out
  | [(name, value)] => write ((out ++ quoted name).push ':') value
  | (name, value) :: rest =>
    writeFields ((write ((out ++ quoted name).push ':') value).push ',') rest

end

/-- How a value is written. -/
def render (value : Json) : String :=
  write "" value

end TemplateAnalysis.Json
