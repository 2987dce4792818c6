namespace TemplateAnalysis

/-- The languages of programs that hand variables to templates. -/
inductive HostLanguage
  | rust
  | python
  deriving DecidableEq, Inhabited

/-- The text without the points at its beginning. -/
def withoutPoints (extension : String) : String :=
  String.ofList (extension.toList.dropWhile (· == '.'))

namespace HostLanguage

/-- The language of files with this extension, written with or without its point. -/
def ofExtension? (extension : String) : Option HostLanguage :=
  match withoutPoints extension with
  | "rs" => some rust
  | "py" | "pyi" => some python
  | _ => none

/-- The usual extension of files in the language. -/
def extension : HostLanguage → String
  | rust => "rs"
  | python => "py"

/-- The name of the language. -/
def name : HostLanguage → String
  | rust => "rust"
  | python => "python"

/-- The language that a setting names by its name or its extension. -/
def ofName? : String → Option HostLanguage
  | "rust" | "rs" => some rust
  | "python" | "py" => some python
  | _ => none

end HostLanguage

/-- What a document is written in. -/
inductive Language
  | template
  | host (language : HostLanguage)
  deriving DecidableEq, Inhabited

/-- The language of files with this extension. Whatever belongs to no host language is taken for a
    template. -/
def Language.ofExtension (extension : String) : Language :=
  match HostLanguage.ofExtension? extension with
  | some language => .host language
  | none => .template

end TemplateAnalysis
