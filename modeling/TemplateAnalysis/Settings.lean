import TemplateAnalysis.Host.Language
import TemplateAnalysis.Json.Reader
import TemplateAnalysis.Path

namespace TemplateAnalysis

/-- The settings of a workspace: the directory of the templates, the directories of programs, the
    language whose variables templates can use (all languages if there is none), the extensions of
    templates, and whether undefined variables are left unreported. -/
structure Settings where
  templates : Option String := none
  programs : List String := []
  language : Option HostLanguage := none
  templateExtensions : List String := ["html", "jinja", "j2", "jinja2"]
  hideUndefined : Bool := false
  deriving DecidableEq, Inhabited

namespace Settings

/-- The language that a setting chooses. -/
def language? (value : Json) : Option HostLanguage :=
  value.word?.bind HostLanguage.ofName?

/-- A setting that has a default but must not be null. -/
def required? {α : Type} (read : Json → Option α) (default : α) : Option Json → Option α
  | none => some default
  | some value => read value

/-- The value of a setting that has two spellings, of which only one may be used. -/
def eitherField? (first second : String) (settings : Json) : Option (Option Json) :=
  match settings.field? first, settings.field? second with
  | some _, some _ => none
  | some value, none => some (some value)
  | none, other => some other

/-- The names of the settings, in the order in which their values may be given without them. -/
def names : List String :=
  ["templates", "backend", "lang", "templateExtensions", "hideUndefined"]

/-- The settings that an object denotes. Unknown fields are passed over. -/
def ofObject? (settings : Json) : Option Settings := do
  let defaults : Settings := {}
  let extensions ← eitherField? "templateExtensions" "template_extensions" settings
  let hidden ← eitherField? "hideUndefined" "hide_undefined" settings
  return {
    templates := ← Json.optional? Json.string? (settings.field? "templates")
    programs := ← required? (Json.arrayOf? Json.string?) defaults.programs
      (settings.field? "backend")
    language := ← Json.optional? language? (settings.field? "lang")
    templateExtensions := ← required? (Json.arrayOf? Json.string?) defaults.templateExtensions
      extensions
    hideUndefined := ← required? Json.bool? defaults.hideUndefined hidden }

/-- The settings that a value denotes. Nothing at all stands for the defaults, and an array gives
    the first settings by their values alone. -/
def ofJson? : Json → Option Settings
  | .null => some {}
  | .object fields => ofObject? (.object fields)
  | .array items =>
    if items.length ≤ names.length then ofObject? (.object (names.zip items)) else none
  | _ => none

/-- The settings that a text denotes. -/
def ofText? (text : String) : Option Settings :=
  (Json.parse? text).bind ofJson?

/-- Whether files with this extension are templates. Points before an extension do not count. -/
def isTemplateExtension (settings : Settings) (extension : String) : Bool :=
  settings.templateExtensions.any fun known => withoutPoints known == withoutPoints extension

/-- What a file holds that is worth reading: a program of a known language or a template. -/
def languageOf? (settings : Settings) (path : String) : Option Language :=
  (Path.extension? path).bind fun extension =>
    match Language.ofExtension extension with
    | .host language => some (.host language)
    | .template => if settings.isTemplateExtension extension then some .template else none

/-- The path at which a template of this name would be. -/
def templatePath? (settings : Settings) (name : String) : Option String :=
  settings.templates.map (Path.join · name)

end Settings

end TemplateAnalysis
