import TemplateAnalysis.Checker

namespace TemplateAnalysis.CommandLine

/-- Why the command line cannot be carried out. -/
inductive Failure
  | missingSettingsFile
  | badSettings (path reason : String)
  | unreadable (error : InputError)
  deriving DecidableEq, Inhabited

/-- How the failure is told. -/
def Failure.message : Failure → String
  | missingSettingsFile => "--config needs a file"
  | badSettings path reason => path ++ ": " ++ reason
  | unreadable error => error.message

/-- What the command line leads to. -/
inductive Outcome
  | usage
  | checked (diagnostics : List String)
  | failed (failure : Failure)
  deriving DecidableEq, Inhabited

namespace Outcome

/-- The exit code of the program. -/
def exitCode : Outcome → UInt32
  | usage => 0
  | checked [] => 0
  | checked _ => 1
  | failed _ => 2

/-- What the program prints. -/
def output : Outcome → String
  | usage =>
    "Usage: jinja-lens [--config config.json] <templates, backend files or directories...>\n"
  | _ => ""

/-- What the program reports. -/
def errorOutput : Outcome → String
  | usage | checked [] => ""
  | checked diagnostics => "\n\n".intercalate diagnostics ++ "\n"
  | failed failure => "Error: " ++ failure.message ++ "\n"

end Outcome

/-- Reads the settings in a file. That there is no valid value stands for the text in which a reader of
    JSON says what is wrong with it, which is no part of this library. -/
def readSettings (tree : FileTree) (path : String) : Except Failure Settings :=
  match tree.read path with
  | .error reason => .error (.badSettings path reason.message)
  | .ok (_, text) =>
    match Settings.ofText? text with
    | some settings => .ok settings
    | none => .error (.badSettings path (InputError.settings "not a valid value").message)

/-- The settings and the paths that the arguments give. The last settings count. -/
def readArguments (tree : FileTree) (settings : Settings) :
    List String → Except Failure (Settings × List String)
  | [] => .ok (settings, [])
  | "--config" :: [] => .error .missingSettingsFile
  | "--config" :: path :: rest => do readArguments tree (← readSettings tree path) rest
  | path :: rest => do
    let (settings, paths) ← readArguments tree settings rest
    return (settings, path :: paths)

/-- Carries out a command line. -/
def run (tree : FileTree) (arguments : List String) : Outcome :=
  match readArguments tree {} arguments with
  | .error failure => .failed failure
  | .ok (_, []) => .usage
  | .ok (settings, paths) =>
    match ((Checker.ofSettings settings).check tree paths).1 with
    | .error error => .failed (.unreadable error)
    | .ok diagnostics => .checked diagnostics

end TemplateAnalysis.CommandLine
