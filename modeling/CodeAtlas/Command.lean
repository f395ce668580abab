import CodeAtlas.Index

/-!
The command line: one build description, whose graph is printed. Arguments are read from the left,
and the first that is no description or asks for something else decides.
-/
namespace CodeAtlas

inductive Request where
  | help
  | version
  | usage
  | index (description : String)
  deriving DecidableEq, Repr

namespace Request

def isOption (arg : String) : Bool := arg.toList.head? == some '-' && arg != "-"

/-- What an option asks for. Of letters written together the first decides. -/
def ofOption (arg : String) : Request :=
  match arg.toList with
  | '-' :: '-' :: _ =>
    if arg == "--version" then .version else if arg == "--help" then .help else .usage
  | '-' :: 'V' :: _ => .version
  | '-' :: 'h' :: _ => .help
  | _ => .usage

def ofArgs (description : Option String) (optionsEnded : Bool) : List String → Request
  | [] =>
    match description with
    | none => .usage
    | some d => if d.isEmpty then .usage else .index d
  | arg :: rest =>
    if isOption arg && !optionsEnded then
      if arg == "--" then ofArgs description true rest
      else if description == some "" then .usage
      else ofOption arg
    else
      match description with
      | none => ofArgs (some arg) optionsEnded rest
      | some _ => .usage

end Request

/-- What a run leaves behind. On standard error the warnings stand between the lines of the
command's own text, each as a record with its time and origin. -/
structure Outcome where
  code : Nat
  stdout : String := ""
  stderr : String := ""
  warnings : List Event := []
  deriving DecidableEq, Repr

namespace Command

def versionText : String := "lsif-client 0.1.0\n"

def usageText : String := "Usage: lsif-client <BUILD_DESCRIPTION>\n"

def helpText : String :=
  "Emit an LSIF document graph for a C# solution\n\n" ++ usageText ++
    "\nArguments:\n  <BUILD_DESCRIPTION>  Solution (.sln) or project (.csproj) file\n" ++
    "\nOptions:\n  -h, --help     Print help\n  -V, --version  Print version\n"

def indented (margin : String) (text : String) : String :=
  String.ofList
    (('\n' :: margin.toList).intercalate (Text.pieces '\n' text.toList))

def numbered (i : Nat) (cause : String) : String :=
  let number := toString i
  let padding := String.ofList (List.replicate (5 - number.length) ' ')
  "\n" ++ padding ++ number ++ ": " ++ indented "       " cause

def causesText : List String → String
  | [] => ""
  | [cause] => "\n\nCaused by:\n    " ++ indented "    " cause
  | causes => "\n\nCaused by:" ++ String.join (causes.mapIdx numbered)

def errorText (e : IndexError) : String := "Error: " ++ e.message ++ causesText e.causes ++ "\n"

/-- Prints the graph of a build description. Of the log only warnings are shown, and no outline
gives one, so no parser is needed. -/
def index (fs : FileSystem) (description : Path) : Outcome :=
  let indexed := Index.build fs (fun _ _ => .blank) .standard description
  let warnings := indexed.events.filter Event.isWarning
  match indexed.value with
  | .ok built =>
    { code := 0
      stdout := built.graph.serialize ++ "\n"
      stderr := built.progress
      warnings := warnings }
  | .error e => { code := 1, stderr := errorText e, warnings := warnings }

def run (fs : FileSystem) (args : List String) : Outcome :=
  match Request.ofArgs none false args with
  | .help => { code := 0, stdout := helpText }
  | .version => { code := 0, stdout := versionText }
  | .usage => { code := 2, stderr := usageText }
  | .index description => index fs (Path.ofString description)

end Command
end CodeAtlas
