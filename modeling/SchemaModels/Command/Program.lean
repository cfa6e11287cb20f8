import SchemaModels.Command.Arguments
import SchemaModels.Command.Configure
import SchemaModels.Command.Fix
import SchemaModels.Command.Generate
import SchemaModels.Config.Sample

/-!
# Programs

There are two programs: one generates a unit from a schema document, the other repairs a model file.
A program reads its arguments, runs its command and tells what came of it; the lines before a
failure are told too. Wrong arguments and a failed check have exit code 2, all other failures 1.

* `Program.run`: what a program tells, in any monad with files.
-/

namespace SchemaModels.Command

/-- The programs. -/
inductive Program where
  | generator
  | fixer
  deriving DecidableEq

/-- What a program tells. -/
structure Told where
  exit : Nat
  stdout : String
  stderr : String := ""

/-! ### Lines -/

/-- Lines, each with its end. -/
def unlines (lines : List String) : String := String.join (lines.map (· ++ "\n"))

/-- The rule around a preview. -/
def rule : String := String.ofList (List.replicate 60 '─')

/-- What is told of a text that was put in place. -/
def Delivery.text : Delivery → String
  | .written path bytes =>
      unlines ["✓ Written " ++ toString bytes ++ " bytes to " ++ path]
  | .unchanged path => unlines ["✓ " ++ path ++ " already up to date"]
  | .preview path content =>
      unlines ["[dry-run] Would write to " ++ path ++ ":", rule] ++ content ++ unlines [rule]

/-- What is told of a unit. -/
def Generation.text (g : Generation) (output : String) : String :=
  unlines (("  Emitted " ++ toString g.unit.declarations.length ++ " declaration(s)") ::
    g.unit.substitutions.map fun s =>
      "  " ++ s.owner ++ "." ++ s.field ++ ": " ++ s.tupleAlias ++ " typed as list of " ++
        s.record) ++
  match g.delivery with
  | none => unlines ["✓ " ++ output ++ " is up-to-date"]
  | some d => d.text

/-- What is told of a repair. -/
def reportText (r : Repair.Report) : String :=
  unlines
    ((if r.directivesRemoved = 0 then []
      else ["  Removed " ++ toString r.directivesRemoved ++ " extra='forbid' directive(s)"]) ++
    (r.groupsUnwrapped.map fun g => "  ✓ " ++ g ++ " is now a union alias") ++
    (r.groupsMissing.map fun g => "  - " ++ g ++ " wrapper not found, left unchanged") ++
    if r.importDropped then ["  Dropped unused RootModel import"] else [])

/-! ### Arguments -/

namespace Program

def name : Program → String
  | generator => "guigen"
  | fixer => "guigen-fix"

def versionText : String := "0.1.0"

/-- The setting for a configuration file. -/
def configSetting : Setting := { name := "config", letter := some 'c', accepts := isPlace }

/-- The settings and switches of a program. -/
def grammar : Program → Grammar
  | generator =>
      { switches :=
          [{ name := "no-docs" }, { name := "forbid-extra" }, { name := "dry-run" },
           { name := "check" }, { name := "print-config" },
           { name := "verbose", letter := some 'v' }]
        settings :=
          [{ name := "target", letter := some 't', accepts := fun s => (Target.ofName? s).isSome },
           configSetting, { name := "version-marker" }]
        places := 2 }
  | fixer =>
      { switches := [{ name := "dry-run" }, { name := "verbose", letter := some 'v' }]
        settings := [configSetting]
        places := 2 }

/-- How a program is called. -/
def usage : Program → String
  | generator =>
      unlines
        ["Generate Pydantic models or Zod schemas from a UI schema", "",
         "Usage: guigen [OPTIONS] [SCHEMA] [OUTPUT]", "",
         "Arguments:",
         "  [SCHEMA]  Schema document (JSON)",
         "  [OUTPUT]  Generated source file", "",
         "Options:",
         "  -t, --target <TARGET>           Target backend (pydantic, zod)",
         "  -c, --config <CONFIG>           Configuration file path",
         "      --version-marker <VERSION>  Version marker written into the header",
         "      --no-docs                   Leave descriptions out of the generated code",
         "      --forbid-extra              Reject properties that a strict record does not have",
         "      --dry-run                   Preview the output without writing it",
         "      --check                     Compare with the existing output",
         "      --print-config              Print a commented default configuration and exit",
         "  -v, --verbose                   Verbose logging",
         "  -h, --help                      Print help",
         "  -V, --version                   Print version"]
  | fixer =>
      unlines
        ["Rewrite union wrapper classes in generated Pydantic code", "",
         "Usage: guigen-fix [OPTIONS] <INPUT> <OUTPUT>", "",
         "Arguments:",
         "  <INPUT>   Generated Pydantic module",
         "  <OUTPUT>  Rewritten module (may equal the input)", "",
         "Options:",
         "  -c, --config <CONFIG>  Configuration file path",
         "      --dry-run          Preview the output without writing it",
         "  -v, --verbose          Verbose logging",
         "  -h, --help             Print help",
         "  -V, --version          Print version"]

/-! ### Runs -/

/-- What is told when the arguments end a run. -/
def stopped (p : Program) : Stop → Told
  | .version => { exit := 0, stdout := unlines [p.name ++ " " ++ versionText] }
  | .help => { exit := 0, stdout := p.usage }
  | .usage => { exit := 2, stdout := "", stderr := "error: invalid arguments\n\n" ++ p.usage }

/-- What is told of a failure, after some lines. -/
def failed (p : Program) (stdout : String) (e : CommandError) : Told :=
  { exit := e.exitCode
    stdout
    stderr := unlines (("Error: " ++ e.message) ::
      if p = generator ∧ e.isCheckFailure then ["  Run 'guigen' without --check to update"]
      else []) }

/-- What the generator's arguments override. -/
def overrides (a : Arguments) : Overrides :=
  { target := (a.value? "target").bind Target.ofName?
    version := a.value? "version-marker"
    docs := if a.has "no-docs" then some false else none
    forbidExtra := if a.has "forbid-extra" then some true else none }

/-- What happens to the unit. -/
def mode (a : Arguments) : GenerateMode :=
  if a.has "check" then .check else if a.has "dry-run" then .preview else .write

section
variable {m : Type → Type} [Monad m] [FileAccess m]

/-- Run a command between a first line and what is told of its result. -/
def conclude {α : Type} (p : Program) (opening : String) (command : ExceptT CommandError m α)
    (text : α → String) : m Told := do
  match ← command.run with
  | .ok a => return { exit := 0, stdout := opening ++ text a }
  | .error e => return p.failed opening e

/-- Run the generator on a document and an output. -/
def runGenerator (a : Arguments) (schema output : String) : m Told := do
  match ← (configuration (a.value? "config")).run with
  | .error e => return generator.failed "" e
  | .ok c =>
      let c := c.override (overrides a)
      generator.conclude
        (unlines ["Generating from " ++ schema ++ " (" ++ c.target.name ++ ")"])
        (generate c schema output (mode a)) fun g => g.text output

/-- Run the fixer on a file and an output. -/
def runFixer (a : Arguments) (input output : String) : m Told := do
  match ← (configuration (a.value? "config")).run with
  | .error e => return fixer.failed "" e
  | .ok c =>
      fixer.conclude (unlines ["Rewriting " ++ input]) (fix c input output (a.has "dry-run"))
        fun r => reportText r.1 ++ r.2.text

/-- Run a program. -/
def run (p : Program) (args : List String) : m Told := do
  match p, p.grammar.parse args with
  | p, .error stop => return p.stopped stop
  | generator, .ok a =>
      if a.has "dry-run" && a.has "check" then return generator.stopped .usage
      else
        match a.has "print-config", a.places with
        | true, _ => return { exit := 0, stdout := Configuration.sample }
        | false, [schema, output] => runGenerator a schema output
        | false, _ => return generator.stopped .usage
  | fixer, .ok a =>
      match a.places with
      | [input, output] => runFixer a input output
      | _ => return fixer.stopped .usage

end

end Program

end SchemaModels.Command
