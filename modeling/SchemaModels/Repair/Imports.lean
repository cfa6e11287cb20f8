import SchemaModels.Text.Cut
import SchemaModels.Text.Pattern
import SchemaModels.Text.Word

/-!
# The unused wrapper import

The name of the wrapper class is taken out of the import statements of its module when no other
part of a text uses it as a word. A statement left with no names goes altogether.

* `dropUnused`: the text, and whether a name was dropped.
-/

namespace SchemaModels.Repair

open Text Pattern

/-- The name that is dropped. -/
def wrapperName : List Char := "RootModel".toList

/-- How the import statements begin. -/
def importHead : List Char := "from pydantic import ".toList

/-- An import statement on lines of its own: whether its names are in brackets, and their text. -/
structure ImportStatement where
  bracketed : Bool
  names : List Char

/-- The end of a line, after inline blanks. -/
def atLineEnd? (s : List Char) : Option (List Char) :=
  let rest := s.dropWhile fun c => c = ' ' || c = '\t'
  match rest with
  | [] => some []
  | c :: _ => if c = '\n' then some rest else none

/-- The names of an import statement, and the rest of the text after it. -/
def readImport (s : List Char) : Option (ImportStatement × List Char) :=
  match s with
  | '(' :: s =>
      match s.dropWhile (· != ')') with
      | [] => none
      | _ :: rest => (atLineEnd? rest).map fun rest => (⟨true, s.takeWhile (· != ')')⟩, rest)
  | s =>
      let names := s.takeWhile fun c => c != '\n' && c != '('
      match s.drop names.length with
      | '(' :: _ => none
      | rest => some (⟨false, names⟩, rest)

/-- The import statement that a line begins with. -/
def findImport : Finder ImportStatement := fun lineStart s =>
  if lineStart then (dropPrefix? importHead s).bind readImport else none

/-- A text cut at its import statements. -/
def cutImports (s : List Char) : List (Piece ImportStatement) := cut findImport s

/-! ### Words -/

/-- Whether a text, after a given character, has a word in it. -/
def hasWordAfter (w : List Char) (before : Option Char) : List Char → Bool
  | [] => false
  | c :: s =>
      (match dropPrefix? w (c :: s) with
        | some rest => isBoundary before w.head? && isBoundary w.getLast? rest.head?
        | none => false) || hasWordAfter w (some c) s

/-- Whether a text has a word in it. -/
def hasWord (w s : List Char) : Bool := hasWordAfter w none s

/-- The text outside of its import statements. -/
def outside (pieces : List (Piece ImportStatement)) : List Char :=
  replaceSpans (fun _ _ => []) pieces

/-! ### Dropping the name -/

namespace ImportStatement
variable (i : ImportStatement)

/-- The names that a statement lists. -/
def listed : List (List Char) :=
  ((pieces ',' i.names).map trimBlank).filter fun n => !n.isEmpty

/-- The names that stay. -/
def kept : List (List Char) := i.listed.filter (· != wrapperName)

/-- Whether a statement lists the wrapper's name. -/
def lists : Bool := i.kept.length != i.listed.length

/-- The statement of the names that stay. -/
def keptText : List Char :=
  if i.bracketed then
    importHead ++ "(\n".toList ++
      (i.kept.flatMap fun n => "    ".toList ++ n ++ ",\n".toList) ++ [')']
  else importHead ++ List.intercalate ", ".toList i.kept

end ImportStatement

/-- The text of a text's statements with the wrapper's name dropped. -/
def withoutName (pieces : List (Piece ImportStatement)) : List Char :=
  replaceSpans (fun text i => if i.lists then i.keptText else text) pieces

/-- A text without import statements that list no name. -/
def removeEmptyImports (s : List Char) : List Char :=
  replaceAll (importHead ++ ['\n']) [] (replaceAll (importHead ++ "(\n)\n".toList) [] s)

/-- The text with the wrapper's name dropped unless it is in use, and whether it was dropped. -/
def dropUnused (s : List Char) : List Char × Bool :=
  let pieces := cutImports s
  if hasWord wrapperName (outside pieces) then (s, false)
  else if pieces.any fun p => p.found?.any ImportStatement.lists then
    (removeEmptyImports (withoutName pieces), true)
  else (s, false)

end SchemaModels.Repair
