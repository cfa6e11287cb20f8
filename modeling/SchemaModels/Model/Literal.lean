import SchemaModels.Json.Basic
import SchemaModels.Text.Escape
import SchemaModels.Text.Lines

/-!
# Literals of models

Texts of values as Python literals.

* `literal`: the literal that denotes a JSON value.
* `pattern`: a string literal for a regular expression, raw where a raw literal can hold it: no
  quote, no line feed, no odd run of backslashes at the end.
* `docstring`: a description between triple quotes.
-/

namespace SchemaModels.Model

open Text

/-! ### Values -/

mutual

/-- The literal of a JSON value. -/
def literal : Json → String
  | .null => "None"
  | .bool b => if b then "True" else "False"
  | .number n => String.ofList n.text
  | .string s => quoted s
  | .array items => "[" ++ String.intercalate ", " (literals items) ++ "]"
  | .object entries => "\x7b" ++ String.intercalate ", " (literalEntries entries) ++ "\x7d"

def literals : List Json → List String
  | [] => []
  | v :: rest => literal v :: literals rest

def literalEntries : Entries → List String
  | [] => []
  | (k, v) :: rest => (quoted k ++ ": " ++ literal v) :: literalEntries rest

end

theorem literals_eq_map (items : List Json) : literals items = items.map literal := by
  induction items with
  | nil => rfl
  | cons v rest ih => rw [literals, ih, List.map_cons]

/-! ### Patterns -/

/-- The number of backslashes at the end of a text. -/
def trailingBackslashes (s : List Char) : Nat := (s.reverse.takeWhile (· == '\\')).length

/-- Whether a raw literal cannot hold a text. -/
def needsEscapes (s : List Char) : Bool :=
  s.contains '"' || s.contains '\n' || trailingBackslashes s % 2 == 1

/-- The literal of a regular expression. -/
def pattern (source : String) : String :=
  if needsEscapes source.toList then quoted source else "r\"" ++ source ++ "\""

/-! ### Documentation -/

/-- Three quotes in a row. -/
def tripleQuote : List Char := ['"', '"', '"']

/-- A description inside triple quotes: backslashes doubled, each three quotes escaped. -/
def escapeDoc (s : List Char) : List Char :=
  replaceAll tripleQuote ['\\', '"', '\\', '"', '\\', '"']
    (s.flatMap fun c => if c = '\\' then ['\\', '\\'] else [c])

/-- A text whose last character is not a bare quote: a quote at the end is escaped. -/
def guardLast (s : List Char) : List Char :=
  if s.getLast? = some '"' then s.dropLast ++ ['\\', '"'] else s

/-- The content of a docstring. -/
def docContent (description : String) : List Char := guardLast (escapeDoc description.toList)

/-- A docstring at an indentation: on one line if the description has one, else with its lines
between the quotes. -/
def docstring (indent description : String) : String :=
  let content := docContent description
  let opening := indent ++ "\"\"\""
  match lines content with
  | [] | [_] => opening ++ String.ofList content ++ "\"\"\""
  | more =>
      String.intercalate "\n" ((opening :: more.map fun line =>
        if line.isEmpty then "" else indent ++ String.ofList line) ++ [opening])

end SchemaModels.Model
