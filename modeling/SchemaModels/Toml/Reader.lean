import SchemaModels.Toml.Draft
import SchemaModels.Toml.Quoted
import SchemaModels.Toml.Scalar

/-!
# Reading TOML

A text is a sequence of statements, one a line: headers of tables in brackets, headers of further
tables of a list in double brackets, and entries with dotted keys. Comments begin with a number sign
and end with their line; lists and tables in brackets and braces go over lines and nest at most
`nestingLimit` deep. Each step gives the rest of the text after what it read.

* `Toml.ofText?`: the table of a text, if it has one.
-/

namespace SchemaModels.Toml

/-! ### Blanks and comments -/

/-- The rest of a text after blanks, line ends and comments, of which one may have begun. -/
def skipBlanksFrom : Bool → List Char → Option (List Char)
  | _, [] => some []
  | inComment, c :: s =>
      if c = '\n' then skipBlanksFrom false s
      else if c = '\r' then if s.head? = some '\n' then skipBlanksFrom false s else none
      else if inComment then if isPlain c then skipBlanksFrom true s else none
      else if c = '#' then skipBlanksFrom true s
      else if isInline c then skipBlanksFrom false s
      else some (c :: s)

/-- The rest of a text after blanks, line ends and comments. -/
def skipBlanks (s : List Char) : Option (List Char) := skipBlanksFrom false s

/-- The rest of a text after the blanks within a line. -/
def skipInline (s : List Char) : List Char := s.dropWhile isInline

/-- Whether nothing but a comment stands before the next line. -/
def atLineEnd (s : List Char) : Bool :=
  match skipInline s with
  | [] => true
  | c :: _ => c = '\n' || c = '\r' || c = '#'

/-! ### Keys -/

/-- The characters of keys without quotes. -/
def isBare (c : Char) : Bool := c.isAlphanum || c = '_' || c = '-'

/-- A part of a key. -/
def readPart : List Char → Option (String × List Char)
  | '"' :: s => (readBasic s).map fun r => (String.ofList r.1, r.2)
  | '\'' :: s => (readLiteral s).map fun r => (String.ofList r.1, r.2)
  | s =>
      let part := s.takeWhile isBare
      if part.isEmpty then none else some (String.ofList part, s.drop part.length)

/-- The parts of a key with points between them; the number of steps bounds them. -/
def readParts : Nat → List Char → Option (List String × List Char)
  | 0, _ => none
  | steps + 1, s => do
      let (part, s) ← readPart s
      match skipInline s with
      | '.' :: s => do
          let (parts, s) ← readParts steps (skipInline s)
          some (part :: parts, s)
      | s => some ([part], s)

/-- A key, and the rest of the text after the blanks that follow it. -/
def readKey (s : List Char) : Option (Path × List Char) := do
  let (parts, s) ← readParts (s.length + 1) s
  let path ← Path.ofParts parts
  some (path, s)

/-! ### Values -/

/-- A comma, or the end of a container by its closing bracket. A comma may stand before the end. -/
def readSeparator (closing : Char) (s : List Char) : Option (Bool × List Char) := do
  match ← skipBlanks s with
  | ',' :: s =>
      match ← skipBlanks s with
      | c :: s => some (if c = closing then (false, s) else (true, c :: s))
      | [] => none
  | c :: s => if c = closing then some (false, s) else none
  | [] => none

section containers
variable (value : List Char → Option (Toml × List Char))

/-- An entry: a key, an equals sign and a value. -/
def readEntry (s : List Char) : Option ((Path × Toml) × List Char) := do
  let (path, s) ← readKey s
  let (v, s) ← value (skipInline (← readMark '=' s))
  some ((path, v), s)

/-- The items of a container that has at least one. -/
def readItems {α : Type} (item : List Char → Option (α × List Char)) (closing : Char) :
    Nat → List Char → Option (List α × List Char)
  | 0, _ => none
  | steps + 1, s => do
      let (a, s) ← item s
      let (more, s) ← readSeparator closing s
      if more then
        let (rest, s) ← readItems item closing steps s
        some (a :: rest, s)
      else some ([a], s)

/-- The items of a container, after its opening bracket. -/
def readContainer {α : Type} (item : List Char → Option (α × List Char)) (closing : Char)
    (s : List Char) : Option (List α × List Char) := do
  match ← skipBlanks s with
  | [] => none
  | c :: s => if c = closing then some ([], s) else readItems item closing (s.length + 1) (c :: s)

/-- A list, after its opening bracket. -/
def readList (s : List Char) : Option (Toml × List Char) :=
  (readContainer value ']' s).map fun r => (.list r.1, r.2)

/-- A table in braces, after its opening brace. -/
def readTable (s : List Char) : Option (Toml × List Char) := do
  let (entries, s) ← readContainer (readEntry value) '}' s
  let table ← ofEntries entries
  some (table, s)

end containers

/-- A value whose containers nest at most `depth` deep. -/
def readValue (depth : Nat) (s : List Char) : Option (Toml × List Char) :=
  match s with
  | [] => none
  | c :: rest =>
      if c = '"' ∨ c = '\'' then (readQuoted s).map fun r => (text (String.ofList r.1), r.2)
      else if c = '[' then
        match depth with
        | 0 => none
        | depth + 1 => readList (fun t => readValue depth t) rest
      else if c = '{' then
        match depth with
        | 0 => none
        | depth + 1 => readTable (fun t => readValue depth t) rest
      else
        let word := readWord s
        (ofWord? word.1).map fun v => (v, word.2)

/-- How deep containers nest at most. -/
def nestingLimit : Nat := 80

/-! ### Statements -/

/-- A statement. -/
def readStatement : List Char → Option (Statement × List Char)
  | '[' :: '[' :: s => do
      let (path, s) ← readKey (skipInline s)
      let s ← readMark ']' s
      let s ← readMark ']' s
      some (.element path, s)
  | '[' :: s => do
      let (path, s) ← readKey (skipInline s)
      let s ← readMark ']' s
      some (.header path, s)
  | s => (readEntry (readValue nestingLimit) s).map fun r => (.entry r.1.1 r.1.2, r.2)

/-- The statements of a text; the number of steps bounds them. -/
def readStatements : Nat → List Char → Option (List Statement)
  | 0, _ => none
  | steps + 1, s => do
      match ← skipBlanks s with
      | [] => some []
      | s =>
          let (first, s) ← readStatement s
          if atLineEnd s then
            let rest ← readStatements steps s
            some (first :: rest)
          else none

/-- The text without the byte order mark it begins with. -/
def dropMark : List Char → List Char
  | '\uFEFF' :: s => s
  | s => s

/-- The table of a text. -/
def ofChars? (s : List Char) : Option Toml :=
  (readStatements (s.length + 1) (dropMark s)).bind ofStatements

/-- The table of a text. -/
def ofText? (s : String) : Option Toml := ofChars? s.toList

end SchemaModels.Toml
