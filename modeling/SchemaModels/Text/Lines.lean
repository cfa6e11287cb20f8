/-!
# Lines and pieces of a text

* `lines`: a text cut after each line feed. A carriage return right before the line feed goes
  with it, and nothing stands for the empty text after a last line feed.
* `findLine?`: the first line that passes a test; no line after it is cut.
* `pieces`: a text cut at a separator.
* `Text.replaceAll`: every occurrence of one text replaced by another, from left to right.
-/

namespace SchemaModels.Text

/-! ### Lines -/

/-- A reversed line without the carriage return that ended it. -/
def dropReturn : List Char → List Char
  | '\r' :: line => line
  | line => line

/-- The lines of a text whose current line, reversed, began before it. -/
def linesFrom (line : List Char) : List Char → List (List Char)
  | [] => if line.isEmpty then [] else [line.reverse]
  | c :: rest =>
      if c = '\n' then (dropReturn line).reverse :: linesFrom [] rest
      else linesFrom (c :: line) rest

/-- The lines of a text. -/
def lines (s : List Char) : List (List Char) := linesFrom [] s

/-- The first line that passes a test, of a text whose current line, reversed, began before it. -/
def findLineFrom? (p : List Char → Bool) (line : List Char) : List Char → Option (List Char)
  | [] => if !line.isEmpty && p line.reverse then some line.reverse else none
  | c :: rest =>
      if c = '\n' then
        let ended := (dropReturn line).reverse
        if p ended then some ended else findLineFrom? p [] rest
      else findLineFrom? p (c :: line) rest

/-- The first line of a text that passes a test. -/
def findLine? (p : List Char → Bool) (s : List Char) : Option (List Char) := findLineFrom? p [] s

theorem findLineFrom?_eq (p : List Char → Bool) (line s : List Char) :
    findLineFrom? p line s = (linesFrom line s).find? p := by
  fun_induction linesFrom line s <;> grind [findLineFrom?]

theorem findLine?_eq (p : List Char → Bool) (s : List Char) :
    findLine? p s = (lines s).find? p :=
  findLineFrom?_eq p [] s

/-- The lines of a text, as texts. -/
def linesOf (s : String) : List String := (lines s.toList).map String.ofList

/-! ### Pieces -/

/-- The pieces of a text whose current piece, reversed, began before it. -/
def piecesFrom (separator : Char) (piece : List Char) : List Char → List (List Char)
  | [] => [piece.reverse]
  | c :: s =>
      if c = separator then piece.reverse :: piecesFrom separator [] s
      else piecesFrom separator (c :: piece) s

/-- The pieces of a text between separators. -/
def pieces (separator : Char) (s : List Char) : List (List Char) := piecesFrom separator [] s

/-! ### Replacing -/

/-- The text after a leading occurrence of a pattern, if it begins with one. -/
def dropPrefix? : List Char → List Char → Option (List Char)
  | [], s => some s
  | _ :: _, [] => none
  | p :: ps, c :: s => if p = c then dropPrefix? ps s else none

theorem dropPrefix?_eq_some_iff {pattern s rest : List Char} :
    dropPrefix? pattern s = some rest ↔ s = pattern ++ rest := by
  fun_induction dropPrefix? pattern s with
  | case1 s => simp
  | case2 => simp
  | case3 ps c s ih => simp [ih]
  | case4 p ps c s h => simp [Ne.symm h]

/-- Replace each occurrence of a pattern; the number of steps bounds the walk. -/
def replaceWithin (pattern replacement : List Char) : Nat → List Char → List Char
  | 0, s => s
  | _, [] => []
  | steps + 1, c :: s =>
      match dropPrefix? pattern (c :: s) with
      | some rest => replacement ++ replaceWithin pattern replacement steps rest
      | none => c :: replaceWithin pattern replacement steps s

/-- The text with every occurrence of a pattern that is not empty replaced, from left to right. -/
def replaceAll (pattern replacement s : List Char) : List Char :=
  replaceWithin pattern replacement s.length s

/-- Whether a pattern occurs in a text. -/
def contains (pattern : List Char) : List Char → Bool
  | [] => pattern.isEmpty
  | c :: s => (dropPrefix? pattern (c :: s)).isSome || contains pattern s

end SchemaModels.Text
