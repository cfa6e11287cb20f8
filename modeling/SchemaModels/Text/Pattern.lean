import SchemaModels.Text.Blank
import SchemaModels.Text.Lines

/-!
# Patterns

A pattern tells, of a text that begins with it, the rests after it: all of them, the preferred one
first. Runs of blanks prefer to be long, optional parts prefer to be there.

* `Pattern.sequence`: patterns one after the other.
* `Pattern.rest?`: the rest after the preferred way to read a pattern.
-/

namespace SchemaModels.Text

/-- The rests of a text after what is recognized, the preferred one first. -/
abbrev Pattern := List Char → List (List Char)

namespace Pattern

/-- A given text. -/
def word (w : List Char) : Pattern := fun s => (dropPrefix? w s).toList

/-- One of some characters. -/
def oneOf (cs : List Char) : Pattern
  | [] => []
  | c :: s => if cs.contains c then [s] else []

/-- A run of blanks, or nothing. -/
def blanks : Pattern
  | [] => [[]]
  | c :: s => if isBlank c then blanks s ++ [c :: s] else [c :: s]

theorem suffix_of_mem_blanks {s rest : List Char} (h : rest ∈ blanks s) : rest <:+ s := by
  induction s with
  | nil => simp_all [blanks]
  | cons c s ih =>
      simp only [blanks] at h
      split at h
      · rcases List.mem_append.mp h with h | h
        · exact (ih h).trans (List.suffix_cons c s)
        · simp_all
      · simp_all

/-- A run of at least one blank. -/
def someBlanks : Pattern
  | [] => []
  | c :: s => if isBlank c then blanks s else []

/-- A pattern after another one. -/
def followedBy (p q : Pattern) : Pattern := fun s => (p s).flatMap q

/-- Patterns one after the other. -/
def sequence : List Pattern → Pattern
  | [] => fun s => [s]
  | p :: ps => followedBy p (sequence ps)

/-- A pattern, or nothing. -/
def optional (p : Pattern) : Pattern := fun s => p s ++ [s]

/-- Blanks with a comma among them or without one. -/
def optionalComma : Pattern := followedBy blanks (optional (followedBy (word [',']) blanks))

/-- A text between two like quotes. -/
def quotedBy (quote : Char) : Pattern
  | [] => []
  | c :: s =>
      if c = quote then
        match s.dropWhile (· != quote) with
        | [] => []
        | _ :: rest => [rest]
      else []

/-- A text between single or between double quotes. -/
def quotedText : Pattern := fun s => quotedBy '\'' s ++ quotedBy '"' s

/-- The rest after the preferred way to read a pattern. -/
def rest? (p : Pattern) (s : List Char) : Option (List Char) := (p s).head?

end Pattern

end SchemaModels.Text
