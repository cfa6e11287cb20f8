import SchemaModels.Text.Cut
import SchemaModels.Text.Pattern

/-!
# Directives that forbid extra fields

Model files of other generators contain the statement `model_config = ConfigDict(extra='forbid')`
in any layout, on lines of its own. It is removed; where the body of its class goes on no further,
`pass` takes its place.

* `removeDirectives`: the text without directives, and their number.
-/

namespace SchemaModels.Repair

open Text Pattern

/-- Blanks within a line. -/
def isInlineBlank (c : Char) : Bool := c = ' ' || c = '\t'

/-- A directive after its indentation, up to its closing bracket. -/
def directive : Pattern :=
  sequence
    [word "model_config".toList, blanks, word ['='], blanks, word "ConfigDict(".toList, blanks,
     word "extra".toList, blanks, word ['='], blanks, oneOf ['\'', '"'], word "forbid".toList,
     oneOf ['\'', '"'], optionalComma, word [')']]

/-- The text after the end of a line, if only inline blanks stand before it. -/
def lineEnd? (s : List Char) : Option (List Char) :=
  match s.dropWhile isInlineBlank with
  | [] => some []
  | c :: rest => if c = '\n' then some rest else none

/-- Whether the next line that is not blank begins with an indentation. -/
def bodyContinues (indent rest : List Char) : Bool :=
  match findLine? (fun line => !(trimBlank line).isEmpty) rest with
  | some line => indent.isPrefixOf line
  | none => false

/-- A directive in a text: its indentation, and whether the body of its class goes on. -/
structure Directive where
  indent : List Char
  continued : Bool

/-- The directive that a line begins with. -/
def findDirective : Finder Directive := fun lineStart s =>
  let indent := s.takeWhile isInlineBlank
  if lineStart && !indent.isEmpty then
    ((directive (s.dropWhile isInlineBlank)).findSome? lineEnd?).map fun rest =>
      (⟨indent, bodyContinues indent rest⟩, rest)
  else none

/-- What stands in the place of a directive. -/
def Directive.replacement (d : Directive) : List Char :=
  if d.continued then [] else d.indent ++ "pass\n".toList

/-- A text cut at its directives. -/
def cutDirectives (s : List Char) : List (Piece Directive) := cut findDirective s

/-- The text without directives, and their number. -/
def removeDirectives (s : List Char) : List Char × Nat :=
  let pieces := cutDirectives s
  (replaceSpans (fun _ d => d.replacement) pieces, (pieces.filterMap Piece.found?).length)

end SchemaModels.Repair
