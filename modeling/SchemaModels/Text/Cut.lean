/-!
# Cutting a text at what is found in it

A finder looks at the text from some place on, and knows whether a line starts there. A text is cut
from left to right into the spans that are found and the characters between them.

* `cut`: the pieces of a text.
* `Piece.source`: the text of a piece. The pieces of a text make up the text again
  (`flatMap_source_cut`).
-/

namespace SchemaModels.Text

/-- A piece of a text: a character, or a span with what was found in it. -/
inductive Piece (α : Type) where
  | char (c : Char)
  | span (text : List Char) (found : α)

namespace Piece
variable {α : Type}

/-- The text of a piece. -/
def source : Piece α → List Char
  | char c => [c]
  | span text _ => text

/-- What was found in a piece. -/
def found? : Piece α → Option α
  | char _ => none
  | span _ a => some a

end Piece

/-- What is found at a place, with the rest of the text after it. -/
abbrev Finder (α : Type) := (lineStart : Bool) → List Char → Option (α × List Char)

section cut
variable {α : Type} (find : Finder α)

/-- The pieces of a text, found within a number of steps. -/
def cutWithin : Nat → Bool → List Char → List (Piece α)
  | 0, _, s => s.map .char
  | _ + 1, _, [] => []
  | steps + 1, lineStart, c :: s =>
      match find lineStart (c :: s) with
      | some (a, rest) =>
          let text := (c :: s).take ((c :: s).length - rest.length)
          .span text a ::
            cutWithin steps (text.getLast? = some '\n') ((c :: s).drop text.length)
      | none => .char c :: cutWithin steps (c = '\n') s

/-- The pieces of a text. -/
def cut (s : List Char) : List (Piece α) := cutWithin find s.length true s

theorem flatMap_source_cutWithin (steps : Nat) (lineStart : Bool) (s : List Char) :
    (cutWithin find steps lineStart s).flatMap Piece.source = s := by
  induction steps generalizing lineStart s with
  | zero =>
      simp only [cutWithin]
      induction s with
      | nil => rfl
      | cons c s ih => simp [Piece.source, ih]
  | succ steps ih =>
      cases s with
      | nil => rfl
      | cons c s =>
          simp only [cutWithin]
          split
          · rename_i a rest _
            simp only [List.flatMap_cons, ih, Piece.source, List.length_take]
            rw [Nat.min_eq_left (Nat.sub_le _ _)]
            exact List.take_append_drop _ _
          · simp [Piece.source, ih]

theorem flatMap_source_cut (s : List Char) : (cut find s).flatMap Piece.source = s :=
  flatMap_source_cutWithin find _ _ s

/-- The text whose spans are replaced. -/
def replaceSpans (replace : List Char → α → List Char) (pieces : List (Piece α)) : List Char :=
  pieces.flatMap fun p =>
    match p with
    | .char c => [c]
    | .span text a => replace text a

end cut

end SchemaModels.Text
