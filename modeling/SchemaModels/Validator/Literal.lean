import SchemaModels.Text.Escape
import SchemaModels.Text.Lines

/-!
# Literals of validators

Texts as parts of TypeScript code.

* `regexBody`: a regular expression between slashes.
* `jsdoc`: a description as a documentation comment, which it cannot end.
-/

namespace SchemaModels.Validator

open Text

/-- The text of a regular expression between slashes. -/
def regexBody (source : String) : String :=
  String.ofList (source.toList.flatMap fun c => if c = '/' then ['\\', '/'] else [c])

/-- A text in which nothing ends a comment. -/
def guardComment (s : List Char) : List Char := replaceAll ['*', '/'] ['*', '\\', '/'] s

/-- A description as a documentation comment: on one line if it has one, else a line each. -/
def jsdoc (description : String) : String :=
  let content := guardComment description.toList
  match lines content with
  | [] | [_] => "/** " ++ String.ofList content ++ " */"
  | more =>
      String.intercalate "\n" (("/**" :: more.map fun line =>
        if line.isEmpty then " *" else " * " ++ String.ofList line) ++ [" */"])

end SchemaModels.Validator
