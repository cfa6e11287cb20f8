import SchemaModels.Text.Cut
import SchemaModels.Text.Pattern

/-!
# Union groups

Other generators render a union with a discriminator as a class around a single field:
`class NAME(RootModel[Union[…]]): root: Union[…] = Field(..., discriminator='TAG')`. A group names
such a class, its members and its tag; its wrapper is recognized in any layout and is replaced by
an alias.

* `Group.wrapper`: the pattern of a group's class.
* `Group.unwrap`: the text with wrappers replaced, and whether there was one.
-/

namespace SchemaModels.Repair

open Text Pattern

/-- A union that is rendered as a class. -/
structure Group where
  name : String
  members : List String
  discriminator : String := "type"
  deriving DecidableEq

namespace Group

/-- The groups of interface schemas. -/
def defaults : List Group :=
  [{ name := "EventAction"
     members := ["NavigateAction", "SetStateAction", "SubmitFormAction", "ValidateAction",
       "CustomAction"] },
   { name := "Node"
     members := ["ButtonNode", "InputNode", "TextareaNode", "TextNode", "CardNode", "AlertNode",
       "ContainerNode", "GridNode", "StackNode", "ChartNode"] }]

variable (g : Group)

/-- Names with commas between them. -/
def memberList : List String → List Pattern
  | [] => []
  | [m] => [word m.toList]
  | m :: rest => word m.toList :: blanks :: word [','] :: blanks :: memberList rest

/-- The union of a group's members. -/
def unionOf : Pattern :=
  sequence (word "Union[".toList :: blanks :: memberList g.members ++ [optionalComma, word [']']])

/-- A description argument with its comma. -/
def descriptionArgument : Pattern :=
  sequence [blanks, word "description".toList, blanks, word ['='], blanks, quotedText, blanks,
    word [',']]

/-- The class of a group. -/
def wrapper : Pattern :=
  sequence
    [word "class".toList, someBlanks, word g.name.toList, word ['('], blanks,
     word "RootModel[".toList, blanks, g.unionOf, blanks, word [']'], blanks, word [')'], blanks,
     word [':'], blanks, word "root".toList, blanks, word [':'], blanks, g.unionOf, blanks,
     word ['='], blanks, word "Field(".toList, blanks, word "...".toList, blanks, word [','],
     optional descriptionArgument, blanks, word "discriminator".toList, blanks, word ['='], blanks,
     oneOf ['\'', '"'], word g.discriminator.toList, oneOf ['\'', '"'], optionalComma, word [')']]

/-- The alias that stands for a group's class. -/
def aliasText : List Char :=
  g.name.toList ++ " = Union[\n".toList ++
    (g.members.flatMap fun m => "    ".toList ++ m.toList ++ ",\n".toList) ++ [']']

/-- The class of a group at a place. -/
def findWrapper : Finder Unit := fun _ s => (g.wrapper.rest? s).map fun rest => ((), rest)

/-- A text cut at the classes of a group. -/
def cutWrappers (s : List Char) : List (Piece Unit) := cut g.findWrapper s

/-- The text with the classes of a group replaced, and whether there was one. -/
def unwrap (s : List Char) : List Char × Bool :=
  let pieces := g.cutWrappers s
  (replaceSpans (fun _ _ => g.aliasText) pieces, pieces.any fun p => p.found?.isSome)

end Group

end SchemaModels.Repair
