import SchemaModels.Plan.Basic
import SchemaModels.Text.Lines
import SchemaModels.Text.Sorted
import SchemaModels.Unit.Settings

/-!
# Declarations

A declaration is the code of a definition with what the plan says of it and the constructs it
uses. Declarations are exported by group, each group under a heading.

* `exportLines`: the lines of an export list.
* `Imports`: constructs by the module that provides them.
-/

namespace SchemaModels

/-! ### Imports -/

/-- A construct of the target and the module that provides it. -/
structure Import where
  source : String
  name : String
  deriving DecidableEq

/-- The constructs that code uses, in any order and with repetitions. -/
abbrev Imports := List Import

namespace Imports

/-- The modules that provide constructs, in order. -/
def sources (imports : Imports) : List String := Text.sorted (imports.map Import.source)

/-- The constructs that a module provides, in order. -/
def names (imports : Imports) (source : String) : List String :=
  Text.sorted ((imports.filter fun i => i.source = source).map Import.name)

end Imports

/-! ### Mentions -/

/-- The name of a definition in code, and whether it is written for later, as has to be done
before its declaration. -/
structure Mention where
  name : String
  deferred : Bool
  deriving DecidableEq

/-! ### Declarations -/

/-- The code of a definition. -/
structure Declaration where
  name : String
  category : Section
  exportGroup : Section
  code : String
  dependencies : List String
  forwardRefs : List String
  imports : Imports

namespace Declaration

/-- The declaration of a planned definition. -/
def ofPlanned (p : Planned) (code : String) (imports : Imports) : Declaration :=
  { name := p.name
    category := p.category
    exportGroup := p.exportGroup
    code
    dependencies := p.dependencies
    forwardRefs := p.forwardRefs
    imports }

/-- The declaration of the top-level type. -/
def ofRoot (root : Root) (code : String) (imports : Imports) : Declaration :=
  { name := root.name
    category := .schema
    exportGroup := .schema
    code
    dependencies := [root.metadataType, root.rootType]
    forwardRefs := []
    imports }

end Declaration

/-! ### Exports -/

/-- A name in the export list, with its group. -/
abbrev Export := String × Section

def Declaration.export_ (d : Declaration) : Export := (d.name, d.exportGroup)

/-- The groups of exports, in order, with their headings. -/
def exportGroups : List (Section × String) :=
  [(.enums, "Enums"), (.actions, "Actions"), (.props, "Props"), (.components, "Components"),
   (.schema, "Schema")]

/-- The names of a group, in order. -/
def namesIn (exports : List Export) (group : Section) : List String :=
  (exports.filter fun e => e.2 = group).map Prod.fst

/-- The lines of each group that has a name: its heading, then its names. -/
def exportBlocks (heading entry : String → String) (exports : List Export) : List (List String) :=
  exportGroups.filterMap fun g =>
    let names := namesIn exports g.1
    if names.isEmpty then none else some (heading g.2 :: names.map entry)

/-- The lines of an export list, an empty line between two groups. -/
def exportLines (heading entry : String → String) (exports : List Export) : List String :=
  List.intercalate [""] (exportBlocks heading entry exports)

/-! ### Banners -/

/-- The width of the rules of a banner. -/
def bannerWidth : Nat := 76

/-- A title between two rules, as comments of a target. -/
def bannerOf (comment title : String) : String :=
  let rule := comment ++ " " ++ String.ofList (List.replicate bannerWidth '=')
  rule ++ "\n" ++ comment ++ " " ++ title ++ "\n" ++ rule

end SchemaModels
