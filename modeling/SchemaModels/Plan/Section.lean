/-!
# Sections

Every declaration of a unit belongs to a section. An order of the sections lists each of them
once; it decides between declarations that are ready at the same time.

* `SectionOrder.ofTags`: the order that a list of tags states, or what is wrong with it.
-/

namespace SchemaModels

/-- The categories of declarations. -/
inductive Section where
  | enums
  | actions
  | props
  | unions
  | components
  | schema
  deriving DecidableEq

namespace Section

/-- All sections, in their default order. -/
def all : List Section := [enums, actions, props, unions, components, schema]

/-- The tag of a section in configurations. -/
def tag : Section → String
  | enums => "enums"
  | actions => "actions"
  | props => "props"
  | unions => "unions"
  | components => "components"
  | schema => "schema"

/-- The title of a section in banners. -/
def title : Section → String
  | enums => "ENUMS"
  | actions => "ACTIONS"
  | props => "PROPS"
  | unions => "UNIONS"
  | components => "COMPONENTS"
  | schema => "TOP-LEVEL SCHEMA"

/-- The section with a tag. -/
def ofTag? (tag : String) : Option Section := all.find? fun s => s.tag = tag

theorem ofTag?_tag (s : Section) : ofTag? s.tag = some s := by cases s <;> rfl

end Section

/-- What is wrong with a list of tags. -/
inductive SectionOrderError where
  | unknown (tag : String)
  | missing (s : Section)
  | duplicate (s : Section)

def SectionOrderError.message : SectionOrderError → String
  | unknown tag => "unknown section '" ++ tag ++ "'"
  | missing s => "section '" ++ s.tag ++ "' is missing"
  | duplicate s => "section '" ++ s.tag ++ "' is listed more than once"

/-- An order of the sections. -/
structure SectionOrder where
  sections : List Section := Section.all
  deriving DecidableEq

namespace SectionOrder

/-- The place of a section. -/
def rank (order : SectionOrder) (s : Section) : Nat := order.sections.idxOf s

/-- The first section that also stands before. -/
def firstRepeated (seen : List Section) : List Section → Option Section
  | [] => none
  | s :: rest => if seen.contains s then some s else firstRepeated (s :: seen) rest

/-- The order that a list states: no section twice, none left out. -/
def ofSections (sections : List Section) : Except SectionOrderError SectionOrder :=
  match firstRepeated [] sections, Section.all.find? fun s => !sections.contains s with
  | some s, _ => .error (.duplicate s)
  | none, some s => .error (.missing s)
  | none, none => .ok ⟨sections⟩

/-- The sections that tags name. -/
def sectionsOf (tags : List String) : Except SectionOrderError (List Section) :=
  tags.mapM fun tag =>
    match Section.ofTag? tag with
    | some s => .ok s
    | none => .error (.unknown tag)

/-- The order that a list of tags states. -/
def ofTags (tags : List String) : Except SectionOrderError SectionOrder :=
  sectionsOf tags >>= ofSections

end SectionOrder

end SchemaModels
