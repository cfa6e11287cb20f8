import SchemaModels.Canonical.Error
import SchemaModels.Spec.Table

/-!
# Canonical instances

The canonical form of an instance is the document that a generated model writes back: fields in
declaration order without unknown keys, defaults filled in, other absent fields and nulls left out,
numbers as reals, integral reals as integers where integers are asked for.

* A union value goes to the member whose tag it carries, else to the first member that accepts it.
* A reading descends from one pair of a place in the table and a part of the instance to another,
  so it ends within as many steps as there are such pairs, or not at all (`Table.readingBound`).
* `Table.canonicalAs`, `Table.canonical`: the canonical form of an instance of a definition, and of
  the top-level type, with `Table.canonicalText` as its text.
-/

namespace SchemaModels

open Canonical

/-! ### Sizes -/

mutual

/-- The number of values in a value. -/
def Json.size : Json → Nat
  | .array items => 1 + Json.sizeItems items
  | .object entries => 1 + Json.sizeEntries entries
  | .null => 1
  | .bool _ => 1
  | .number _ => 1
  | .string _ => 1

def Json.sizeItems : List Json → Nat
  | [] => 0
  | v :: rest => v.size + Json.sizeItems rest

def Json.sizeEntries : Entries → Nat
  | [] => 0
  | (_, v) :: rest => v.size + Json.sizeEntries rest

end

/-- The specifications in some part of a table, and the values in their defaults and constants. -/
structure Extent where
  specs : Nat
  values : Nat

namespace Extent

def zero : Extent := ⟨0, 0⟩

def add (a b : Extent) : Extent := ⟨a.specs + b.specs, a.values + b.values⟩

end Extent

mutual

def Shape.extent : Shape → Extent
  | .const value => ⟨0, value.size⟩
  | .array item => item.extent
  | .tuple items => Spec.extentAll items
  | .map none => .zero
  | .map (some value) => value.extent
  | .union members _ => Spec.extentAll members
  | .primitive _ => .zero
  | .literal _ => .zero
  | .reference _ => .zero
  | .any => .zero

def Spec.extent : Spec → Extent
  | ⟨shape, _, default, _, _⟩ => shape.extent.add ⟨1, (default.map Json.size).getD 0⟩

def Spec.extentAll : List Spec → Extent
  | [] => .zero
  | s :: rest => s.extent.add (Spec.extentAll rest)

end

/-- The extent of a definition, which counts as a place of its own. -/
def Definition.extent (d : Definition) : Extent :=
  Extent.add ⟨1, 0⟩ <|
    match d.kind with
    | .object record => Spec.extentAll (record.fields.map Prod.snd)
    | .typeAlias spec => spec.extent
    | _ => .zero

def Table.extent (t : Table) : Extent :=
  t.definitions.foldr (fun d e => d.extent.add e) .zero

/-- The number of steps within which a reading of an instance ends, if it does. -/
def Table.readingBound (t : Table) (v : Json) : Nat :=
  t.extent.specs * (v.size + t.extent.values) + 1

namespace Canonical

/-- The result of reading a value. -/
abbrev Reading := Except CanonicalError Json

/-! ### Scalars -/

/-- A scalar of a kind. -/
def scalar (kind : Primitive) (v : Json) (path : Path) : Reading :=
  match kind, v with
  | .string, .string _ => .ok v
  | .boolean, .bool _ => .ok v
  | .number, .number n =>
      match n.toReal? with
      | some x => .ok (.number (.real x))
      | none => .error (.mismatch path .number)
  | .integer, .number n =>
      match n.toInteger? with
      | some i => .ok (.number (.integer i))
      | none => .error (.mismatch path .integer)
  | .string, _ => .error (.mismatch path .string)
  | .integer, _ => .error (.mismatch path .integer)
  | .number, _ => .error (.mismatch path .number)
  | .boolean, _ => .error (.mismatch path .boolean)

/-! ### Unions -/

/-- Whether a definition is a record that declares a field as the given constant. -/
def isTagged (tag : String) (actual : Json) (d : Definition) : Bool :=
  ((d.record?.bind (·.field? tag)).bind (·.shape.asConst?)).any (·.same actual)

/-- The member whose tag a value carries. -/
def taggedMember (t : Table) (members : List String) (tag : String) (v : Json) : Option String :=
  (v.get? tag).bind fun actual => members.find? fun m => (t.get? m).any (isTagged tag actual)

/-- The names of members that are all bare references. -/
def memberNames (members : List Spec) : Option (List String) :=
  members.mapM fun m => m.shape.asReference?

/-- The first reading that succeeds. One that does not end is an answer as well. -/
def firstAccepted {α : Type} (attempt : α → Reading) (refusal : CanonicalError) :
    List α → Reading
  | [] => .error refusal
  | m :: rest =>
      match attempt m with
      | .ok w => .ok w
      | .error .endless => .error .endless
      | .error _ => firstAccepted attempt refusal rest

/-! ### Records -/

/-- The value that stands for an absent field: its default, or the constant of a field that may be
left out. A null default is none. -/
def impliedValue (s : Spec) (required : Bool) : Option Json :=
  match s.default, s.shape with
  | some value, _ => if value.isNull then none else some value
  | none, .const value => if required then none else some value
  | none, _ => none

/-- The value of a field: what is given, unless it is null, else what is implied. -/
def fieldValue (given : Option Json) (s : Spec) (required : Bool) : Option Json :=
  (given.filter fun v => !v.isNull).or (impliedValue s required)

/-- A place in a table: a definition, or a specification. -/
inductive Place where
  | definition (name : String)
  | spec (s : Spec)

section read
variable (t : Table) (read : Place → Json → Path → Reading)

/-- The canonical fields of a record. -/
def readFields (record : Record) (given : Entries) (path : Path) :
    List (String × Spec) → Except CanonicalError Entries
  | [] => .ok []
  | (name, s) :: rest =>
      let at_ := Step.key name :: path
      let required := record.isRequired name
      match fieldValue (Entries.get? given name) s required with
      | some v => do
          let w ← read (.spec s) v at_
          let others ← readFields record given path rest
          return (name, w) :: others
      | none =>
          if required then .error (.mismatch at_ (.field name))
          else readFields record given path rest

/-- The canonical items of a list. -/
def readItems (path : Path) (index : Nat) : List (Spec × Json) → Except CanonicalError (List Json)
  | [] => .ok []
  | (s, v) :: rest => do
      let w ← read (.spec s) v (.index index :: path)
      let others ← readItems path (index + 1) rest
      return w :: others

/-- The canonical entries of a dictionary, without nulls. -/
def readEntries (value : Option Spec) (path : Path) : Entries → Except CanonicalError Entries
  | [] => .ok []
  | (key, v) :: rest =>
      if v.isNull then readEntries value path rest
      else do
        let w ← match value with
          | some s => read (.spec s) v (.key key :: path)
          | none => .ok v
        let others ← readEntries value path rest
        return (key, w) :: others

/-- An instance of a definition. -/
def readDefinition (name : String) (v : Json) (path : Path) : Reading :=
  match (t.get? name).map Definition.kind with
  | none => .error (.unknownDefinition name)
  | some (.enum values) =>
      if (v.asString?).any values.contains then .ok v
      else .error (.mismatch path (.enumValue name))
  | some (.object record) =>
      match v with
      | .object given => (readFields read record given path record.fields).map .object
      | _ => .error (.mismatch path (.objectOf name))
  | some (.union members discriminator) =>
      match discriminator.bind fun tag => taggedMember t members tag v with
      | some member => read (.definition member) v path
      | none =>
          firstAccepted (fun m => read (.definition m) v path)
            (.noMatchingMember path (some name)) members
  | some (.typeAlias s) => read (.spec s) v path

/-- A value of an inline union. -/
def readUnion (members : List Spec) (discriminator : Option String) (v : Json) (path : Path) :
    Reading :=
  let tagged := (memberNames members).bind fun names =>
    discriminator.bind fun tag => taggedMember t names tag v
  match tagged with
  | some member => read (.definition member) v path
  | none => firstAccepted (fun m => read (.spec m) v path) (.noMatchingMember path none) members

/-- A value, not null, of a shape. -/
def readShape (shape : Shape) (v : Json) (path : Path) : Reading :=
  match shape with
  | .primitive kind => scalar kind v path
  | .literal values => if v.among values then .ok v else .error (.mismatch path (.oneOf values))
  | .const value => if v.same value then .ok v else .error (.mismatch path (.constant value))
  | .array item =>
      match v with
      | .array items => (readItems read path 0 (items.map fun w => (item, w))).map .array
      | _ => .error (.mismatch path .array)
  | .tuple specs =>
      match v with
      | .array items =>
          if items.length = specs.length then
            (readItems read path 0 (List.zip specs items)).map .array
          else .error (.mismatch path (.arrayOf specs.length))
      | _ => .error (.mismatch path (.arrayOf specs.length))
  | .map value =>
      match v with
      | .object entries => (readEntries read value path entries).map .object
      | _ => .error (.mismatch path .object)
  | .reference name => read (.definition name) v path
  | .union members discriminator => readUnion t read members discriminator v path
  | .any => .ok v

/-- A value of a specification. -/
def readSpec (s : Spec) (v : Json) (path : Path) : Reading :=
  if v.isNull then
    if s.nullable || s.shape.isAny then .ok .null else .error (.mismatch path .nonNull)
  else readShape t read s.shape v path

/-- One step of a reading. -/
def readPlace (place : Place) (v : Json) (path : Path) : Reading :=
  match place with
  | .definition name => readDefinition t read name v path
  | .spec s => readSpec t read s v path

end read

/-- A reading of at most a number of nested steps. -/
def readWithin (t : Table) : Nat → Place → Json → Path → Reading
  | 0, _, _, _ => .error .endless
  | steps + 1, place, v, path => readPlace t (readWithin t steps) place v path

end Canonical

namespace Table
variable (t : Table)

/-- The canonical form of an instance of a definition, at a place of a document. -/
def canonicalAt (name : String) (v : Json) (path : Path) : Reading :=
  readWithin t (t.readingBound v) (.definition name) v path

/-- The canonical form of an instance of a definition. -/
def canonicalAs (name : String) (v : Json) : Reading := t.canonicalAt name v []

/-- The canonical form of a field of the top-level type. -/
def canonicalField (es : Entries) (field type : String) : Reading :=
  match (Entries.get? es field).filter fun v => !v.isNull with
  | some v => t.canonicalAt type v [.key field]
  | none => .error (.mismatch [.key field] (.field field))

/-- The canonical form of an instance of the top-level type. -/
def canonical (v : Json) : Reading :=
  match v with
  | .object es => do
      let metadata ← t.canonicalField es "metadata" t.root.metadataType
      let tree ← t.canonicalField es "root" t.root.rootType
      return .object [("metadata", metadata), ("root", tree)]
  | _ => .error (.mismatch [] .rootObject)

/-- The text of the canonical form of an instance of the top-level type. -/
def canonicalText (v : Json) : Except CanonicalError String := (t.canonical v).map Json.pretty

end Table

end SchemaModels
