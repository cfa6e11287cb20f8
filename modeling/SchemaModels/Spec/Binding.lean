import SchemaModels.Spec.Table

/-!
# Binding records

An alias of a list of tuples is often the wire form of a list of records. A field that refers to
such an alias is typed as a list of the first record whose required fields have the shapes of the
tuple's items, one for one.

* `Table.bindRecords`: the table with those fields changed.
* `Table.substitutions`: the fields that change, in order.
-/

namespace SchemaModels

/-- A field whose type changes from an alias to a list of a record. -/
structure Substitution where
  owner : String
  field : String
  tupleAlias : String
  record : String
  deriving DecidableEq

namespace Table
variable (t : Table)

/-- The items of the tuples that an alias lists. -/
def tupleItems? (d : Definition) : Option (List Spec) :=
  match d.kind with
  | .typeAlias spec =>
      match spec.shape with
      | .array item =>
          match item.shape with
          | .tuple items => some items
          | _ => none
      | _ => none
  | _ => none

/-- Whether specifications have equal shapes, one for one. -/
def sameShapes (fields items : List Spec) : Bool :=
  fields.length == items.length &&
    (List.zipWith (fun f i => f.shape.same i.shape) fields items).all id

/-- Whether the required fields of a record have the shapes of a tuple's items. -/
def bindsItems (items : List Spec) (d : Definition) : Bool :=
  d.record?.any fun r => sameShapes (r.requiredFields.map Prod.snd) items

/-- The record that an alias of a list of tuples stands for. -/
def bindingRecord (tupleAlias : String) : Option String :=
  ((t.get? tupleAlias).bind tupleItems?).bind fun items =>
    (t.definitions.find? (bindsItems items)).map Definition.name

/-- The alias and the record of a field whose type changes. -/
def binding? (s : Spec) : Option (String × String) :=
  s.shape.asReference?.bind fun name => (t.bindingRecord name).map fun record => (name, record)

/-- The specification of a field after the change. -/
def bindField (s : Spec) : Spec :=
  match t.binding? s with
  | some b => { s with shape := .array { shape := .reference b.2 } }
  | none => s

/-- What a definition declares after the change. -/
def bindKind (d : Definition) : Kind :=
  match d.kind with
  | .object record => .object (record.mapFields fun _ s => t.bindField s)
  | kind => kind

/-- The table with its fields changed. -/
def bindRecords : Table := t.mapKinds t.bindKind

/-- The fields of a definition that change. -/
def substitutionsIn (d : Definition) : List Substitution :=
  match d.kind with
  | .object record => record.fields.filterMap fun f =>
      (t.binding? f.2).map fun b => ⟨d.name, f.1, b.1, b.2⟩
  | _ => []

/-- The fields that change, in order. -/
def substitutions : List Substitution := t.definitions.flatMap t.substitutionsIn

end Table

end SchemaModels
