import SchemaModels.Document.Property
import SchemaModels.Json.Reader
import SchemaModels.Name.Identifier
import SchemaModels.Spec.Table

/-!
# Reading schema documents

The definitions of a document stand under `$defs`, or under `definitions` when that key is absent.
The title, the description, the version and the references of the properties `metadata` and `root`
describe the top-level type; what a document does not state is taken from a given root.

* `ofText`, `ofJson`: the table of a document.
* `inferredDiscriminator`: the first field of the first member that every member of a union
  declares as a required constant.
-/

namespace SchemaModels.Document

/-! ### Parts of definitions -/

/-- The values of an enum. -/
def enumValues (values : Json) : Except Fault (List String) :=
  match values with
  | .array items => items.mapM fun v =>
      match v with
      | .string s => .ok s
      | v => .error (.enumValueNotString v)
  | _ => .error .enumNotArray

/-- The definition that a member of a union refers to. -/
def unionMember (member : Json) : Except Fault String :=
  match (member.get? "$ref").bind Json.asString? with
  | some pointer => referenceName pointer
  | none => .error .memberNotReference

/-- The members of a union. -/
def unionMembers (members : Json) : Except Fault (List String) :=
  match members with
  | .array items => items.mapM unionMember
  | _ => .error .alternativesNotArray

/-- Whether a definition declares a field as a required constant. -/
def tagsWith (field : String) (definition : Json) : Bool :=
  let isConst := (((definition.get? "properties").bind (·.get? field)).bind (·.get? "const")).isSome
  let isRequired := match definition.get? "required" with
    | some (.array names) => (names.filterMap Json.asString?).contains field
    | _ => false
  isConst && isRequired

/-- The first field that tells the members of a union apart by required constants. -/
def inferredDiscriminator (defs : Entries) (members : List String) : Option String :=
  match (members.head?.bind fun first => Entries.get? defs first).bind (·.get? "properties") with
  | some (.object fields) =>
      (fields.map Prod.fst).find? fun field =>
        members.all fun m => (Entries.get? defs m).any (tagsWith field)
  | _ => none

/-- The record of a definition with its fields. -/
def recordFields : Entries → Except Fault Record
  | es => es.foldlM (fun r e => (property e.2).map fun spec => r.insert e.1 spec) Record.empty

/-- The names of required fields, each once. -/
def requiredNames (required : Json) : Except Fault (List String) :=
  match required with
  | .array names => do
      let names ← names.mapM fun v =>
        match v with
        | .string s => Except.ok s
        | _ => .error Fault.requiredNotString
      return names.eraseDups
  | _ => .error .requiredNotArray

/-- The record that a definition declares. -/
def record (es : Entries) : Except Fault Record := do
  let fields ← match Entries.get? es "properties" with
    | some (.object fields) => recordFields fields
    | some _ => .error .propertiesNotObject
    | none => .ok Record.empty
  let required ← match Entries.get? es "required" with
    | some required => requiredNames required
    | none => .ok []
  let strict := match Entries.get? es "additionalProperties" with
    | some (.bool false) => true
    | _ => false
  return { fields with required, strict }

/-- Whether a definition is a record: it has properties, or is an object without a schema for
other properties. -/
def isRecord (es : Entries) : Bool :=
  (Entries.get? es "properties").isSome ||
    (typeKeyword es = some "object" &&
      !((Entries.get? es "additionalProperties").any Json.isObject))

/-! ### Definitions -/

/-- What a definition declares, among the definitions of its document. -/
def kind (defs es : Entries) : Except Fault Kind :=
  match Entries.get? es "enum", alternatives? es with
  | some values, _ => (enumValues values).map .enum
  | none, some members => (unionMembers members).map fun names =>
      .union names ((statedDiscriminator es).or (inferredDiscriminator defs names))
  | none, none =>
      if isRecord es then (record es).map .object else (property (.object es)).map .typeAlias

/-- A definition under its name. -/
def definition (defs : Entries) (name : String) (v : Json) : Except Fault Definition :=
  match v with
  | .object es => (kind defs es).map fun kind => ⟨name, string? es "description", kind⟩
  | _ => .error .definitionNotObject

/-! ### Documents -/

/-- The definition that a property of the document refers to, if it is a reference. -/
def rootReference (es : Entries) (field : String) : Except Fault (Option String) :=
  match ((((Entries.get? es "properties").bind (·.get? field)).bind (·.get? "$ref")).bind
      Json.asString?) with
  | some pointer => (referenceName pointer).map some
  | none => .ok none

/-- The description of the top-level type, over a given one. -/
def root (given : Root) (es : Entries) : Except Fault Root := do
  let metadata ← rootReference es "metadata"
  let tree ← rootReference es "root"
  return {
    name := ((string? es "title").filter Name.isIdentifier).getD given.name
    description := (string? es "description").or given.description
    version := (string? es "version").or given.version
    metadataType := metadata.getD given.metadataType
    rootType := tree.getD given.rootType }

/-- The entries of the container of definitions. -/
def container (es : Entries) : Except Fault Entries :=
  match (Entries.get? es "$defs").or (Entries.get? es "definitions") with
  | none => .error .definitionsMissing
  | some (.object defs) => .ok defs
  | some _ => .error .definitionsNotObject

/-- Name the definition that a fault lies in. -/
def within {α : Type} (name : Option String) : Except Fault α → Except DocumentError α
  | .ok a => .ok a
  | .error fault => .error (.malformed name fault)

/-- Insert the definitions of a container one after the other. -/
def insertAll (defs : Entries) : Entries → Table → Except DocumentError Table
  | [], t => .ok t
  | (name, v) :: rest, t => do
      let d ← within (some name) (definition defs name v)
      insertAll defs rest (t.insert d)

/-- The table of a document. -/
def ofJson (given : Root) (v : Json) : Except DocumentError Table :=
  match v with
  | .object es => do
      let defs ← within none (container es)
      let root ← within none (root given es)
      insertAll defs defs (Table.empty root)
  | _ => .error (.malformed none .rootNotObject)

/-- The table of a document's text. -/
def ofText (given : Root) (text : String) : Except DocumentError Table :=
  match Json.ofText? text with
  | some v => ofJson given v
  | none => .error .notJson

end SchemaModels.Document
