import SchemaModels.Document.Error
import SchemaModels.Spec.Basic

/-!
# Reading property schemas

A property schema is an object whose keywords are tried in a fixed order: a reference, a constant,
alternatives, an enumeration, then the type. `Form.of` names the keyword that decides, and
`property` reads the parts of that form.

* A single alternative, other than null and without a stated discriminator, is that alternative
  made nullable, with the annotations of the outer schema.
* `property` ends because the parts of a form are smaller than the schema (`Form.parts_lt`).
-/

namespace SchemaModels.Document

/-! ### Keywords -/

/-- The containers of definitions that references point into. -/
def pointerPrefixes : List String := ["#/$defs/", "#/definitions/"]

/-- The rest of a text after a prefix. -/
def dropPrefix? (pre s : String) : Option String :=
  if pre.toList.isPrefixOf s.toList then some (String.ofList (s.toList.drop pre.toList.length))
  else none

/-- The name of the definition that a reference points at. -/
def referenceName (pointer : String) : Except Fault String :=
  match (pointerPrefixes.findSome? fun p => dropPrefix? p pointer).filter fun name =>
      !name.isEmpty && !name.toList.contains '/' with
  | some name => .ok name
  | none => .error (.unsupportedReference pointer)

/-- The string under a key. -/
def string? (es : Entries) (key : String) : Option String :=
  (Entries.get? es key).bind Json.asString?

/-- The type keyword, the first one that is not null of several. -/
def typeKeyword (es : Entries) : Option String :=
  match Entries.get? es "type" with
  | some (.string t) => some t
  | some (.array types) => (types.filterMap Json.asString?).find? fun t => t ≠ "null"
  | _ => none

/-- Whether null is one of several types. -/
def listsNull (es : Entries) : Bool :=
  match Entries.get? es "type" with
  | some (.array types) => (types.filterMap Json.asString?).contains "null"
  | _ => false

/-- Whether a schema is of type null. -/
def isNullSchema (v : Json) : Bool := (v.get? "type").bind Json.asString? = some "null"

/-- The alternatives of a schema. -/
def alternatives? (es : Entries) : Option Json :=
  (Entries.get? es "oneOf").or (Entries.get? es "anyOf")

/-- A stated discriminator: a string, or an object that names the property. -/
def statedDiscriminator (es : Entries) : Option String :=
  match Entries.get? es "discriminator" with
  | some (.string field) => some field
  | some (.object d) => string? d "propertyName"
  | _ => none

/-! ### Annotations -/

/-- The bounds that a schema states. -/
def bounds (es : Entries) : Bounds :=
  let count (key : String) : Option Nat := (Entries.get? es key).bind Json.asNat?
  let number (key : String) : Option Number := (Entries.get? es key).bind Json.asNumber?
  { minLength := count "minLength"
    maxLength := count "maxLength"
    minimum := number "minimum"
    maximum := number "maximum"
    exclusiveMinimum := number "exclusiveMinimum"
    exclusiveMaximum := number "exclusiveMaximum"
    pattern := string? es "pattern"
    minItems := count "minItems"
    maxItems := count "maxItems" }

/-- Attach what a schema states beside the shape. The bounds are replaced; a default and a
description only if the schema has one. -/
def annotate (es : Entries) (s : Spec) : Spec :=
  { s with
    bounds := bounds es
    default := (Entries.get? es "default").or s.default
    description := (string? es "description").or s.description }

/-! ### Forms -/

/-- The keyword that decides the shape of a schema, with the parts it reads. -/
inductive Form where
  | reference (pointer : String)
  | const (value : Json)
  | alternatives (members : Json)
  | enum (values : Json)
  | tuple (items : List Json)
  | array (item : Option Json)
  | map (value : Option Json)
  | null
  | scalar (keyword : String)
  | untyped

namespace Form

/-- The form of a schema of type array. Items are positional when they are a list. -/
def ofArray (es : Entries) : Form :=
  match Entries.get? es "prefixItems" with
  | some (.array items) => tuple items
  | some _ => array (Entries.get? es "items")
  | none =>
      match Entries.get? es "items" with
      | some (.array items) => tuple items
      | item => array item

/-- The form of a schema of type object: a dictionary, of values of one schema if it is stated. -/
def ofMap (es : Entries) : Form :=
  match Entries.get? es "additionalProperties" with
  | some (.object value) => map (some (.object value))
  | _ => map none

/-- The form that the type decides. -/
def ofType (es : Entries) : Form :=
  match typeKeyword es with
  | none => untyped
  | some keyword =>
      if keyword = "array" then ofArray es
      else if keyword = "object" then ofMap es
      else if keyword = "null" then null
      else scalar keyword

/-- The form of a schema. -/
def of (es : Entries) : Form :=
  match string? es "$ref" with
  | some pointer => reference pointer
  | none =>
      match Entries.get? es "const" with
      | some value => const value
      | none =>
          match alternatives? es with
          | some members => alternatives members
          | none =>
              match Entries.get? es "enum" with
              | some values => enum values
              | none => ofType es

/-- The schemas inside a form. -/
def parts : Form → List Json
  | alternatives (.array members) => members
  | tuple items => items
  | array (some item) => [item]
  | map (some value) => [value]
  | _ => []

end Form

/-! ### Sizes -/

theorem sizeOf_get?_lt {es : Entries} {key : String} {v : Json} (h : Entries.get? es key = some v) :
    sizeOf v < sizeOf es := by
  induction es with
  | nil => simp [Entries.get?] at h
  | cons e rest ih =>
      obtain ⟨k, w⟩ := e
      simp only [Entries.get?, List.lookup_cons] at h
      simp only [List.cons.sizeOf_spec, Prod.mk.sizeOf_spec]
      split at h
      · obtain rfl : w = v := by simpa using h
        omega
      · have := ih h
        omega

theorem sizeOf_mem_lt {v : Json} {items : List Json} (h : v ∈ items) : sizeOf v < sizeOf items :=
  List.sizeOf_lt_of_mem h

theorem sizeOf_alternatives_lt {es : Entries} {v : Json} (h : alternatives? es = some v) :
    sizeOf v < sizeOf es := by
  unfold alternatives? at h
  rcases Option.or_eq_some_iff.1 h with h | ⟨-, h⟩ <;> exact sizeOf_get?_lt h

namespace Form

theorem parts_ofArray_lt {es : Entries} {v : Json} (h : v ∈ (ofArray es).parts) :
    sizeOf v < sizeOf es := by
  have inItems : ∀ {key items}, Entries.get? es key = some (.array items) → v ∈ items →
      sizeOf v < sizeOf es := by
    intro key items hk hv
    have h1 := sizeOf_get?_lt hk
    have h2 := sizeOf_mem_lt hv
    simp only [Json.array.sizeOf_spec] at h1
    omega
  have isItem : ∀ {key : String}, v ∈ (array (Entries.get? es key)).parts →
      sizeOf v < sizeOf es := by
    intro key hv
    cases hk : Entries.get? es key with
    | none => simp [hk, parts] at hv
    | some w =>
        simp only [hk, parts, List.mem_singleton] at hv
        exact hv ▸ sizeOf_get?_lt hk
  unfold ofArray at h
  split at h
  · rename_i items hp
    exact inItems hp h
  · exact isItem h
  · split at h
    · rename_i items hi
      exact inItems hi h
    · exact isItem h

/-- The schemas inside a form are smaller than the schema. -/
theorem parts_lt {es : Entries} {v : Json} (h : v ∈ (of es).parts) : sizeOf v < sizeOf es := by
  unfold of at h
  split at h
  · simp [parts] at h
  split at h
  · simp [parts] at h
  split at h
  · rename_i members ha
    have h1 := sizeOf_alternatives_lt ha
    cases members with
    | array items =>
        have h2 : sizeOf v < sizeOf items := sizeOf_mem_lt h
        simp only [Json.array.sizeOf_spec] at h1
        omega
    | _ => simp [parts] at h
  split at h
  · simp [parts] at h
  unfold ofType at h
  split at h
  · simp [parts] at h
  split at h
  · exact parts_ofArray_lt h
  split at h
  · unfold ofMap at h
    split at h
    · rename_i value hv
      simp only [parts, List.mem_singleton] at h
      exact h ▸ sizeOf_get?_lt hv
    · simp [parts] at h
  split at h <;> simp [parts] at h

end Form

/-! ### Properties -/

/-- The specification of alternatives, from those that are not null. -/
def ofAlternatives (es : Entries) (nullable : Bool) (members : List Spec) : Spec :=
  match members, statedDiscriminator es with
  | [single], none => annotate es { single with nullable := true }
  | _, discriminator => annotate es { shape := .union members discriminator, nullable }

/-- The specification that a property schema states. -/
def property (v : Json) : Except Fault Spec :=
  match v with
  | .bool true => .ok { shape := .any }
  | .object es =>
      let nullable := listsNull es
      let whole (shape : Shape) : Spec := annotate es { shape, nullable }
      match _form : Form.of es with
      | .reference pointer => (referenceName pointer).map fun name => whole (.reference name)
      | .const value => .ok (whole (.const value))
      | .alternatives (.array members) => do
          let parsed ← (members.filter fun m => !isNullSchema m).attach.mapM fun m => property m.1
          return ofAlternatives es (nullable || members.any isNullSchema) parsed
      | .alternatives _ => .error .alternativesNotArray
      | .enum (.array values) => .ok (whole (.literal (values.filter fun w => !w.isNull)))
      | .enum _ => .error .enumNotArray
      | .tuple items => do
          let parsed ← items.attach.mapM fun m => property m.1
          return whole (.tuple parsed)
      | .array (some item) => do
          let parsed ← property item
          return whole (.array parsed)
      | .array none => .ok (whole (.array { shape := .any }))
      | .map (some value) => do
          let parsed ← property value
          return whole (.map (some parsed))
      | .map none => .ok (whole (.map none))
      | .null => .ok (annotate es { shape := .any, nullable := true })
      | .scalar keyword =>
          match Primitive.ofKeyword? keyword with
          | some kind => .ok (whole (.primitive kind))
          | none => .error (.unsupportedType keyword)
      | .untyped => .ok (whole .any)
  | _ => .error .propertyNotObject
termination_by sizeOf v
decreasing_by
  all_goals
    have hlt : ∀ w ∈ (Form.of es).parts, sizeOf w < sizeOf es := fun w => Form.parts_lt
    rw [_form] at hlt
    simp only [Json.object.sizeOf_spec]
  · have := hlt m.1 (List.mem_filter.1 m.2).1
    omega
  · have := hlt m.1 m.2
    omega
  · have := hlt item (List.mem_singleton.2 rfl)
    omega
  · have := hlt value (List.mem_singleton.2 rfl)
    omega

end SchemaModels.Document
