import SchemaModels.Document.Property
import SchemaModels.Proofs.Results
import SchemaModels.Proofs.Spec.Extent

/-!
# What a property schema is read as

A property schema is read in two steps: the schemas that its form holds, then a specification
from theirs. Null alternatives are not read.

* `Form.read`, `Form.assemble`, `property_object`: the two steps, and that they are the reading.
* `Inside`: the schemas that are read of a schema, at any depth.
* `exists_of_mem_specs`: each specification inside one that was read is read of a schema inside, or
  stands for the items of an array that says nothing of them.
* `bounds_of_property`: the bounds are those that the schema itself states.
-/

namespace SchemaModels

theorem Json.get?_eq_some_iff {v w : Json} {key : String} :
    v.get? key = some w ↔ ∃ es, v = .object es ∧ Entries.get? es key = some w := by
  cases v <;> simp [Json.get?]

theorem Json.asString?_eq_some_iff {v : Json} {s : String} :
    v.asString? = some s ↔ v = .string s := by
  cases v <;> simp [Json.asString?]

namespace Document

/-! ### Forms -/

namespace Form
variable (es : Entries)

theorem ofArray_cases : (∃ items, ofArray es = tuple items) ∨ ∃ item, ofArray es = array item := by
  unfold ofArray
  split
  · exact .inl ⟨_, rfl⟩
  · exact .inr ⟨_, rfl⟩
  · split
    · exact .inl ⟨_, rfl⟩
    · exact .inr ⟨_, rfl⟩

theorem exists_ofMap : ∃ value, ofMap es = map value := by
  unfold ofMap
  split <;> exact ⟨_, rfl⟩

/-- The form that the type decides, and when it is that of null. -/
theorem ofType_cases : ofType es = untyped ∨ (∃ items, ofType es = tuple items) ∨
    (∃ item, ofType es = array item) ∨ (∃ value, ofType es = map value) ∨
    (ofType es = null ∧ typeKeyword es = some "null") ∨ ∃ keyword, ofType es = scalar keyword := by
  unfold ofType
  split
  · exact .inl rfl
  rename_i keyword hk
  split_ifs with harray hobject hnull
  · exact .inr ((ofArray_cases es).imp_right .inl)
  · exact .inr (.inr (.inr (.inl (exists_ofMap es))))
  · exact .inr (.inr (.inr (.inr (.inl ⟨rfl, hnull ▸ hk⟩))))
  · exact .inr (.inr (.inr (.inr (.inr ⟨keyword, rfl⟩))))

/-- The keyword that decides a form, and which alternatives a form of alternatives has. -/
theorem of_cases : (∃ pointer, of es = reference pointer) ∨ (∃ value, of es = const value) ∨
    (∃ members, of es = alternatives members ∧ alternatives? es = some members) ∨
    (∃ values, of es = enum values) ∨ of es = ofType es := by
  unfold of
  split
  · exact .inl ⟨_, rfl⟩
  split
  · exact .inr (.inl ⟨_, rfl⟩)
  split
  · exact .inr (.inr (.inl ⟨_, rfl, ‹_›⟩))
  split
  · exact .inr (.inr (.inr (.inl ⟨_, rfl⟩)))
  · exact .inr (.inr (.inr (.inr rfl)))

end Form

/-! ### The two steps -/

namespace Form

/-- The schemas that are read of a form. -/
def read : Form → List Json
  | alternatives (.array members) => members.filter fun m => !isNullSchema m
  | form => form.parts

/-- The specification of a schema, from its form and the specifications of what was read of it. -/
def assemble (es : Entries) (form : Form) (inner : List Spec) : Except Fault Spec :=
  let whole (shape : Shape) : Spec := annotate es { shape, nullable := listsNull es }
  match form with
  | reference pointer => (referenceName pointer).map fun name => whole (.reference name)
  | const value => .ok (whole (.const value))
  | alternatives (.array members) =>
      .ok (ofAlternatives es (listsNull es || members.any isNullSchema) inner)
  | alternatives _ => .error .alternativesNotArray
  | enum (.array values) => .ok (whole (.literal (values.filter fun w => !w.isNull)))
  | enum _ => .error .enumNotArray
  | tuple _ => .ok (whole (.tuple inner))
  | array _ => .ok (whole (.array (inner.headD { shape := .any })))
  | map _ => .ok (whole (.map inner.head?))
  | null => .ok (annotate es { shape := .any, nullable := true })
  | scalar keyword =>
      match Primitive.ofKeyword? keyword with
      | some kind => .ok (whole (.primitive kind))
      | none => .error (.unsupportedType keyword)
  | untyped => .ok (whole .any)

theorem read_subset_parts {form : Form} {v : Json} (h : v ∈ form.read) : v ∈ form.parts := by
  unfold read at h
  split at h
  · exact List.mem_of_mem_filter h
  · exact h

end Form

theorem property_object (es : Entries) : property (.object es) =
    (Form.of es).read.mapM property >>= (Form.of es).assemble es := by
  have one : ∀ {form : Form} {v : Json}, form.read = [v] →
      form.read.mapM property = (property v).map fun s => [s] := by
    intro form v hread
    rw [hread, mapM_singleton]
  rw [property]
  dsimp only
  cases hf : Form.of es with
  | alternatives members =>
      cases members with
      | array members =>
          dsimp only
          rw [mapM_attach]
          rfl
      | _ => rfl
  | tuple items =>
      dsimp only
      rw [mapM_attach]
      rfl
  | array item =>
      cases item with
      | none => rfl
      | some item =>
          rw [one rfl]
          dsimp only
          cases property item <;> rfl
  | map value =>
      cases value with
      | none => rfl
      | some value =>
          rw [one rfl]
          dsimp only
          cases property value <;> rfl
  | enum values => cases values <;> rfl
  | _ => rfl

theorem property_object_eq_ok_iff {es : Entries} {s : Spec} : property (.object es) = .ok s ↔
    ∃ inner, (Form.of es).read.mapM property = .ok inner ∧
      (Form.of es).assemble es inner = .ok s := by
  rw [property_object, bind_eq_ok_iff]

theorem property_eq_ok_cases {v : Json} {s : Spec} (h : property v = .ok s) :
    v = .bool true ∧ s = { shape := .any } ∨ ∃ es, v = .object es := by
  rw [property.eq_def] at h
  split at h
  · exact .inl ⟨rfl, (Except.ok.inj h).symm⟩
  · exact .inr ⟨_, rfl⟩
  · cases h

/-! ### Schemas inside schemas -/

/-- The schemas that are read of a schema, itself among them. -/
inductive Inside : Json → Json → Prop
  | refl (v : Json) : Inside v v
  | step {es : Entries} {m u : Json} : m ∈ (Form.of es).read → Inside m u → Inside (.object es) u

section assemble
variable {es : Entries} {inner : List Spec} {s c : Spec}

/-- A specification is that of alternatives, of null, or of a shape that holds what was read; the
items of an array that says nothing of them stand for what was not. -/
theorem Form.assemble_cases {form : Form} (h : form.assemble es inner = .ok s) :
    (∃ members, form = .alternatives (.array members) ∧
      s = ofAlternatives es (listsNull es || members.any isNullSchema) inner) ∨
    (form = .null ∧ s = annotate es { shape := .any, nullable := true }) ∨
    ((∀ members, form ≠ .alternatives members) ∧ form ≠ .null ∧
      ∃ shape, s = annotate es { shape, nullable := listsNull es } ∧
        ∀ c ∈ shape.inner, c = { shape := .any } ∨ c ∈ inner) := by
  have hempty : ∀ c ∈ ([] : List Spec), c = { shape := .any } ∨ c ∈ inner :=
    fun c hc => absurd hc List.not_mem_nil
  cases form with
  | alternatives members =>
      cases members with
      | array members => exact .inl ⟨members, rfl, (Except.ok.inj h).symm⟩
      | _ => cases h
  | null => exact .inr (.inl ⟨rfl, (Except.ok.inj h).symm⟩)
  | reference pointer =>
      obtain ⟨name, -, hs⟩ := map_eq_ok_iff.mp h
      exact .inr (.inr ⟨by simp, by simp, _, hs.symm, hempty⟩)
  | const value => exact .inr (.inr ⟨by simp, by simp, _, (Except.ok.inj h).symm, hempty⟩)
  | enum values =>
      cases values with
      | array values => exact .inr (.inr ⟨by simp, by simp, _, (Except.ok.inj h).symm, hempty⟩)
      | _ => cases h
  | tuple items =>
      refine .inr (.inr ⟨by simp, by simp, _, (Except.ok.inj h).symm, fun c hc => ?_⟩)
      exact .inr hc
  | array item =>
      refine .inr (.inr ⟨by simp, by simp, _, (Except.ok.inj h).symm, fun c hc => ?_⟩)
      rw [List.mem_singleton.mp hc]
      cases inner with
      | nil => exact .inl rfl
      | cons i rest => exact .inr List.mem_cons_self
  | map value =>
      refine .inr (.inr ⟨by simp, by simp, _, (Except.ok.inj h).symm, fun c hc => .inr ?_⟩)
      cases inner with
      | nil => exact absurd hc List.not_mem_nil
      | cons i rest =>
          rw [List.mem_singleton.mp hc]
          exact List.mem_cons_self
  | scalar keyword =>
      rw [assemble] at h
      split at h
      · exact .inr (.inr ⟨by simp, by simp, _, (Except.ok.inj h).symm, hempty⟩)
      · cases h
  | untyped => exact .inr (.inr ⟨by simp, by simp, _, (Except.ok.inj h).symm, hempty⟩)

theorem inner_of_alternatives {nullable : Bool}
    (hc : c ∈ (ofAlternatives es nullable inner).shape.inner) :
    ∃ i ∈ inner, c = i ∨ c ∈ i.shape.inner := by
  unfold ofAlternatives at hc
  split at hc
  · exact ⟨_, List.mem_singleton.mpr rfl, .inr hc⟩
  · exact ⟨c, hc, .inl rfl⟩

theorem bounds_of_alternatives {nullable : Bool} :
    (ofAlternatives es nullable inner).bounds = bounds es := by
  unfold ofAlternatives
  split <;> rfl

/-- What is directly inside a specification was read, or is directly inside what was read, or
stands for the items of an array that says nothing of them. -/
theorem Form.inner_of_assemble {form : Form} (h : form.assemble es inner = .ok s)
    (hc : c ∈ s.shape.inner) :
    c = { shape := .any } ∨ ∃ i ∈ inner, c = i ∨ c ∈ i.shape.inner := by
  rcases assemble_cases h with ⟨_, -, rfl⟩ | ⟨-, rfl⟩ | ⟨-, -, shape, rfl, hinner⟩
  · exact .inr (inner_of_alternatives hc)
  · exact absurd hc List.not_mem_nil
  · exact (hinner c hc).imp_right fun hmem => ⟨c, hmem, .inl rfl⟩

end assemble

/-- Each specification inside one that was read is read of a schema inside, but for the items of
arrays that say nothing of them. -/
theorem exists_of_mem_specs {v : Json} {s c : Spec} (h : property v = .ok s) (hc : c ∈ s.specs) :
    c = { shape := .any } ∨ ∃ u, Inside v u ∧ property u = .ok c := by
  rw [Spec.specs_eq, List.mem_cons, List.mem_flatMap] at hc
  rcases hc with rfl | ⟨d, hd, hc⟩
  · exact .inr ⟨v, .refl v, h⟩
  rcases property_eq_ok_cases h with ⟨rfl, rfl⟩ | ⟨es, hv⟩
  · exact absurd hd List.not_mem_nil
  rw [hv] at h ⊢
  obtain ⟨inner, hread, hs⟩ := property_object_eq_ok_iff.mp h
  rcases Form.inner_of_assemble hs hd with rfl | ⟨i, hi, hdi⟩
  · rw [Spec.specs_eq] at hc
    exact .inl (by simpa [Shape.inner] using hc)
  -- What is inside a specification that was read is read of the same part of the schema.
  obtain ⟨m, hm, hmi⟩ := exists_of_mem_mapM hread hi
  have hci : c ∈ i.specs := by
    rcases hdi with rfl | hdi
    · exact hc
    · rw [Spec.specs_eq]
      exact List.mem_cons_of_mem i (List.mem_flatMap.mpr ⟨d, hdi, hc⟩)
  have hlt : sizeOf m < sizeOf v := by
    have := Form.parts_lt (Form.read_subset_parts hm)
    rw [hv, Json.object.sizeOf_spec]
    omega
  rcases exists_of_mem_specs hmi hci with hany | ⟨u, hu, hcu⟩
  · exact .inl hany
  · exact .inr ⟨u, .step hm hu, hcu⟩
termination_by sizeOf v
decreasing_by exact hlt

/-! ### Bounds -/

/-- The bounds that a schema states. -/
def statedBounds : Json → Bounds
  | .object es => bounds es
  | _ => {}

/-- Bounds are not taken over from the schemas inside. -/
theorem bounds_of_property {v : Json} {s : Spec} (h : property v = .ok s) :
    s.bounds = statedBounds v := by
  rcases property_eq_ok_cases h with ⟨rfl, rfl⟩ | ⟨es, rfl⟩
  · rfl
  obtain ⟨inner, -, hs⟩ := property_object_eq_ok_iff.mp h
  rcases Form.assemble_cases hs with ⟨_, -, rfl⟩ | ⟨-, rfl⟩ | ⟨-, -, shape, rfl, -⟩
  · exact bounds_of_alternatives
  · rfl
  · rfl

end Document

end SchemaModels
