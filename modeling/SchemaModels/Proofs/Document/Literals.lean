import SchemaModels.Proofs.Document.Property
import SchemaModels.Proofs.Document.Read
import SchemaModels.Proofs.Model.WellFormed

/-!
# The types of properties

Null is dropped from the values that a schema lists, and nothing asks whether one is left. So a
schema that lists null alone, or nothing, is read as literals without values, and these are all that
keeps a type from being well formed.

* `ListsNullOnly`: a schema lists no value but null.
* `holdsEmptyLiteral_iff_inside`: where literals without values come from.
* `IsProperty`: the schemas of a document that are read as properties.
* `wellFormed_properties`: they are read, and when their types are well formed.
* `marks_not_wellFormed`: a document with a type that is not.
-/

namespace SchemaModels.Document

/-! ### Schemas that list nothing -/

/-- A schema is read by the values that it lists, none of which is other than null. -/
def ListsNullOnly (v : Json) : Prop :=
  ∃ es values, v = .object es ∧ Form.of es = .enum (.array values) ∧
    ∀ w ∈ values, w.isNull = true

theorem holdsEmptyLiteral_congr {s c : Spec} (h : s.shape = c.shape) :
    s.HoldsEmptyLiteral ↔ c.HoldsEmptyLiteral := by
  rw [Spec.holdsEmptyLiteral_iff, h, ← Spec.holdsEmptyLiteral_iff]

theorem not_holdsEmptyLiteral {s : Spec} (hinner : s.shape.inner = [])
    (hshape : s.shape ≠ .literal []) : ¬s.HoldsEmptyLiteral := by
  rw [Spec.holdsEmptyLiteral_iff, hinner]
  simpa using hshape

section assemble
variable {es : Entries} {inner : List Spec} {s : Spec}

theorem holdsEmptyLiteral_of_alternatives {nullable : Bool} :
    (ofAlternatives es nullable inner).HoldsEmptyLiteral ↔ ∃ i ∈ inner, i.HoldsEmptyLiteral := by
  unfold ofAlternatives
  split
  · rename_i single _
    have hshape : (annotate es { single with nullable := true }).shape = single.shape := rfl
    rw [holdsEmptyLiteral_congr hshape]
    simp
  · rw [Spec.holdsEmptyLiteral_iff]
    simp [annotate, Shape.inner]

/-- A schema that lists no values has literals without values in what is read of it. -/
theorem Form.holdsEmptyLiteral_of_inner {form : Form} (hform : ∀ values, form ≠ .enum values)
    (hinner : s.shape.inner = inner) (hshape : s.shape ≠ .literal []) :
    s.HoldsEmptyLiteral ↔
      (∃ values, form = .enum (.array values) ∧ ∀ w ∈ values, w.isNull = true) ∨
        ∃ i ∈ inner, i.HoldsEmptyLiteral := by
  have hlists : ¬∃ values, form = .enum (.array values) ∧ ∀ w ∈ values, w.isNull = true :=
    fun ⟨values, henum, _⟩ => hform _ henum
  rw [Spec.holdsEmptyLiteral_iff, hinner, or_iff_right hshape, or_iff_right hlists]

/-- Literals without values are those of the schema itself, or of one that is read of it. -/
theorem Form.holdsEmptyLiteral_of_assemble {form : Form}
    (hread : form.read.mapM property = .ok inner) (hs : form.assemble es inner = .ok s) :
    s.HoldsEmptyLiteral ↔
      (∃ values, form = .enum (.array values) ∧ ∀ w ∈ values, w.isNull = true) ∨
        ∃ i ∈ inner, i.HoldsEmptyLiteral := by
  have hleaf : form.read = [] → inner = [] := fun hnone => by
    rw [hnone] at hread
    exact (Except.ok.inj hread).symm
  cases form with
  | alternatives members =>
      cases members with
      | array members =>
          obtain rfl := Except.ok.inj hs
          simp [holdsEmptyLiteral_of_alternatives]
      | _ => cases hs
  | enum values =>
      cases values with
      | array values =>
          obtain rfl := hleaf rfl
          obtain rfl := Except.ok.inj hs
          rw [Spec.holdsEmptyLiteral_iff]
          simp [annotate, Shape.inner]
      | _ => cases hs
  | tuple items =>
      obtain rfl := Except.ok.inj hs
      exact holdsEmptyLiteral_of_inner (by simp) rfl (by simp [annotate])
  | array item =>
      obtain rfl := Except.ok.inj hs
      cases item with
      | none =>
          obtain rfl := hleaf rfl
          have hany : ¬Spec.HoldsEmptyLiteral { shape := .any } :=
            not_holdsEmptyLiteral rfl (by simp)
          rw [Spec.holdsEmptyLiteral_iff]
          simp [annotate, Shape.inner, hany]
      | some item =>
          obtain ⟨i, -, rfl⟩ := map_eq_ok_iff.mp ((mapM_singleton item).symm.trans hread)
          exact holdsEmptyLiteral_of_inner (by simp) rfl (by simp [annotate])
  | map value =>
      obtain rfl := Except.ok.inj hs
      cases value with
      | none =>
          obtain rfl := hleaf rfl
          exact holdsEmptyLiteral_of_inner (by simp) rfl (by simp [annotate])
      | some value =>
          obtain ⟨i, -, rfl⟩ := map_eq_ok_iff.mp ((mapM_singleton value).symm.trans hread)
          exact holdsEmptyLiteral_of_inner (by simp) rfl (by simp [annotate])
  | reference pointer =>
      obtain ⟨name, -, rfl⟩ := map_eq_ok_iff.mp hs
      exact holdsEmptyLiteral_of_inner (by simp) (hleaf rfl).symm (by simp [annotate])
  | const value =>
      obtain rfl := Except.ok.inj hs
      exact holdsEmptyLiteral_of_inner (by simp) (hleaf rfl).symm (by simp [annotate])
  | null =>
      obtain rfl := Except.ok.inj hs
      exact holdsEmptyLiteral_of_inner (by simp) (hleaf rfl).symm (by simp [annotate])
  | scalar keyword =>
      rw [assemble] at hs
      split at hs
      · obtain rfl := Except.ok.inj hs
        exact holdsEmptyLiteral_of_inner (by simp) (hleaf rfl).symm (by simp [annotate])
      · cases hs
  | untyped =>
      obtain rfl := Except.ok.inj hs
      exact holdsEmptyLiteral_of_inner (by simp) (hleaf rfl).symm (by simp [annotate])

end assemble

theorem inside_object {es : Entries} {w : Json} : Inside (.object es) w ↔
    w = .object es ∨ ∃ m ∈ (Form.of es).read, Inside m w := by
  constructor
  · intro h
    cases h with
    | refl => exact .inl rfl
    | step hm hw => exact .inr ⟨_, hm, hw⟩
  · rintro (rfl | ⟨m, hm, hw⟩)
    · exact .refl _
    · exact .step hm hw

theorem listsNullOnly_object {es : Entries} : ListsNullOnly (.object es) ↔
    ∃ values, Form.of es = .enum (.array values) ∧ ∀ w ∈ values, w.isNull = true := by
  simp only [ListsNullOnly, Json.object.injEq, exists_and_left, exists_eq_left']

/-- Literals without values come from the schemas that list no value but null. -/
theorem holdsEmptyLiteral_iff_inside {v : Json} {s : Spec} (h : property v = .ok s) :
    s.HoldsEmptyLiteral ↔ ∃ w, Inside v w ∧ ListsNullOnly w := by
  rcases property_eq_ok_cases h with ⟨rfl, rfl⟩ | ⟨es, hv⟩
  · refine iff_of_false (not_holdsEmptyLiteral rfl (by simp)) ?_
    rintro ⟨w, hw, es, values, rfl, -⟩
    cases hw
  rw [hv] at h ⊢
  obtain ⟨inner, hread, hs⟩ := property_object_eq_ok_iff.mp h
  have hparts : ∀ m ∈ (Form.of es).read, ∀ i, property m = .ok i →
      (i.HoldsEmptyLiteral ↔ ∃ w, Inside m w ∧ ListsNullOnly w) := by
    intro m hm i hi
    have hlt : sizeOf m < sizeOf v := by
      have := Form.parts_lt (Form.read_subset_parts hm)
      rw [hv, Json.object.sizeOf_spec]
      omega
    exact holdsEmptyLiteral_iff_inside hi
  rw [Form.holdsEmptyLiteral_of_assemble hread hs, ← listsNullOnly_object]
  constructor
  · rintro (hlists | ⟨i, hi, hempty⟩)
    · exact ⟨_, .refl _, hlists⟩
    · obtain ⟨m, hm, hmi⟩ := exists_of_mem_mapM hread hi
      obtain ⟨w, hw, hlists⟩ := (hparts m hm i hmi).mp hempty
      exact ⟨w, .step hm hw, hlists⟩
  · rintro ⟨w, hw, hlists⟩
    rcases inside_object.mp hw with rfl | ⟨m, hm, hmw⟩
    · exact .inl hlists
    · obtain ⟨i, hi, hmi⟩ := exists_mem_of_mapM hread hm
      exact .inr ⟨i, hi, (hparts m hm i hmi).mpr ⟨w, hmw, hlists⟩⟩
termination_by sizeOf v
decreasing_by exact hlt

/-- What is read of a schema that was read was read as well. -/
theorem exists_property_of_inside {v w : Json} (hw : Inside v w) :
    ∀ {s : Spec}, property v = .ok s → ∃ c, property w = .ok c := by
  induction hw with
  | refl v => exact fun h => ⟨_, h⟩
  | step hm _ ih =>
      intro s h
      obtain ⟨inner, hread, -⟩ := property_object_eq_ok_iff.mp h
      obtain ⟨i, -, hi⟩ := exists_mem_of_mapM hread hm
      exact ih hi

/-! ### The properties of a document -/

/-- A definition of a document that is neither an enum nor a union. -/
def IsPlainDefinition (doc es : Entries) : Prop :=
  ∃ defs name, container doc = .ok defs ∧ (name, .object es) ∈ defs ∧
    Entries.get? es "enum" = none ∧ alternatives? es = none

/-- The schemas of a document that are read as properties: the fields of records, the aliases, and
what is read of these. -/
inductive IsProperty (doc : Entries) : Json → Prop
  | field {es fields : Entries} {key : String} {v u : Json} (hes : IsPlainDefinition doc es)
      (hrecord : isRecord es = true)
      (hfields : Entries.get? es "properties" = some (.object fields))
      (hv : (key, v) ∈ fields) (hu : Inside v u) : IsProperty doc u
  | typeAlias {es : Entries} {u : Json} (hes : IsPlainDefinition doc es)
      (hrecord : isRecord es = false) (hu : Inside (.object es) u) : IsProperty doc u

section document
variable {given : Root} {doc : Entries} {t : Table}

theorem kind_of_isRecord {defs es : Entries} (henum : Entries.get? es "enum" = none)
    (hmembers : alternatives? es = none) : kind defs es =
      if isRecord es then (record es).map .object
      else (property (.object es)).map .typeAlias := by
  rw [kind, henum, hmembers]

/-- Each field of a record is read. -/
theorem exists_property_of_recordFields : ∀ {fields : Entries} {start r : Record},
    fields.foldlM (fun r e => (property e.2).map fun spec => r.insert e.1 spec) start = .ok r →
      ∀ e ∈ fields, ∃ s, property e.2 = .ok s
  | e :: rest, start, r, h, e', he' => by
      rw [List.foldlM_cons] at h
      obtain ⟨next, hnext, hrest⟩ := bind_eq_ok_iff.mp h
      rcases List.mem_cons.mp he' with rfl | he'
      · obtain ⟨s, hs, -⟩ := map_eq_ok_iff.mp hnext
        exact ⟨s, hs⟩
      · exact exists_property_of_recordFields hrest e' he'

/-- Each field of a record was there before or is read. -/
theorem exists_field_of_recordFields : ∀ {fields : Entries} {start r : Record},
    fields.foldlM (fun r e => (property e.2).map fun spec => r.insert e.1 spec) start = .ok r →
      ∀ f ∈ r.fields, f ∈ start.fields ∨ ∃ e ∈ fields, property e.2 = .ok f.2
  | [], start, r, h, f, hf => by
      obtain rfl : start = r := Except.ok.inj h
      exact .inl hf
  | e :: rest, start, r, h, f, hf => by
      rw [List.foldlM_cons] at h
      obtain ⟨next, hnext, hrest⟩ := bind_eq_ok_iff.mp h
      obtain ⟨s, hs, rfl⟩ := map_eq_ok_iff.mp hnext
      rcases exists_field_of_recordFields hrest f hf with hf | ⟨e', he', hf⟩
      · rcases Keyed.mem_of_mem_upsert Prod.fst hf with rfl | hf
        · exact .inr ⟨e, List.mem_cons_self, hs⟩
        · exact .inl hf
      · exact .inr ⟨e', List.mem_cons_of_mem e he', hf⟩

/-- A record has the fields that its schema states, if it states any. -/
theorem fields_of_record {es : Entries} {r : Record} (h : record es = .ok r) :
    (∃ fields r', Entries.get? es "properties" = some (.object fields) ∧
      recordFields fields = .ok r' ∧ r.fields = r'.fields) ∨
    (Entries.get? es "properties" = none ∧ r.fields = []) := by
  rw [record] at h
  split at h
  all_goals
    obtain ⟨r', hr', h⟩ := bind_eq_ok_iff.mp h
    -- what is required does not change the fields
    have hfields : r.fields = r'.fields := by
      dsimp only at h
      split at h <;>
        · obtain ⟨required, -, h⟩ := bind_eq_ok_iff.mp h
          rw [← Except.ok.inj h]
  · rename_i fields hget _
    exact .inl ⟨fields, r', hget, hr', hfields⟩
  · cases hr'
  · rename_i hget _
    obtain rfl := Except.ok.inj hr'
    exact .inr ⟨hget, hfields⟩

variable (h : ofJson given (.object doc) = .ok t)
include h

/-- What a definition of the document declares. -/
theorem exists_kind_of_isPlainDefinition {es : Entries} (hes : IsPlainDefinition doc es) :
    ∃ k, (if isRecord es then (record es).map .object
      else (property (.object es)).map .typeAlias) = .ok (k : Kind) := by
  obtain ⟨defs, name, hdefs, hmem, henum, hmembers⟩ := hes
  obtain ⟨defs', r, hdefs', -, hinsert⟩ := ofJson_eq_ok_iff.mp h
  obtain rfl := Except.ok.inj (hdefs'.symm.trans hdefs)
  obtain ⟨d, hd⟩ := exists_insertAll_iff.mp ⟨t, hinsert⟩ _ hmem
  obtain ⟨es', k, hobject, hk, -⟩ := definition_eq_ok_iff.mp hd
  obtain rfl := Json.object.inj hobject
  exact ⟨k, (kind_of_isRecord henum hmembers).symm.trans hk⟩

/-- Every property of a document that is accepted is read. -/
theorem exists_property_of_isProperty {u : Json} (hu : IsProperty doc u) :
    ∃ s, property u = .ok s := by
  cases hu with
  | field hes hrecord hfields hv hu =>
      obtain ⟨k, hk⟩ := exists_kind_of_isPlainDefinition h hes
      rw [if_pos hrecord] at hk
      obtain ⟨r, hr, -⟩ := map_eq_ok_iff.mp hk
      rcases fields_of_record hr with ⟨fields', r', hfields', hr', -⟩ | ⟨hnone, -⟩
      · obtain rfl := Json.object.inj (Option.some.inj (hfields'.symm.trans hfields))
        obtain ⟨s, hs⟩ := exists_property_of_recordFields hr' _ hv
        exact exists_property_of_inside hu hs
      · cases hnone.symm.trans hfields
  | typeAlias hes hrecord hu =>
      obtain ⟨k, hk⟩ := exists_kind_of_isPlainDefinition h hes
      rw [hrecord, if_neg Bool.false_ne_true] at hk
      obtain ⟨s, hs, -⟩ := map_eq_ok_iff.mp hk
      exact exists_property_of_inside hu hs

/-- The definitions of the table are read of the document. -/
theorem exists_of_mem_definitions {d : Definition} (hd : d ∈ t.definitions) :
    ∃ defs es name, container doc = .ok defs ∧ (name, .object es) ∈ defs ∧
      kind defs es = .ok d.kind := by
  obtain ⟨defs, r, hdefs, -, hinsert⟩ := ofJson_eq_ok_iff.mp h
  obtain ⟨⟨name, v⟩, hmem, hread⟩ :=
    (mem_of_insertAll hinsert hd).resolve_left List.not_mem_nil
  obtain ⟨es, k, rfl, hk, rfl⟩ := definition_eq_ok_iff.mp hread
  exact ⟨defs, es, name, hdefs, hmem, hk⟩

/-- The specifications of the table are read of properties, but for the items of arrays that say
nothing of them. -/
theorem exists_isProperty_of_mem_specs {s : Spec} (hs : s ∈ t.specs) :
    s = { shape := .any } ∨ ∃ u, IsProperty doc u ∧ property u = .ok s := by
  obtain ⟨d, hd, hs⟩ := List.mem_flatMap.mp hs
  obtain ⟨defs, es, name, hdefs, hmem, hk⟩ := exists_of_mem_definitions h hd
  have hplain : Entries.get? es "enum" = none → alternatives? es = none →
      IsPlainDefinition doc es := fun henum hmembers =>
    ⟨defs, name, hdefs, hmem, henum, hmembers⟩
  unfold Definition.specs at hs
  cases hkind : d.kind with
  | object r =>
      rw [hkind] at hs hk
      obtain ⟨henum, hmembers, hrecord, hr⟩ := kind_eq_object_iff.mp hk
      dsimp only at hs
      rw [Spec.specsAll_eq_flatMap] at hs
      obtain ⟨c, hc, hs⟩ := List.mem_flatMap.mp hs
      obtain ⟨f, hf, rfl⟩ := List.mem_map.mp hc
      rcases fields_of_record hr with ⟨fields, r', hfields, hr', hsame⟩ | ⟨-, hnone⟩
      · rw [hsame] at hf
        obtain ⟨⟨key, v⟩, he, hv⟩ :=
          (exists_field_of_recordFields hr' f hf).resolve_left List.not_mem_nil
        refine (exists_of_mem_specs hv hs).imp_right ?_
        rintro ⟨u, hu, hus⟩
        exact ⟨u, .field (hplain henum hmembers) hrecord hfields he hu, hus⟩
      · rw [hnone] at hf
        cases hf
  | typeAlias c =>
      rw [hkind] at hs hk
      obtain ⟨henum, hmembers, hrecord, hc⟩ := kind_eq_typeAlias_iff.mp hk
      refine (exists_of_mem_specs hc hs).imp_right ?_
      rintro ⟨u, hu, hus⟩
      exact ⟨u, .typeAlias (hplain henum hmembers) hrecord hu, hus⟩
  | _ =>
      rw [hkind] at hs
      cases hs

end document

open Model

/-- Every property of a document that is accepted has a type. It is written as a hint of which all
parts are sound but literals without values, and there are none of these exactly when no schema
inside lists null alone. The specifications of the table are read of such properties. -/
theorem wellFormed_properties {given : Root} {doc : Entries} {t : Table}
    (h : ofJson given (.object doc) = .ok t) :
    (∀ u, IsProperty doc u → ∃ s, property u = .ok s ∧ ∀ isForward,
      (TypeExpr.ofSpec isForward s).hint.text = (TypeExpr.ofSpec isForward s).text ∧
      (∀ p, (TypeExpr.ofSpec isForward s).hint.Faulty p → p = .emptyLiteral) ∧
      ((TypeExpr.ofSpec isForward s).hint.WellFormed ↔
        ∀ w, Inside u w → ¬ListsNullOnly w)) ∧
    ∀ s ∈ t.specs, s = { shape := .any } ∨ ∃ u, IsProperty doc u ∧ property u = .ok s := by
  refine ⟨fun u hu => ?_, fun s hs => exists_isProperty_of_mem_specs h hs⟩
  obtain ⟨s, hs⟩ := exists_property_of_isProperty h hu
  refine ⟨s, hs, fun isForward => ⟨TypeExpr.text_hint _, fun p hp => ?_, ?_⟩⟩
  · exact (TypeExpr.faulty_ofSpec_iff.mp hp).1
  · rw [TypeExpr.wellFormed_ofSpec_iff, holdsEmptyLiteral_iff_inside hs]
    simp only [not_exists, not_and]

/-- A schema that lists null alone. -/
def nullListed : Json := .object [("enum", .array [.null])]

/-- A schema that lists a text and null. -/
def markListed : Json := .object [("enum", .array [.string "x", .null])]

/-- A document with a property of each of the two. -/
def marks : Entries :=
  [("$defs", .object [("Row", .object [("properties",
    .object [("none", nullListed), ("mark", markListed)])])])]

/-- The table of this document. -/
def marksTable : Table where
  root := {}
  definitions := [⟨"Row", none, .object
    ((Record.empty.insert "none" { shape := .literal [] }).insert "mark"
      { shape := .literal [.string "x"] })⟩]
  names_nodup := by decide

theorem ofJson_marks : ofJson {} (.object marks) = .ok marksTable := by
  -- `property` recurs on sizes, so that plain `rfl` stops at it
  with_unfolding_all rfl

theorem isProperty_marks {key : String} {v : Json}
    (h : (key, v) ∈ [("none", nullListed), ("mark", markListed)]) : IsProperty marks v :=
  .field ⟨_, "Row", rfl, List.mem_cons_self, rfl, rfl⟩ rfl rfl h (.refl v)

theorem wellFormed_properties_marks : ofJson {} (.object marks) = .ok marksTable ∧
    IsProperty marks markListed ∧ ∃ s, property markListed = .ok s ∧ ∀ isForward,
      (TypeExpr.ofSpec isForward s).hint.text = (TypeExpr.ofSpec isForward s).text ∧
      (TypeExpr.ofSpec isForward s).hint.WellFormed := by
  have hmark : IsProperty marks markListed := isProperty_marks (List.mem_pair.mpr (.inr rfl))
  obtain ⟨s, hs, htypes⟩ := (wellFormed_properties ofJson_marks).1 _ hmark
  refine ⟨ofJson_marks, hmark, s, hs, fun isForward => ?_⟩
  obtain ⟨htext, -, hiff⟩ := htypes isForward
  refine ⟨htext, hiff.mpr fun w hw => ?_⟩
  rintro ⟨es, values, rfl, hform, hnull⟩
  rcases inside_object.mp hw with heq | ⟨m, hm, -⟩
  · obtain rfl := Json.object.inj heq
    obtain rfl := Json.array.inj (Form.enum.inj hform)
    exact absurd (hnull _ List.mem_cons_self) (by decide)
  · exact absurd hm List.not_mem_nil

/-- A property that lists null alone is read, and its type is written without an argument. -/
theorem marks_not_wellFormed : ∃ t s, ofJson {} (.object marks) = .ok t ∧
    IsProperty marks nullListed ∧ property nullListed = .ok s ∧ s ∈ t.specs ∧
    ∀ isForward, (TypeExpr.ofSpec isForward s).text = "Literal[]" ∧
      (TypeExpr.ofSpec isForward s).hint = .subscript (typing "Literal") [] ∧
      ¬(TypeExpr.ofSpec isForward s).hint.WellFormed := by
  have hnone : property nullListed = .ok { shape := .literal [] } := by
    rw [nullListed, property_object]
    rfl
  have hmem : { shape := .literal [] } ∈ marksTable.specs := List.mem_cons_self
  refine ⟨_, _, ofJson_marks, isProperty_marks (List.mem_pair.mpr (.inl rfl)), hnone, hmem,
    fun isForward => ⟨rfl, rfl, ?_⟩⟩
  rw [TypeExpr.wellFormed_ofSpec_iff, not_not]
  exact ⟨_, Spec.mem_specs_self _, rfl⟩

end SchemaModels.Document
