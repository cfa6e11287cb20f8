import SchemaModels.Proofs.Model.Attribute
import SchemaModels.Proofs.Model.Tagged
import SchemaModels.Proofs.Unit.Models

/-!
# The fields of tagged unions in units of models

A tagged union is told apart by the attribute that its text names. The text has the name that the
schema gives the field, while the classes of the members declare the field under the attribute that
is made of this name.

* `GeneratedUnit.DeclaresField`: the attribute under which a class declares a field.
* `declaresField_iff`: there is one, whose name is `attributeName`.
* `GeneratedUnit.TagsFields`: what a tagged union says of its members.
* `tagFields_ofTable`: the text names the attribute of the members exactly when the name of the
  field is public.
-/

namespace SchemaModels

/-- A definition is a record with a field of this name. -/
def Table.HasField (t : Table) (n field : String) : Prop :=
  ∃ d record, t.get? n = some d ∧ d.kind = .object record ∧ field ∈ record.fields.map Prod.fst

namespace GeneratedUnit

/-- The class of a record declares a field of the record under an attribute. -/
def DeclaresField (u : GeneratedUnit) (settings : Settings) (t : Table)
    (n field attr : String) : Prop :=
  ∃ i record lines f line, u.DeclaresRecord settings t i n record lines ∧
    (f, line) ∈ record.fields.zip lines ∧ f.1 = field ∧ line.attr = attr

/-- The text of a tagged union. -/
def tagText (members : List Model.TypeExpr) (field : String) : String :=
  "Annotated[Union[" ++ String.intercalate ", " (members.map Model.TypeExpr.text) ++
    "], Field(discriminator=" ++ Text.quoted field ++ ")]"

/-- A tagged union in the declaration of a definition at a place. It is made of a union inside the
definition, with the field that this union states, and is written with it, among at least two names.
A member that is a record with this field declares it under the attribute of the field; when all
members are, the name that is written is that of the attribute if and only if it is public. -/
structure TagsFields (u : GeneratedUnit) (settings : Settings) (t : Table) (i : Nat)
    (d : Definition) (members : List Model.TypeExpr) (field : String) (names : List String) :
    Prop where
  stated : ∃ s ∈ d.properties, ∃ c ∈ s.specs, ∃ specs, c.shape = .union specs (some field) ∧
    ∀ p, u.plan[i]? = some p → members = Model.TypeExpr.ofSpecs p.isForward specs
  members_eq : ∀ p, u.plan[i]? = some p →
    members = names.map (Model.TypeExpr.ofReference p.isForward)
  two_le : 2 ≤ names.length
  written : ∀ decl, u.declarations[i]? = some decl → Holds decl.code (tagText members field)
  declared : ∀ n ∈ names, t.HasField n field →
    ∀ attr, u.DeclaresField settings t n field attr ↔ attr = Model.attributeName field
  agrees_iff : (∀ n ∈ names, t.HasField n field) →
    ((∀ n ∈ names, u.DeclaresField settings t n field field) ↔ Model.IsPublic field)

variable {settings : Settings} {t : Table} {u : GeneratedUnit}

theorem tagText_eq (members : List Model.TypeExpr) (field : String) :
    (Model.TypeExpr.tagged members field).text = tagText members field := by
  unfold tagText
  rw [← Model.TypeExpr.texts_eq_map]
  rfl

/-- A field is declared under no other attribute than its own. -/
theorem DeclaresField.attr_eq {n field attr : String}
    (h : u.DeclaresField settings t n field attr) : attr = Model.attributeName field := by
  obtain ⟨i, record, lines, f, line, hrecord, hmem, rfl, rfl⟩ := h
  obtain ⟨p, _, hline⟩ := hrecord.line_eq hmem
  rw [hline, Model.attr_ofSpec, Model.name_ofField]

section ofTable
variable (h : ofTable Target.pydantic.backend settings t = .ok u)
include h

/-- The class of a record declares each field of the record under one attribute. -/
theorem declaresField_iff {n field : String} (hfield : t.HasField n field) {attr : String} :
    u.DeclaresField settings t n field attr ↔ attr = Model.attributeName field := by
  refine ⟨DeclaresField.attr_eq, ?_⟩
  rintro rfl
  obtain ⟨d, record, hd, hk, hmem⟩ := hfield
  obtain ⟨f, hf, rfl⟩ := List.mem_map.mp hmem
  obtain ⟨i, lines, hrecord⟩ := exists_declaresRecord h hd hk
  obtain ⟨line, hmem⟩ := hrecord.exists_line hf
  obtain ⟨p, _, hline⟩ := hrecord.line_eq hmem
  refine ⟨i, record, lines, f, line, hrecord, hmem, rfl, ?_⟩
  rw [hline, Model.attr_ofSpec, Model.name_ofField]

/-- What is known of a tagged union in a declaration. -/
theorem exists_tagsFields {i : Nat} {d : Definition} {body : Model.Body}
    (hbody : u.DeclaresModel settings t i d body) {members : List Model.TypeExpr} {field : String}
    (htag : (members, field) ∈ body.tags) :
    ∃ names, u.TagsFields settings t i d members field names := by
  obtain ⟨p, decl, hp, _, hof, hdecl, _, hcode⟩ := hbody
  have hplanned : ∀ q, u.plan[i]? = some q → p = q := fun q hq =>
    Option.some.inj (hp.symm.trans hq)
  have hinside := htag
  rw [Model.Body.tags_ofDefinition hof] at hinside
  obtain ⟨s, hs, hinside⟩ := List.mem_flatMap.mp hinside
  obtain ⟨c, hc, hown⟩ := List.mem_flatMap.mp hinside
  obtain ⟨specs, names, hshape, hspecs, hmembers, htwo⟩ := Model.TypeExpr.mem_ownTags hown
  refine ⟨names, ⟨s, hs, c, hc, specs, hshape, fun q hq => ?_⟩, fun q hq => ?_, htwo,
    fun decl' hdecl' => ?_, fun n _ hfield attr => declaresField_iff h hfield, fun hfields => ?_⟩
  · exact hplanned q hq ▸ hspecs
  · exact hplanned q hq ▸ hmembers
  · obtain rfl : decl = decl' := Option.some.inj (hdecl.symm.trans hdecl')
    rw [hcode, ← tagText_eq]
    exact Model.Body.holds_tag hof htag _ _ _
  · rw [← Model.attributeName_eq_self_iff]
    constructor
    · intro hdeclares
      obtain ⟨n, hn⟩ := List.exists_mem_of_length_pos (Nat.lt_of_lt_of_le Nat.two_pos htwo)
      exact ((declaresField_iff h (hfields n hn)).mp (hdeclares n hn)).symm
    · intro hname n hn
      exact (declaresField_iff h (hfields n hn)).mpr hname.symm

/-- Each tagged union in a unit of models names the field of its members as the schema does. This is
the attribute under which their classes declare it exactly when it is a public name. -/
theorem tagFields_ofTable : ∀ (i : Nat) (p : Planned), u.plan[i]? = some p → ∃ d body,
    u.DeclaresModel settings t i d body ∧ ∀ members field, (members, field) ∈ body.tags →
      ∃ names, u.TagsFields settings t i d members field names := by
  intro i p hp
  obtain ⟨d, body, _, hbody⟩ := exists_declaresModel_of_planned h hp
  exact ⟨d, body, hbody, fun members field htag => exists_tagsFields h hbody htag⟩

end ofTable

end GeneratedUnit

/-- An owner has a cat or a dog, told apart by a field whose name begins with a dollar sign. -/
def Table.pets : Table where
  root := { metadataType := "Owner", rootType := "Owner" }
  definitions :=
    let kind (value : String) : List (String × Spec) :=
      [("$type", { shape := .const (.string value) })]
    let pet : Spec :=
      { shape := .union [{ shape := .reference "Cat" }, { shape := .reference "Dog" }]
          (some "$type") }
    [⟨"Cat", none, .object ⟨kind "cat", ["$type"], false, by decide⟩⟩,
     ⟨"Dog", none, .object ⟨kind "dog", ["$type"], false, by decide⟩⟩,
     ⟨"Owner", none, .object ⟨[("pet", pet)], ["pet"], false, by decide⟩⟩]
  names_nodup := by decide

namespace GeneratedUnit

theorem tagFields_ofTable_pets : ∃ u p, ofTable Target.pydantic.backend {} Table.pets = .ok u ∧
    u.plan[2]? = some p ∧ p.name = "Owner" ∧ ∃ d body,
      u.DeclaresModel {} Table.pets 2 d body ∧ ∀ members field, (members, field) ∈ body.tags →
        ∃ names, u.TagsFields {} Table.pets 2 d members field names := by
  have h : ofTable Target.pydantic.backend {} Table.pets = .ok _ := rfl
  exact ⟨_, _, h, rfl, rfl, tagFields_ofTable h 2 _ rfl⟩

/-- The union of pets is tagged by a name under which neither class declares the field. -/
theorem pets_tag_unknown : ∃ u d body, ofTable Target.pydantic.backend {} Table.pets = .ok u ∧
    u.DeclaresModel {} Table.pets 2 d body ∧
      body.tags = [([.name "Cat", .name "Dog"], "$type")] ∧
      ∀ n ∈ ["Cat", "Dog"], Table.pets.HasField n "$type" ∧
        u.DeclaresField {} Table.pets n "$type" "type" ∧
        ¬u.DeclaresField {} Table.pets n "$type" "$type" := by
  have h : ofTable Target.pydantic.backend {} Table.pets = .ok _ := rfl
  refine ⟨_, _, _, h, ⟨_, _, rfl, rfl, rfl, rfl, rfl, rfl⟩, rfl, ?_⟩
  have hname : Model.attributeName "$type" = "type" := by decide
  have hfields : ∀ n ∈ ["Cat", "Dog"], Table.pets.HasField n "$type" := by
    intro n hn
    rcases List.mem_pair.mp hn with rfl | rfl
    · exact ⟨_, _, rfl, rfl, List.mem_singleton_self _⟩
    · exact ⟨_, _, rfl, rfl, List.mem_singleton_self _⟩
  intro n hn
  refine ⟨hfields n hn, (declaresField_iff h (hfields n hn)).mpr hname.symm, fun hdeclares => ?_⟩
  rw [declaresField_iff h (hfields n hn), hname] at hdeclares
  exact absurd hdeclares (by decide)

end GeneratedUnit

end SchemaModels
