import SchemaModels.Proofs.Model.Alias
import SchemaModels.Proofs.Unit.Blocks
import SchemaModels.Proofs.Unit.Models

/-!
# Keys of models as JSON text

A unit of models writes each field under the name that the schema gives it. Whether models are
written by aliases is decided once for the whole table; the aliases stand on the lines of single
fields.

* `GeneratedUnit.WritesKey`: the line of a field keeps the field's name, and stands in code.
* `usesAliases_bound_iff`: models are written by aliases exactly when some class has one.
* `keys_ofTable`: the key of each field of each class is the field's name.
-/

namespace SchemaModels

namespace GeneratedUnit

/-- The line of a field keeps the name of the field: as attribute if it has no alias, else as alias.
This is the key under which the field is written. The line stands in code for itself, and begins
with the attribute. -/
structure WritesKey (indent code : String) (byAlias : Bool) (f : String × Spec)
    (line : Model.Field) : Prop where
  attr_eq : line.alias? = none → line.attr = f.1
  alias_eq : ∀ name, line.alias? = some name →
    name = f.1 ∧ Holds line.text ("alias=" ++ Text.quoted name)
  key_eq : line.jsonKey byAlias = f.1
  text_eq : ∃ rest, line.text = line.attr ++ ": " ++ rest
  hasLines : HasLines code (indent ++ line.text)

variable {settings : Settings} {t : Table} {u : GeneratedUnit}

theorem writesKey_ofSpec {indent code : String} {byAlias required : Bool}
    {isForward : String → Bool} {t : Table} {f : String × Spec} {s : Spec}
    (h : (Model.Attribute.ofField f.1).wireName.isSome = true → byAlias = true)
    (hcode : HasLines code
      (indent ++ (Model.Field.ofSpec isForward t (.ofField f.1) required s).text)) :
    WritesKey indent code byAlias f (.ofSpec isForward t (.ofField f.1) required s) where
  attr_eq hnone := by
    rw [Model.alias?_ofSpec] at hnone
    rw [Model.attr_ofSpec, Model.name_ofField]
    exact Model.wireName_ofField_eq_none_iff.mp hnone
  alias_eq name hname := by
    refine ⟨?_, Model.Field.holds_alias hname⟩
    rw [Model.alias?_ofSpec] at hname
    exact Model.eq_of_wireName_ofField hname
  key_eq := Model.jsonKey_ofSpec h
  text_eq := Model.Field.exists_text _
  hasLines := hcode

/-- The lines of a class that have an alias are those of fields that need one. -/
theorem DeclaresRecord.exists_alias_iff {i : Nat} {n : String} {record : Record}
    {lines : List Model.Field} (h : u.DeclaresRecord settings t i n record lines) :
    (∃ line ∈ lines, line.alias?.isSome = true) ↔
      ∃ f ∈ record.fields, (Model.Attribute.ofField f.1).wireName.isSome = true := by
  obtain ⟨p, _, rfl⟩ := h.lines_eq
  simp only [List.mem_map, exists_exists_and_eq_and, Model.alias?_ofSpec]

section ofTable
variable (h : ofTable Target.pydantic.backend settings t = .ok u)
include h

/-- The table that is declared uses aliases exactly when the class of some record has one. -/
theorem usesAliases_bound_iff : Model.usesAliases (t.bound settings) = true ↔
    ∃ i n record lines, u.DeclaresRecord settings t i n record lines ∧
      ∃ line ∈ lines, line.alias?.isSome = true := by
  rw [Model.usesAliases_iff]
  constructor
  · rintro ⟨d, hd, record', hk, f, hf, halias⟩
    obtain ⟨i, body, hbody⟩ := exists_declaresModel h hd
    obtain ⟨-, isForward, hof⟩ := hbody.exists_ofDefinition
    rw [Model.eq_model_of_object hk hof] at hbody
    obtain ⟨record, hrecord⟩ := hbody.exists_record
    refine ⟨i, d.name, record, _, hrecord, _, List.mem_map_of_mem hf, ?_⟩
    rw [Model.fieldOf, Model.alias?_ofSpec]
    exact halias
  · rintro ⟨i, n, record, lines, ⟨_, d, _, _, _, _, hbody⟩, line, hline, halias⟩
    obtain ⟨hmem, isForward, hof⟩ := hbody.exists_ofDefinition
    obtain ⟨record', hk, rfl⟩ := Model.exists_object_of_model hof
    obtain ⟨f, hf, rfl⟩ := List.mem_map.mp hline
    rw [Model.fieldOf, Model.alias?_ofSpec] at halias
    exact ⟨d, hmem, record', hk, f, hf, halias⟩

/-- The class of a record writes each field under its name. -/
theorem DeclaresRecord.writesKeys {i : Nat} {n : String} {record : Record}
    {lines : List Model.Field} (hrecord : u.DeclaresRecord settings t i n record lines) :
    ∃ decl, u.declarations[i]? = some decl ∧ List.Forall₂
      (WritesKey (Target.pydantic.backend.indent settings) decl.code
        (Model.usesAliases (t.bound settings))) record.fields lines := by
  have hflag : ∀ f ∈ record.fields, (Model.Attribute.ofField f.1).wireName.isSome = true →
      Model.usesAliases (t.bound settings) = true := fun f hf halias =>
    (usesAliases_bound_iff h).mpr
      ⟨i, n, record, lines, hrecord, hrecord.exists_alias_iff.mpr ⟨f, hf, halias⟩⟩
  obtain ⟨decl, hdecl, hlines⟩ := hrecord.exists_hasLines
  obtain ⟨p, _, rfl⟩ := hrecord.lines_eq
  refine ⟨decl, hdecl, ?_⟩
  rw [List.forall₂_map_right_iff, List.forall₂_same]
  exact fun f hf => writesKey_ofSpec (hflag f hf) (hlines _ (List.mem_map_of_mem hf))

/-- A unit of models ends with a class that writes models by aliases exactly when some class has an
alias. Under this rule each field of each class is written under its name: a field without an alias
has it as attribute, a field with an alias as alias. The fields stand on lines of their own in the
code of the class, which stands in the text. The class at the end has two fields of its own without
aliases. -/
theorem keys_ofTable : ∃ byAlias root, u.declarations[u.plan.length]? = some root ∧
    (∀ b, (∃ before, root.code =
      before ++ Model.toJson (Target.pydantic.backend.indent settings) b) ↔ b = byAlias) ∧
    Holds root.code
      ("\n" ++ Model.rootFields (Target.pydantic.backend.indent settings) t.root ++ "\n") ∧
    u.Shows settings root.code ∧
    (byAlias = true ↔ ∃ i n record lines, u.DeclaresRecord settings t i n record lines ∧
      ∃ line ∈ lines, line.alias?.isSome = true) ∧
    ∀ (i : Nat) (p : Planned), u.plan[i]? = some p → ∃ d body,
      u.DeclaresModel settings t i d body ∧ ∀ forbidsExtra lines,
        body = .model forbidsExtra lines → ∃ record decl,
          u.DeclaresRecord settings t i d.name record lines ∧
            u.declarations[i]? = some decl ∧ u.Shows settings decl.code ∧
            List.Forall₂ (WritesKey (Target.pydantic.backend.indent settings) decl.code byAlias)
              record.fields lines := by
  refine ⟨Model.usesAliases (t.bound settings), _, getElem?_root h, ?_, ?_,
    shows_code h (List.mem_of_getElem? (getElem?_root h)), usesAliases_bound_iff h,
    fun i p hp => ?_⟩
  · exact Model.exists_toJson_iff (Target.pydantic.backend.settle settings) (t.bound settings)
  · have hfields := Model.holds_rootFields (Target.pydantic.backend.settle settings)
      (t.bound settings)
    rw [Table.root_bound] at hfields
    exact hfields
  · obtain ⟨d, body, _, hbody⟩ := exists_declaresModel_of_planned h hp
    refine ⟨d, body, hbody, ?_⟩
    rintro forbidsExtra lines rfl
    obtain ⟨record, hrecord⟩ := hbody.exists_record
    obtain ⟨decl, hdecl, hkeys⟩ := hrecord.writesKeys h
    exact ⟨record, decl, hrecord, hdecl, shows_code h (List.mem_of_getElem? hdecl), hkeys⟩

end ofTable

end GeneratedUnit

/-- Pages have a field with the name of a keyword and a list of pairs, which the records of links
stand for. -/
def Table.pages : Table where
  root := { metadataType := "Page", rootType := "Page" }
  definitions :=
    let text : Spec := { shape := .primitive .string }
    let pair : Spec := { shape := .tuple [text, text] }
    let page := ((Record.empty.insert "class" text).insert "title" text).insert "links"
      { shape := .reference "Pairs" }
    [⟨"Page", none, .object page⟩,
     ⟨"Link", none, .object
       ⟨[("$from", text), ("to", text)], ["$from", "to"], false, by decide⟩⟩,
     ⟨"Pairs", none, .typeAlias { shape := .array pair }⟩]
  names_nodup := by decide

namespace GeneratedUnit

theorem keys_ofTable_pages : ∃ u root, ofTable Target.pydantic.backend {} Table.pages = .ok u ∧
    u.declarations[3]? = some root ∧
    (∃ before, root.code = before ++ Model.toJson (Target.pydantic.backend.indent {}) true) ∧
    ∀ (i : Nat) (p : Planned), u.plan[i]? = some p → ∃ d body,
      u.DeclaresModel {} Table.pages i d body ∧ ∀ forbidsExtra lines,
        body = .model forbidsExtra lines → ∃ record decl,
          u.DeclaresRecord {} Table.pages i d.name record lines ∧
            u.declarations[i]? = some decl ∧ u.Shows {} decl.code ∧
            List.Forall₂ (WritesKey (Target.pydantic.backend.indent {}) decl.code true)
              record.fields lines := by
  have h : ofTable Target.pydantic.backend {} Table.pages = .ok _ := rfl
  obtain ⟨byAlias, root, hroot, htoJson, -, -, halias, hkeys⟩ := keys_ofTable h
  have hpage : Table.pages.get? "Page" = some _ := rfl
  obtain ⟨i, lines, hrecord⟩ := exists_declaresRecord h hpage rfl
  -- The field `class` of pages has an alias.
  obtain rfl : byAlias = true :=
    halias.mpr ⟨i, "Page", _, lines, hrecord,
      hrecord.exists_alias_iff.mpr ⟨_, List.mem_cons_self, by decide⟩⟩
  exact ⟨_, root, h, hroot, (htoJson true).mpr rfl, hkeys⟩

end GeneratedUnit

end SchemaModels
