import SchemaModels.Proofs.Model.Declaration
import SchemaModels.Proofs.Spec.Binding
import SchemaModels.Proofs.Unit.Declarations

/-!
# The declarations of a unit of models

Each place of a unit of models declares the class or the assignment of the definition that is
planned there, and each definition has a place.

* `GeneratedUnit.DeclaresModel`: what a place of a unit of models declares.
* `GeneratedUnit.DeclaresRecord`: a place declares the class of a record.
* `exists_declaresModel_of_planned`, `exists_declaresModel`: each place and each definition has a
  declaration.
* `DeclaresRecord.lines_eq`: the fields of a class, by those of the record.
* `DeclaresRecord.exists_hasLines`, `DeclaresModel.exists_hasLines`: the lines of fields and of
  members.
* `exists_declaresModel_before`: what a declaration refers to without a cycle is declared before it.
-/

namespace SchemaModels

/-! ### Records of a table and of the table that is declared -/

namespace Table
variable (t : Table) (settings : Settings)

/-- The specification of a field as it is declared. -/
def boundField (s : Spec) : Spec := if settings.bindingRecords then t.bindField s else s

/-- The kind of a definition as it is declared. -/
def boundKind (d : Definition) : Kind := if settings.bindingRecords then t.bindKind d else d.kind

/-- Only the shape of a field can be different where it is declared. -/
theorem boundField_kept (s : Spec) :
    t.boundField settings s = { s with shape := (t.boundField settings s).shape } := by
  unfold boundField
  split
  · exact bindField_kept
  · cases s
    rfl

theorem get?_bound (n : String) : (t.bound settings).get? n =
    (t.get? n).map fun d => { d with kind := t.boundKind settings d } := by
  unfold bound boundKind
  cases settings.bindingRecords with
  | true =>
      show (t.definitions.map _).find? _ = (t.definitions.find? _).map _
      rw [List.find?_map]
      rfl
  | false =>
      show t.get? n = (t.get? n).map id
      rw [Option.map_id, id]

/-- A record stays a record: its fields keep their names, and the same ones are required. -/
theorem boundKind_of_object {d : Definition} {record : Record} (hk : d.kind = .object record) :
    ∃ record', t.boundKind settings d = .object record' ∧ record'.required = record.required ∧
      record'.fields = record.fields.map fun f => (f.1, t.boundField settings f.2) := by
  unfold boundKind boundField
  cases settings.bindingRecords with
  | true =>
      have hbound : t.bindKind d = .object (record.mapFields fun _ s => t.bindField s) := by
        rw [bindKind, hk]
      exact ⟨_, hbound, rfl, rfl⟩
  | false => exact ⟨record, hk, rfl, (List.map_id' record.fields).symm⟩

variable {t settings} in
/-- What is declared as a record is one. -/
theorem exists_object_of_boundKind {d : Definition} {record' : Record}
    (hk : t.boundKind settings d = .object record') : ∃ record, d.kind = .object record := by
  obtain ⟨name, description, kind⟩ := d
  unfold boundKind bindKind at hk
  cases kind with
  | object record => exact ⟨record, rfl⟩
  | _ => cases hb : settings.bindingRecords <;> rw [hb] at hk <;> cases hk

end Table

namespace GeneratedUnit

/-- A place of a unit declares the class or the assignment of a definition: its code is a body,
printed. -/
def DeclaresModel (u : GeneratedUnit) (settings : Settings) (t : Table) (i : Nat) (d : Definition)
    (body : Model.Body) : Prop :=
  let settled := Target.pydantic.backend.settle settings
  ∃ p decl, u.plan[i]? = some p ∧ (t.bound settings).get? p.name = some d ∧
    Model.Body.ofDefinition settled (t.bound settings) p.isForward d = .ok body ∧
    u.declarations[i]? = some decl ∧ decl.name = d.name ∧
    decl.code = body.text (Model.indentOf settled) d.name (settled.described d.description)

/-- A place of a unit declares the class of a record of the table, with these fields. -/
def DeclaresRecord (u : GeneratedUnit) (settings : Settings) (t : Table) (i : Nat) (n : String)
    (record : Record) (lines : List Model.Field) : Prop :=
  ∃ d e forbidsExtra, t.get? n = some d ∧ d.kind = .object record ∧ e.name = n ∧
    u.DeclaresModel settings t i e (.model forbidsExtra lines)

variable {settings : Settings} {t : Table} {u : GeneratedUnit}

/-- A declaration is made of a definition of the table that is declared. -/
theorem DeclaresModel.exists_ofDefinition {i : Nat} {d : Definition} {body : Model.Body}
    (h : u.DeclaresModel settings t i d body) : d ∈ (t.bound settings).definitions ∧
      ∃ isForward, Model.Body.ofDefinition (Target.pydantic.backend.settle settings)
        (t.bound settings) isForward d = .ok body := by
  obtain ⟨p, _, _, hd, hof, _⟩ := h
  exact ⟨(Table.get?_eq_some_iff.mp hd).1, p.isForward, hof⟩

/-- What is declared as a class with fields is a record of the table. -/
theorem DeclaresModel.exists_record {i : Nat} {e : Definition} {forbidsExtra : Bool}
    {lines : List Model.Field} (h : u.DeclaresModel settings t i e (.model forbidsExtra lines)) :
    ∃ record, u.DeclaresRecord settings t i e.name record lines := by
  obtain ⟨hmem, isForward, hof⟩ := h.exists_ofDefinition
  have he : (t.bound settings).get? e.name = some e := Table.get?_eq_some_iff.mpr ⟨hmem, rfl⟩
  rw [Table.get?_bound] at he
  obtain ⟨d, hd, rfl⟩ := Option.map_eq_some_iff.mp he
  obtain ⟨_, hbound, _⟩ := Model.exists_object_of_model hof
  obtain ⟨record, hk⟩ := Table.exists_object_of_boundKind hbound
  exact ⟨record, d, _, forbidsExtra, hd, hk, rfl, h⟩

/-- The fields of a class are those of its record, one for one. Only their shapes can be different
from what the table says. -/
theorem DeclaresRecord.lines_eq {i : Nat} {n : String} {record : Record}
    {lines : List Model.Field} (h : u.DeclaresRecord settings t i n record lines) :
    ∃ p, u.plan[i]? = some p ∧ lines = record.fields.map fun f =>
      Model.Field.ofSpec p.isForward (t.bound settings) (.ofField f.1) (record.isRequired f.1)
        (t.boundField settings f.2) := by
  obtain ⟨d, e, forbidsExtra, hd, hk, hname, p, _, hp, he, hof, _⟩ := h
  obtain rfl : p.name = n := (Table.get?_eq_some_iff.mp he).2.symm.trans hname
  rw [Table.get?_bound, hd] at he
  obtain rfl := Option.some.inj he
  obtain ⟨record', hbound, hrequired, hfields⟩ := t.boundKind_of_object settings hk
  have hlines := (Model.Body.model.inj (Model.eq_model_of_object hbound hof)).2
  refine ⟨p, hp, ?_⟩
  rw [hlines, hfields, List.map_map]
  refine List.map_congr_left fun f _ => ?_
  show Model.Field.ofSpec _ _ _ (record'.isRequired f.1) _ = _
  rw [Record.isRequired, hrequired]
  rfl

/-- The line beside a field is made of it. -/
theorem DeclaresRecord.line_eq {i : Nat} {n : String} {record : Record} {lines : List Model.Field}
    (h : u.DeclaresRecord settings t i n record lines) {f : String × Spec} {line : Model.Field}
    (hmem : (f, line) ∈ record.fields.zip lines) : ∃ p, u.plan[i]? = some p ∧
      line = Model.Field.ofSpec p.isForward (t.bound settings) (.ofField f.1)
        (record.isRequired f.1) (t.boundField settings f.2) := by
  obtain ⟨p, hp, hlines⟩ := h.lines_eq
  obtain ⟨k, hk⟩ := List.mem_iff_getElem?.mp hmem
  obtain ⟨hf, hline⟩ := List.getElem?_zip_eq_some.mp hk
  rw [hlines, List.getElem?_map, hf] at hline
  exact ⟨p, hp, (Option.some.inj hline).symm⟩

theorem DeclaresRecord.exists_line {i : Nat} {n : String} {record : Record}
    {lines : List Model.Field} (h : u.DeclaresRecord settings t i n record lines)
    {f : String × Spec} (hf : f ∈ record.fields) :
    ∃ line, (f, line) ∈ record.fields.zip lines := by
  obtain ⟨p, _, hlines⟩ := h.lines_eq
  obtain ⟨k, hk⟩ := List.mem_iff_getElem?.mp hf
  have hline := congrArg (fun l => l[k]?) hlines
  simp only [List.getElem?_map, hk, Option.map_some] at hline
  exact ⟨_, List.mem_iff_getElem?.mpr ⟨k, List.getElem?_zip_eq_some.mpr ⟨hk, hline⟩⟩⟩

/-- The lines of a class stand in the code that is declared. -/
theorem DeclaresRecord.exists_hasLines {i : Nat} {n : String} {record : Record}
    {lines : List Model.Field} (h : u.DeclaresRecord settings t i n record lines) :
    ∃ decl, u.declarations[i]? = some decl ∧ ∀ line ∈ lines,
      HasLines decl.code (Target.pydantic.backend.indent settings ++ line.text) := by
  obtain ⟨_, _, _, _, _, _, _, decl, _, _, _, hdecl, _, hcode⟩ := h
  refine ⟨decl, hdecl, fun line hline => ?_⟩
  rw [hcode]
  exact Model.Body.hasLines_field _ _ _ hline _

/-- The members of an enum stand in the code that is declared, each with its value. -/
theorem DeclaresModel.exists_hasLines {i : Nat} {d : Definition} {members : List (String × String)}
    (h : u.DeclaresModel settings t i d (.enum members)) :
    ∃ decl, u.declarations[i]? = some decl ∧ ∀ m ∈ members, HasLines decl.code
      (Target.pydantic.backend.indent settings ++ (m.1 ++ " = " ++ Text.quoted m.2)) := by
  obtain ⟨_, decl, _, _, _, hdecl, _, hcode⟩ := h
  refine ⟨decl, hdecl, fun m hm => ?_⟩
  rw [hcode]
  exact Model.Body.hasLines_member _ _ _ hm

section ofTable
variable (h : ofTable Target.pydantic.backend settings t = .ok u)
include h

/-- What is planned at a place is declared there. -/
theorem exists_declaresModel_of_planned {i : Nat} {p : Planned} (hp : u.plan[i]? = some p) :
    ∃ d body, (t.bound settings).get? p.name = some d ∧ u.DeclaresModel settings t i d body := by
  obtain ⟨d, decl, hd, hdecl, hcode⟩ := getElem?_declarations h hp
  obtain ⟨body, hbody, rfl⟩ := (Model.declaration_eq_ok_iff u.plan).mp hcode
  have hname : p.name = d.name := (Table.get?_eq_some_iff.mp hd).2.symm
  exact ⟨d, body, hd, p, _, hp, hd, hbody, hdecl, hname, rfl⟩

/-- Every definition is declared at some place. -/
theorem exists_declaresModel {d : Definition} (hd : d ∈ (t.bound settings).definitions) :
    ∃ i body, u.DeclaresModel settings t i d body := by
  have hplanned : d.name ∈ u.plan.map Planned.name :=
    (perm_names h).mem_iff.mpr (Table.mem_names.mpr ⟨d, hd, rfl⟩)
  obtain ⟨p, hp, hname⟩ := List.mem_map.mp hplanned
  obtain ⟨i, hi⟩ := List.mem_iff_getElem?.mp hp
  have hget : (t.bound settings).get? p.name = some d :=
    Table.get?_eq_some_iff.mpr ⟨hd, hname.symm⟩
  obtain ⟨d', body, hd', hdeclares⟩ := exists_declaresModel_of_planned h hi
  obtain rfl : d' = d := Option.some.inj (hd'.symm.trans hget)
  exact ⟨i, body, hdeclares⟩

/-- Every record has a class. -/
theorem exists_declaresRecord {n : String} {d : Definition} (hd : t.get? n = some d)
    {record : Record} (hk : d.kind = .object record) :
    ∃ i lines, u.DeclaresRecord settings t i n record lines := by
  have he : (t.bound settings).get? n = some { d with kind := t.boundKind settings d } := by
    rw [Table.get?_bound, hd, Option.map_some]
  obtain ⟨hmem, hname⟩ := Table.get?_eq_some_iff.mp he
  obtain ⟨i, body, hdeclares⟩ := exists_declaresModel h hmem
  obtain ⟨record', hbound, _⟩ := t.boundKind_of_object settings hk
  obtain ⟨-, isForward, hof⟩ := hdeclares.exists_ofDefinition
  rw [Model.eq_model_of_object hbound hof] at hdeclares
  exact ⟨i, _, d, _, _, hd, hk, hname, hdeclares⟩

/-- What a definition refers to is declared before it when it does not lead back. -/
theorem exists_declaresModel_before {i : Nat} {d e : Definition} {body : Model.Body}
    (hbody : u.DeclaresModel settings t i d body) {n : String} (hn : n ∈ d.mentions)
    (he : (t.bound settings).get? n = some e) (hback : ¬(t.bound settings).Reaches n d.name) :
    ∃ j body', j < i ∧ u.DeclaresModel settings t j e body' := by
  obtain ⟨p, _, hp, hd, _⟩ := hbody
  -- A forward reference would lead back.
  have hforward : n ∉ p.forwardRefs := fun hlater => hback <| by
    rw [(Table.get?_eq_some_iff.mp hd).2]
    exact Table.reaches_of_mem_forwardRefs Table.isComponents_blocks (exists_declare h).1
      (List.mem_of_getElem? hp) hlater
  obtain ⟨j, q, hj, hq, rfl⟩ := exists_planned_before h hp hd hn hforward
  obtain ⟨e', body', he', hdeclares⟩ := exists_declaresModel_of_planned h hq
  obtain rfl : e' = e := Option.some.inj (he'.symm.trans he)
  exact ⟨j, body', hj, hdeclares⟩

end ofTable

end GeneratedUnit

end SchemaModels
