import SchemaModels.Proofs.Model.Member
import SchemaModels.Proofs.Unit.Blocks
import SchemaModels.Proofs.Unit.Models

/-!
# Defaults in units of models

A default that is written as the member of an enum is computed again where it is used, from the
table. The enum has been declared by then, since nothing in an enum leads back to a record, and its
class has one member of this name, with the value that the default has.

* `GeneratedUnit.NamesMember`: what a default says of an enum in the same unit.
* `not_reaches_of_enum`: an enum leads nowhere.
* `defaults_ofTable`: this is so for every default that is written as a member.
-/

namespace SchemaModels

theorem Table.not_reaches_of_enum {t : Table} {n m : String} {d : Definition}
    {values : List String} (hd : t.get? n = some d) (hk : d.kind = .enum values) :
    ¬t.Reaches n m := by
  intro hreaches
  obtain ⟨r, hrefers, -⟩ := Relation.TransGen.head'_iff.mp hreaches
  obtain ⟨d', hmem, hname, hr⟩ := hrefers
  have hd' : t.get? n = some d' := Table.get?_eq_some_iff.mpr ⟨hmem, hname⟩
  obtain rfl : d' = d := Option.some.inj (hd'.symm.trans hd)
  rw [Definition.mentions, hk] at hr
  exact absurd hr List.not_mem_nil

namespace GeneratedUnit

/-- A default at a place of a unit names a member of an enum. The line of the field, in the code at
this place, ends with the name of the enum and the name of the member, and the text that is the
default of the field in the table is the value of this member, which is the only one of its name in
a class that is declared before. The member has a line there. -/
structure NamesMember (u : GeneratedUnit) (settings : Settings) (t : Table) (i : Nat)
    (f : String × Spec) (line : Model.Field) (enum name : String) : Prop where
  writesDefault : line.WritesDefault (enum ++ "." ++ name)
  hasLines : ∃ decl, u.declarations[i]? = some decl ∧ u.Shows settings decl.code ∧
    HasLines decl.code (Target.pydantic.backend.indent settings ++ line.text)
  exists_member : ∃ v, f.2.default = some (.string v) ∧ ∃ j d members decl, j < i ∧
    d.name = enum ∧ u.DeclaresModel settings t j d (.enum members) ∧
    (members.filter fun m => m.1 = name) = [(name, v)] ∧
    u.declarations[j]? = some decl ∧ u.Shows settings decl.code ∧
    HasLines decl.code
      (Target.pydantic.backend.indent settings ++ (name ++ " = " ++ Text.quoted v))

variable {settings : Settings} {t : Table} {u : GeneratedUnit}

/-- What the type of a field names, the definition refers to. -/
theorem DeclaresRecord.mem_mentions {i : Nat} {n : String} {record : Record}
    {lines : List Model.Field} (h : u.DeclaresRecord settings t i n record lines)
    {line : Model.Field} (hline : line ∈ lines) {m : Mention} (hm : m ∈ line.type.mentions) :
    ∃ e forbidsExtra, e.name = n ∧ u.DeclaresModel settings t i e (.model forbidsExtra lines) ∧
      m.name ∈ e.mentions := by
  obtain ⟨d, e, forbidsExtra, _, _, hname, hbody⟩ := h
  obtain ⟨-, isForward, hof⟩ := hbody.exists_ofDefinition
  have hmem : m ∈ (Model.Body.model forbidsExtra lines).mentions :=
    List.mem_flatMap.mpr ⟨line, hline, hm⟩
  rw [Model.mentions_ofDefinition hof] at hmem
  obtain ⟨r, hr, rfl⟩ := List.mem_map.mp hmem
  exact ⟨e, forbidsExtra, hname, hbody, hr⟩

section ofTable
variable (h : ofTable Target.pydantic.backend settings t = .ok u)
include h

/-- A default that is written as a member names one. -/
theorem DeclaresRecord.namesMember {i : Nat} {n : String} {record : Record}
    {lines : List Model.Field} (hrecord : u.DeclaresRecord settings t i n record lines)
    {f : String × Spec} {line : Model.Field} (hmem : (f, line) ∈ record.fields.zip lines)
    {enum name : String} (hdefault : line.default = some (.member enum name)) :
    u.NamesMember settings t i f line enum name := by
  obtain ⟨decl, hdecl, hlines⟩ := hrecord.exists_hasLines
  have hwrites := Model.Field.writesDefault hdefault
  rw [Model.DefaultExpr.text] at hwrites
  refine ⟨hwrites, ⟨decl, hdecl, shows_code h (List.mem_of_getElem? hdecl),
    hlines line (List.of_mem_zip hmem).2⟩, ?_⟩
  obtain ⟨p, _, rfl⟩ := hrecord.line_eq hmem
  rw [Model.default_ofSpec_eq_member_iff] at hdefault
  obtain ⟨hshape, v, d, values, hv, hd, hk, hvalue, rfl⟩ := hdefault
  rw [Table.boundField_kept] at hv
  -- The type of the field names the enum, so that the record refers to it.
  have hnames : (⟨enum, p.isForward enum⟩ : Mention) ∈ (Model.Field.ofSpec p.isForward
      (t.bound settings) (.ofField f.1) (record.isRequired f.1)
      (t.boundField settings f.2)).type.mentions := by
    rw [Model.mentions_ofSpec_type, Table.boundField_kept, hshape]
    exact List.mem_singleton_self _
  obtain ⟨e, _, _, hbody, hrefers⟩ := hrecord.mem_mentions (List.of_mem_zip hmem).2 hnames
  obtain ⟨j, body, hj, henum⟩ :=
    exists_declaresModel_before h hbody hrefers hd (Table.not_reaches_of_enum hd hk)
  obtain ⟨-, isForward, hof⟩ := henum.exists_ofDefinition
  obtain ⟨members, hmembers, rfl⟩ := Model.exists_members_of_enum hk hof
  have honly := Model.filter_members_eq hmembers hvalue
  obtain ⟨code, hcode, hvalues⟩ := henum.exists_hasLines
  have hmember : (Model.memberName v, v) ∈ members :=
    List.mem_of_mem_filter (honly ▸ List.mem_singleton_self _)
  exact ⟨v, hv, j, d, members, code, hj, (Table.get?_eq_some_iff.mp hd).2, henum, honly, hcode,
    shows_code h (List.mem_of_getElem? hcode), hvalues (Model.memberName v, v) hmember⟩

/-- In a unit of models each default that is written as the member of an enum names a class that is
declared before, in which one member has this name and has the default as its value, in the text as
well. -/
theorem defaults_ofTable : ∀ (i : Nat) (p : Planned), u.plan[i]? = some p → ∃ d body,
    u.DeclaresModel settings t i d body ∧ ∀ forbidsExtra lines,
      body = .model forbidsExtra lines → ∃ record,
        u.DeclaresRecord settings t i d.name record lines ∧
          ∀ f line, (f, line) ∈ record.fields.zip lines → ∀ enum name,
            line.default = some (.member enum name) →
              u.NamesMember settings t i f line enum name := by
  intro i p hp
  obtain ⟨d, body, _, hbody⟩ := exists_declaresModel_of_planned h hp
  refine ⟨d, body, hbody, ?_⟩
  rintro forbidsExtra lines rfl
  obtain ⟨record, hrecord⟩ := hbody.exists_record
  exact ⟨record, hrecord, fun f line hmem enum name hdefault =>
    hrecord.namesMember h hmem hdefault⟩

end ofTable

end GeneratedUnit

/-- A text is aligned to the left unless it says otherwise; one alignment is listed twice. -/
def Table.aligned : Table where
  root := { metadataType := "Text", rootType := "Text" }
  definitions :=
    let align : Spec := { shape := .reference "Align", default := some (.string "top-left") }
    [⟨"Text", none, .object ⟨[("align", align)], [], false, by decide⟩⟩,
     ⟨"Align", none, .enum ["top-left", "right", "top-left"]⟩]
  names_nodup := by decide

namespace GeneratedUnit

theorem defaults_ofTable_aligned : ∃ u p, ofTable Target.pydantic.backend {} Table.aligned = .ok u ∧
    u.plan[1]? = some p ∧ p.name = "Text" ∧
    (∃ d body, u.DeclaresModel {} Table.aligned 1 d body ∧ ∀ forbidsExtra lines,
      body = .model forbidsExtra lines → ∃ record,
        u.DeclaresRecord {} Table.aligned 1 d.name record lines ∧
          ∀ f line, (f, line) ∈ record.fields.zip lines → ∀ enum name,
            line.default = some (.member enum name) →
              u.NamesMember {} Table.aligned 1 f line enum name) ∧
    ∃ i record lines, u.DeclaresRecord {} Table.aligned i "Text" record lines ∧
      ∃ line ∈ lines, line.default = some (.member "Align" "TOP_LEFT") := by
  have h : ofTable Target.pydantic.backend {} Table.aligned = .ok _ := rfl
  have htext : Table.aligned.get? "Text" = some _ := rfl
  obtain ⟨i, lines, hrecord⟩ := exists_declaresRecord h htext rfl
  obtain ⟨line, hmem⟩ := hrecord.exists_line List.mem_cons_self
  obtain ⟨p, _, hline⟩ := hrecord.line_eq hmem
  refine ⟨_, _, h, rfl, rfl, defaults_ofTable h 1 _ rfl, i, _, lines, hrecord, line,
    (List.of_mem_zip hmem).2, ?_⟩
  rw [hline, Model.default_ofSpec_eq_member_iff]
  exact ⟨rfl, "top-left", _, _, rfl, rfl, rfl, List.mem_cons_self, by decide⟩

end GeneratedUnit

end SchemaModels
