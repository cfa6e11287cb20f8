import SchemaModels.Proofs.Canonical.Conforms
import SchemaModels.Proofs.Canonical.Idempotent
import SchemaModels.Proofs.Model.AdmitsNone

/-!
# Canonical forms and models

Canonical forms stand for what models write back, so the two have to take the same instances. Two
questions are decided on both sides: whether a null is taken, and whether a field may be left out.

* `nulls_agree_iff`: they agree on a null unless it is let through only by something behind the
  specification: a literal, a member of a union, an alias.
* `omissions_agree_iff`: they agree on a field that is left out unless it is required with a null
  default, or the constant null without a default.
-/

namespace SchemaModels

open Canonical Model

namespace Table
variable {t : Table}

/-- A place takes a value. -/
def Takes (t : Table) (place : Place) (v : Json) : Prop := ∃ w, t.reading place v [] = .ok w

/-! ### Nulls -/

/-- A null is taken where the specification says so itself. -/
theorem takes_null_iff {s : Spec} (hs : s ∈ t.specs) :
    t.Takes (.spec s) .null ↔ s.nullable = true ∨ s.shape.isAny = true := by
  have hplace : t.Has (.spec s) := hs
  constructor
  · rintro ⟨w, hw⟩
    cases (reading_eq_ok_iff hplace).mp hw with
    | null h => exact h
    | literal _ hv => cases hv
    | const _ hv => cases hv
    | reference _ hv => cases hv
    | inlineTagged _ hv => cases hv
    | inlineMember _ hv => cases hv
    | any _ hv => cases hv
  · exact fun h => ⟨.null, (reading_eq_ok_iff hplace).mpr (.null h)⟩

theorem LetsNull.of_takes {s : Spec} (h : s.nullable = true ∨ s.shape.isAny = true) :
    t.LetsNull s := by
  rcases h with h | h
  · exact .nullable h
  · refine .any ?_
    cases hs : s.shape <;> simp_all [Shape.isAny]

theorem mem_specs_of_definition {name : String} {d : Definition} (hd : t.get? name = some d)
    {s : Spec} (hs : s ∈ d.specs) : s ∈ t.specs :=
  List.mem_flatMap.mpr ⟨d, (get?_eq_some_iff.mp hd).1, hs⟩

/-- Canonical forms take a null for a specification of a definition exactly when its type in the
models of a plan admits `None`, if and only if the specification says itself that it lets a null
through. -/
theorem nulls_agree_iff {settings : Settings} {blocks : List (List Nat)} {order : SectionOrder}
    {plan : Plan} (hb : t.graph.IsComponents blocks) (h : t.planWith blocks order = .ok plan)
    {name : String} {d : Definition} (hd : t.get? name = some d) {s : Spec} (hs : s ∈ d.specs)
    (isForward : String → Bool) :
    (t.Takes (.spec s) .null ↔
        AdmitsNone (plan.Declares settings t) (TypeExpr.ofSpec isForward s)) ↔
      (t.LetsNull s → s.nullable = true ∨ s.shape.isAny = true) := by
  rw [takes_null_iff (mem_specs_of_definition hd hs), admitsNone_ofSpec_iff hb h]
  exact ⟨fun hiff => hiff.mpr, fun himp => ⟨LetsNull.of_takes, himp⟩⟩

/-- A text or null. -/
def cellSpec : Spec := { shape := .primitive .string, nullable := true }

/-- A reference to cells. -/
def cellReference : Spec := { shape := .reference "Cell" }

/-- A text or null, and null by default. -/
def noteSpec : Spec := { shape := .primitive .string, nullable := true, default := some .null }

/-- A text with a default. -/
def labelSpec : Spec := { shape := .primitive .string, default := some (.string "row") }

/-- A row of cells with a note, which is required, and a label. -/
def rowRecord : Record where
  fields := [("cells", { shape := .array cellReference }), ("note", noteSpec), ("label", labelSpec)]
  required := ["cells", "note"]
  strict := false
  names_nodup := by decide

/-- The constant null. -/
def markSpec : Spec := { shape := .const .null }

/-- A mark, which may be left out. -/
def markRecord : Record where
  fields := [("mark", markSpec)]
  required := []
  strict := false
  names_nodup := by decide

/-- Rows of cells, which are texts or null, and marks. -/
def rows : Table where
  root := { metadataType := "Mark", rootType := "Row" }
  definitions := [⟨"Cell", none, .typeAlias cellSpec⟩, ⟨"Row", none, .object rowRecord⟩,
    ⟨"Mark", none, .object markRecord⟩]
  names_nodup := by decide

theorem nulls_agree_iff_rows : ∃ plan, rows.planWith rows.blocks {} = .ok plan ∧
    (∃ d, rows.get? "Cell" = some d ∧ cellSpec ∈ d.specs) ∧
    (rows.Takes (.spec cellSpec) .null ↔
      AdmitsNone (plan.Declares {} rows) (TypeExpr.ofSpec (fun _ => false) cellSpec)) := by
  have hplan : rows.planWith rows.blocks {} = .ok _ := rfl
  have hcell : rows.get? "Cell" = some ⟨"Cell", none, .typeAlias cellSpec⟩ := rfl
  have hmem : cellSpec ∈ Definition.specs ⟨"Cell", none, .typeAlias cellSpec⟩ :=
    cellSpec.mem_specs_self
  refine ⟨_, hplan, ⟨_, hcell, hmem⟩, ?_⟩
  exact (nulls_agree_iff isComponents_blocks hplan hcell hmem _).mpr fun _ => .inl rfl

/-- A null among the cells of a row is refused, although the type of the cells admits `None`. -/
theorem nulls_differ_rows : ∃ plan, rows.planWith rows.blocks {} = .ok plan ∧
    (∃ d, rows.get? "Row" = some d ∧ cellReference ∈ d.specs) ∧
    rows.canonicalAs "Row" (.object [("cells", .array [.null])]) =
      .error (.mismatch [.index 0, .key "cells"] .nonNull) ∧
    ¬(rows.Takes (.spec cellReference) .null ↔
      AdmitsNone (plan.Declares {} rows) (TypeExpr.ofSpec (fun _ => false) cellReference)) := by
  have hplan : rows.planWith rows.blocks {} = .ok _ := rfl
  have hmem : ∃ d, rows.get? "Row" = some d ∧ cellReference ∈ d.specs :=
    ⟨_, rfl, .tail _ (.head _)⟩
  refine ⟨_, hplan, hmem, rfl, fun hiff => ?_⟩
  obtain ⟨d, hd, hs⟩ := hmem
  have hlets : rows.LetsNull cellReference :=
    .typeAlias (n := "Cell") (d := ⟨"Cell", none, .typeAlias cellSpec⟩) rfl rfl rfl (.nullable rfl)
  have htakes := hiff.mpr (admitsNone_of_letsNull isComponents_blocks hplan hlets _)
  rw [takes_null_iff (mem_specs_of_definition hd hs)] at htakes
  exact absurd htakes (by decide)

/-! ### Omissions -/

/-- A field of a record is taken from what is given: its value is, or there is none and the field is
not required. -/
def TakesField (t : Table) (record : Record) (given : Entries) (f : String × Spec) : Prop :=
  match fieldValue (Entries.get? given f.1) f.2 (record.isRequired f.1) with
  | some v => t.Takes (.spec f.2) v
  | none => record.isRequired f.1 = false

/-- The place of the document does not matter to what is taken. -/
theorem takes_iff_of_path {place : Place} {v : Json} (path : Path) :
    (∃ w, t.reading place v path = .ok w) ↔ t.Takes place v := by
  unfold Takes reading
  simp only [← outcome_eq_value, outcome_readWithin_path _ place v path []]

theorem exists_fieldsRead_iff {record : Record} {given : Entries} (path : Path) :
    ∀ fields : List (String × Spec),
      (∃ out, FieldsRead t.reading record given path fields out) ↔
        ∀ f ∈ fields, t.TakesField record given f
  | [] => ⟨fun _ => by simp, fun _ => ⟨[], .nil⟩⟩
  | (f, s) :: rest => by
      rw [List.forall_mem_cons, ← exists_fieldsRead_iff path rest]
      unfold TakesField
      cases hv : fieldValue (Entries.get? given f) s (record.isRequired f) with
      | some v =>
          dsimp only
          rw [← takes_iff_of_path (.key f :: path)]
          constructor
          · rintro ⟨out, h⟩
            cases h with
            | cons hv' hr h =>
                obtain rfl := Option.some.inj (hv.symm.trans hv')
                exact ⟨⟨_, hr⟩, _, h⟩
            | skip hv' => exact absurd (hv.symm.trans hv') (by simp)
          · rintro ⟨⟨w, hr⟩, out, h⟩
            exact ⟨_, .cons hv hr h⟩
      | none =>
          dsimp only
          constructor
          · rintro ⟨out, h⟩
            cases h with
            | cons hv' => exact absurd (hv.symm.trans hv') (by simp)
            | skip _ hf h => exact ⟨hf, _, h⟩
          · rintro ⟨hf, out, h⟩
            exact ⟨_, .skip hv hf h⟩

/-- A record takes the objects from which each of its fields is taken. -/
theorem takes_record_iff {name : String} {d : Definition} {record : Record}
    (hd : t.get? name = some d) (hk : d.kind = .object record) {given : Entries} :
    t.Takes (.definition name) (.object given) ↔
      ∀ f ∈ record.fields, t.TakesField record given f := by
  rw [← exists_fieldsRead_iff []]
  constructor
  · rintro ⟨w, hw⟩
    have haccepts := (reading_eq_ok_iff (t.has_definition name)).mp hw
    obtain ⟨_, out, hgiven, _, h⟩ := haccepts.exists_fields hd hk
    obtain rfl := Json.object.inj hgiven
    exact ⟨out, h⟩
  · rintro ⟨out, h⟩
    exact ⟨.object out, (reading_eq_ok_iff (t.has_definition name)).mpr (.record hd hk h)⟩

/-- The constant of a specification is taken, unless it is a null that is not allowed. -/
theorem takes_const_iff {s : Spec} (hs : s ∈ t.specs) {c : Json} (hc : s.shape = .const c)
    (hdistinct : c.Distinct) : t.Takes (.spec s) c ↔ (c.isNull = true → s.nullable = true) := by
  cases hn : c.isNull with
  | true =>
      obtain rfl := Json.isNull_iff.mp hn
      simp [takes_null_iff hs, hc, Shape.isAny]
  | false =>
      have hplace : t.Has (.spec s) := hs
      have hsame : Accepts t t.reading [] (.spec s) c c := .const hc hn (Json.same_self hdistinct)
      have htakes : t.Takes (.spec s) c := ⟨c, (reading_eq_ok_iff hplace).mpr hsame⟩
      simp [htakes]

theorem fieldValue_of_unset {given : Entries} {f : String} (h : Unset given f) (s : Spec)
    (required : Bool) : fieldValue (Entries.get? given f) s required = impliedValue s required := by
  have hnone : (Entries.get? given f).filter (fun v => !v.isNull) = none :=
    Option.filter_eq_none_iff.mpr fun v hv => by simp [h v hv]
  rw [fieldValue, hnone, Option.none_or]

/-- A field on which the two sides differ when it is left out: it is required, with null as its
default, or not required, and the constant null without a default. -/
def Disputed (required : Bool) (s : Spec) : Prop :=
  required = true ∧ s.default = some .null ∨
    required = false ∧ s.default = none ∧ s.shape = .const .null ∧ s.nullable = false

/-- A field that is left out is taken exactly when its line states a default, unless it is
disputed. -/
theorem takesField_iff_of_unset (hkeys : t.DistinctKeys) {record : Record} {given : Entries}
    {f : String × Spec} (hf : f.2 ∈ t.specs) (hunset : Unset given f.1)
    (hdefault : ∀ v, f.2.default = some v → v.isNull = true ∨ t.Takes (.spec f.2) v) :
    (t.TakesField record given f ↔
        f.2.default.isSome = true ∨ record.isRequired f.1 = false) ↔
      ¬Disputed (record.isRequired f.1) f.2 := by
  unfold TakesField Disputed
  rw [fieldValue_of_unset hunset]
  cases hd : f.2.default with
  | some v =>
      cases hn : v.isNull with
      | true => simp [impliedValue, hd, Json.isNull_iff.mp hn, Json.isNull]
      | false =>
          have hne : v ≠ .null := fun he => by rw [he] at hn; cases hn
          have htakes := (hdefault v hd).resolve_left (by simp [hn])
          simp [impliedValue, hd, hn, hne, htakes]
  | none =>
      cases hr : record.isRequired f.1 with
      | true => cases hs : f.2.shape <;> simp [impliedValue, hd, hs]
      | false =>
          cases hs : f.2.shape with
          | const c =>
              have hdistinct : c.Distinct :=
                hkeys f.2 hf c (by simp [Spec.values, hs, Shape.asConst?])
              have hconst := takes_const_iff hf hs hdistinct
              simp [impliedValue, hd, hs, hconst, Json.isNull_iff]
          | _ => simp [impliedValue, hd, hs]

/-- For a field whose default, if any, is null or taken itself: canonical forms take the instances
that lack it, and give all other fields, exactly when its line in the model states a default, if and
only if it is not disputed. -/
theorem omissions_agree_iff {settings : Settings} {isForward : String → Bool}
    (hkeys : t.DistinctKeys) {name : String} {d : Definition} {record : Record}
    (hd : t.get? name = some d) (hk : d.kind = .object record) {forbidsExtra : Bool}
    {lines : List Field}
    (hbody : Body.ofDefinition settings t isForward d = .ok (.model forbidsExtra lines))
    {f : String × Spec} {line : Field} (hline : (f, line) ∈ record.fields.zip lines)
    (hdefault : ∀ v, f.2.default = some v → v.isNull = true ∨ t.Takes (.spec f.2) v)
    {given : Entries} (hunset : Unset given f.1)
    (hothers : ∀ g ∈ record.fields, g.1 ≠ f.1 → t.TakesField record given g) :
    ((∃ w, t.canonicalAs name (.object given) = .ok w) ↔ line.StatesDefault) ↔
      ¬Disputed (record.isRequired f.1) f.2 := by
  have hf : f ∈ record.fields := (List.of_mem_zip hline).1
  have htakes : (∃ w, t.canonicalAs name (.object given) = .ok w) ↔
      t.TakesField record given f := by
    refine (takes_record_iff hd hk).trans ⟨fun h => h f hf, fun h g hg => ?_⟩
    by_cases hname : g.1 = f.1
    · rwa [List.inj_on_of_nodup_map record.names_nodup hg hf hname]
    · exact hothers g hg hname
  rw [htakes, eq_fieldOf_of_mem_zip hk hbody hline, fieldOf, statesDefault_ofSpec_iff]
  exact takesField_iff_of_unset hkeys (mem_specs_of_field hd hk hf) hunset hdefault

/-- A row may be given without a label, and the line of the label states a default. -/
theorem omissions_agree_iff_label : rows.DistinctKeys ∧
    rows.get? "Row" = some ⟨"Row", none, .object rowRecord⟩ ∧
    ∃ lines, Body.ofDefinition {} rows (fun _ => false) ⟨"Row", none, .object rowRecord⟩ =
        .ok (.model false lines) ∧
      ∃ line, (("label", labelSpec), line) ∈ rowRecord.fields.zip lines ∧
        line.StatesDefault ∧
        ∃ w, rows.canonicalAs "Row" (.object [("cells", .array []), ("note", .string "")]) =
          .ok w := by
  have hkeys : rows.DistinctKeys := by decide
  have hd : rows.get? "Row" = some ⟨"Row", none, .object rowRecord⟩ := rfl
  have hlabel : ∀ v, labelSpec.default = some v → v.isNull = true ∨
      rows.Takes (.spec labelSpec) v := by
    rintro v hv
    obtain rfl := Option.some.inj hv
    exact .inr ⟨_, rfl⟩
  refine ⟨hkeys, hd, _, rfl, _, .tail _ (.tail _ (.head _)), ?_⟩
  have hbody : Body.ofDefinition {} rows (fun _ => false) ⟨"Row", none, .object rowRecord⟩ =
      .ok (.model false _) := rfl
  have hunset : Unset [("cells", .array []), ("note", .string "")] "label" := fun v hv => by
    cases hv
  have hagree := omissions_agree_iff hkeys hd rfl hbody (.tail _ (.tail _ (.head _))) hlabel hunset
    fun g hg _ => ?_
  · refine ⟨Field.statesDefault_iff.mpr rfl, (hagree.mpr ?_).mpr (Field.statesDefault_iff.mpr rfl)⟩
    simp [Disputed, labelSpec]
  · simp only [rowRecord, List.mem_cons, List.not_mem_nil, or_false] at hg
    rcases hg with rfl | rfl | rfl <;> exact ⟨_, rfl⟩

/-- A row without its note is refused, and so is a mark that is left out, although the lines of both
state a default. -/
theorem omissions_differ_rows :
    (∃ lines, Body.ofDefinition {} rows (fun _ => false) ⟨"Row", none, .object rowRecord⟩ =
        .ok (.model false lines) ∧
      ∃ line, (("note", noteSpec), line) ∈ rowRecord.fields.zip lines ∧
        line.text = "note: Optional[str] = None" ∧ line.StatesDefault ∧
        rows.canonicalAs "Row" (.object [("cells", .array [])]) =
          .error (.mismatch [.key "note"] (.field "note"))) ∧
    ∃ lines, Body.ofDefinition {} rows (fun _ => false) ⟨"Mark", none, .object markRecord⟩ =
        .ok (.model false lines) ∧
      ∃ line, (("mark", markSpec), line) ∈ markRecord.fields.zip lines ∧
        line.text = "mark: Literal[None] = None" ∧ line.StatesDefault ∧
        rows.canonicalAs "Mark" (.object []) = .error (.mismatch [.key "mark"] .nonNull) :=
  ⟨⟨_, rfl, _, .tail _ (.head _), rfl, Field.statesDefault_iff.mpr rfl, rfl⟩,
    ⟨_, rfl, _, .head _, rfl, Field.statesDefault_iff.mpr rfl, rfl⟩⟩

end Table

end SchemaModels
