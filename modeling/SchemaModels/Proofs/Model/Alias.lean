import SchemaModels.Proofs.Model.Attribute
import SchemaModels.Proofs.Model.Declaration

/-!
# Aliases

A field whose attribute has another name than the schema gives it states this name as an alias. The
top-level type writes models under aliases when some field of the table has one.

* `Field.alias?`, `Field.jsonKey`: the alias of a field, and the key under which it is written.
* `jsonKey_ofSpec`: the key is the name of the field if models with aliases are written by them.
* `usesAliases_iff`: when models are written by aliases.
* `exists_toJson_iff`: what the top-level type ends in says whether this is by aliases.
-/

namespace SchemaModels.Model

/-! ### Fields -/

/-- The alias that an argument states. -/
def Argument.alias? : Argument → Option String
  | wireName name => some name
  | _ => none

namespace Field

/-- The alias of a field. -/
def alias? (f : Field) : Option String := f.arguments.findSome? Argument.alias?

/-- The key under which a field is written: its attribute, or its alias if it has one and models are
written by aliases. -/
def jsonKey (byAlias : Bool) (f : Field) : String :=
  if byAlias then f.alias?.getD f.attr else f.attr

/-- An argument stands in the line of its field. -/
theorem holds_argument {f : Field} {a : Argument} (h : a ∈ f.arguments) : Holds f.text a.text := by
  have hne : ¬f.arguments.isEmpty = true := fun he =>
    List.ne_nil_of_mem h (List.isEmpty_iff.mp he)
  have hmem : a.text ∈ f.arguments.map Argument.text ++
      optionally ("default=" ++ ·.text) f.default :=
    List.mem_append_left _ (List.mem_map_of_mem h)
  have htext : f.text = f.attr ++ ": " ++ annotated f.type (f.arguments.map Argument.text ++
      optionally ("default=" ++ ·.text) f.default) := if_neg hne
  rw [htext]
  exact (((Holds.of_mem hmem).append_left _).append_right _).append_left _

/-- An alias stands in the line of its field. -/
theorem holds_alias {f : Field} {name : String} (h : f.alias? = some name) :
    Holds f.text ("alias=" ++ Text.quoted name) := by
  obtain ⟨a, ha, halias⟩ := List.exists_of_findSome?_eq_some h
  cases a with
  | wireName other =>
      obtain rfl : other = name := Option.some.inj halias
      have htext : (Argument.wireName other).text = "alias=" ++ Text.quoted other := rfl
      rw [← htext]
      exact holds_argument ha
  | _ => cases halias

end Field

section ofSpec
variable {isForward : String → Bool} {t : Table} {required : Bool} {s : Spec}

theorem findSome?_optionally {α : Type} {f : α → Argument} (hf : ∀ x, (f x).alias? = none)
    (a : Option α) : (optionally f a).findSome? Argument.alias? = none := by
  cases a with
  | none => rfl
  | some x => simp [optionally, hf x]

/-- The bounds of a field are no alias. -/
theorem findSome?_boundArguments (s : Spec) :
    (boundArguments s).findSome? Argument.alias? = none := by
  unfold boundArguments
  simp only [List.findSome?_append, Option.or_eq_none_iff]
  refine ⟨⟨⟨⟨⟨⟨?_, ?_⟩, ?_⟩, ?_⟩, ?_⟩, ?_⟩, ?_⟩ <;> exact findSome?_optionally (fun _ => rfl) _

/-- The alias of a field is what its attribute keeps beside it. -/
theorem alias?_ofSpec (a : Attribute) :
    (Field.ofSpec isForward t a required s).alias? = a.wireName := by
  have halias : (optionally Argument.wireName a.wireName).findSome? Argument.alias? =
      a.wireName := by
    cases a.wireName <;> rfl
  show (fieldArguments a s).findSome? Argument.alias? = _
  rw [fieldArguments, List.findSome?_append]
  split
  · exact halias
  · rw [findSome?_boundArguments, Option.none_or, halias]

/-- A field is written under its own name, whatever becomes of the name in its attribute, if models
with an alias are written by aliases. -/
theorem jsonKey_ofSpec {field : String} {byAlias : Bool}
    (h : (Attribute.ofField field).wireName.isSome = true → byAlias = true) :
    (Field.ofSpec isForward t (.ofField field) required s).jsonKey byAlias = field := by
  unfold Field.jsonKey
  rw [alias?_ofSpec, attr_ofSpec, name_ofField]
  cases hname : (Attribute.ofField field).wireName with
  | none =>
      rw [Option.getD_none, ite_self]
      exact wireName_ofField_eq_none_iff.mp hname
  | some name =>
      rw [h (by rw [hname]; rfl), if_pos rfl, Option.getD_some]
      exact eq_of_wireName_ofField hname

end ofSpec

/-! ### The top-level type -/

theorem usesAliases_iff {t : Table} : usesAliases t = true ↔ ∃ d ∈ t.definitions, ∃ record,
    d.kind = .object record ∧ ∃ f ∈ record.fields,
      (Attribute.ofField f.1).wireName.isSome = true := by
  have hrecord : ∀ (d : Definition) (record : Record),
      d.record? = some record ↔ d.kind = .object record := fun d record => by
    unfold Definition.record?
    split <;> simp_all
  simp only [usesAliases, List.any_eq_true, Option.any_eq_true, hrecord]

/-- The call that writes a model as JSON text, by aliases or not. -/
def dumpCall (byAlias : Bool) : String :=
  "return self.model_dump_json(" ++
    (if byAlias then "indent=2, exclude_none=True, by_alias=True"
    else "indent=2, exclude_none=True") ++ ")"

/-- The lines before this call. -/
def toJsonHead (indent : String) : String :=
  indent ++ "def to_json(self) -> str:\n" ++
    indent ++ indent ++ "\"\"\"Serialize to JSON, omitting unset optional fields.\"\"\"\n" ++
    indent ++ indent

/-- The method that writes a model as JSON text. -/
def toJson (indent : String) (byAlias : Bool) : String := toJsonHead indent ++ dumpCall byAlias

theorem intercalate_toJsonLines (indent : String) (t : Table) :
    String.intercalate "\n" (toJsonLines indent t) = toJson indent (usesAliases t) := by
  have hcall : "return self.model_dump_json(" ++ dumpArguments t ++ ")" =
      dumpCall (usesAliases t) := rfl
  have hdef : "def to_json(self) -> str:\n" = "def to_json(self) -> str:" ++ "\n" := by decide
  have hdoc : "\"\"\"Serialize to JSON, omitting unset optional fields.\"\"\"\n" =
      "\"\"\"Serialize to JSON, omitting unset optional fields.\"\"\"" ++ "\n" := by decide
  rw [toJsonLines, String.intercalate_cons_cons, String.intercalate_cons_cons,
    String.intercalate_singleton, toJson, toJsonHead, ← hcall, hdef, hdoc]
  simp only [String.append_assoc]

/-- The class of the top-level type ends in the method that writes it. -/
theorem exists_toJson (settings : Settings) (t : Table) : ∃ before,
    (schemaType settings t).code = before ++ toJson (indentOf settings) (usesAliases t) := by
  have hconcat : ∀ (indent header last : String) (blocks : List String),
      ∃ before, classText indent header (blocks ++ [last]) = before ++ last := by
    intro indent header last blocks
    have hne : ¬(blocks ++ [last]).isEmpty = true := by simp
    rw [classText, if_neg hne]
    cases blocks with
    | nil => exact ⟨header ++ "\n", by rw [List.nil_append, String.intercalate_singleton]⟩
    | cons block blocks =>
        rw [String.intercalate_append_of_ne_nil (List.cons_ne_nil _ _) (List.cons_ne_nil _ _),
          String.intercalate_singleton, ← String.append_assoc]
        exact ⟨_, rfl⟩
  rw [← intercalate_toJsonLines]
  exact hconcat _ _ _ _

/-- A text ends in one of the two calls only: they differ in their last ten characters. -/
theorem dumpCall_inj {before before' : String} {b b' : Bool}
    (h : before ++ dumpCall b = before' ++ dumpCall b') : b = b' := by
  have hcall : ∀ b, ∃ first last : String, dumpCall b = first ++ last ∧
      last = if b then "lias=True)" else "none=True)" := by
    intro b
    cases b with
    | false =>
        exact ⟨"return self.model_dump_json(indent=2, exclude_", "none=True)", by decide, rfl⟩
    | true =>
        exact ⟨"return self.model_dump_json(indent=2, exclude_none=True, by_a", "lias=True)",
          by decide, rfl⟩
  obtain ⟨first, last, hfirst, hlast⟩ := hcall b
  obtain ⟨first', last', hfirst', hlast'⟩ := hcall b'
  have hlength : last.toList.length = last'.toList.length := by
    rw [hlast, hlast']
    cases b <;> cases b' <;> decide
  have hlist : (before ++ first).toList ++ last.toList =
      (before' ++ first').toList ++ last'.toList := by
    rw [← String.toList_append, ← String.toList_append, String.append_assoc, String.append_assoc,
      ← hfirst, ← hfirst', h]
  have hends : last.toList = last'.toList := List.append_inj_right' hlist hlength
  rw [hlast, hlast'] at hends
  cases b <;> cases b'
  · rfl
  · exact absurd hends (by decide)
  · exact absurd hends (by decide)
  · rfl

/-- What the class of the top-level type ends in says whether models are written by aliases. -/
theorem exists_toJson_iff (settings : Settings) (t : Table) (byAlias : Bool) :
    (∃ before, (schemaType settings t).code = before ++ toJson (indentOf settings) byAlias) ↔
      byAlias = usesAliases t := by
  have hcall : ∀ (before : String) (b : Bool), before ++ toJson (indentOf settings) b =
      before ++ toJsonHead (indentOf settings) ++ dumpCall b := fun before b => by
    simp only [toJson, String.append_assoc]
  obtain ⟨before, hcode⟩ := exists_toJson settings t
  constructor
  · rintro ⟨before', hcode'⟩
    rw [hcode, hcall, hcall] at hcode'
    exact (dumpCall_inj hcode').symm
  · rintro rfl
    exact ⟨before, hcode⟩

end SchemaModels.Model
