import SchemaModels.Model.Backend
import SchemaModels.Proofs.Model.TypeExpr
import SchemaModels.Proofs.Text.Parts

/-!
# The code of models

* `declaration_eq_ok_iff`: the declaration of a definition is its body, printed.
* `ofDefinition_eq_ok`: the body of a definition, by the kind of the definition.
* `text_of_isObject`: the body of a record is printed as a class.
* `mentions_ofDefinition`: a body names the definitions that its definition refers to.
* `holds_rootFields`: the names in the code of the top-level type.
* `Body.holds_line`, `Body.hasLines_field`, `Body.hasLines_member`: the lines of a class.
* `Field.writesDefault`: the default in the line of a field.
-/

namespace SchemaModels.Model

variable {settings : Settings} {t : Table} {isForward : String → Bool} {d : Definition}

theorem mem_optionally {α β : Type} {f : α → β} {a : Option α} {b : β} :
    b ∈ optionally f a ↔ ∃ x, a = some x ∧ f x = b := by
  simp [optionally]

theorem declaration_eq_ok_iff (plan : Plan) {p : Planned} {decl : Declaration} :
    declaration settings t plan p d = .ok decl ↔
      ∃ body, Body.ofDefinition settings t p.isForward d = .ok body ∧
        decl = .ofPlanned p
          (body.text (indentOf settings) d.name (settings.described d.description))
          body.imports := by
  unfold declaration
  cases Body.ofDefinition settings t p.isForward d <;>
    simp [bind, Except.bind, pure, Except.pure, eq_comm]

/-- The attributes of a class are those of its fields, in order. -/
theorem attributesAfter_eq_ok : ∀ {fields : List String} {seen : List (String × String)}
    {as : List Attribute}, attributesAfter seen fields = .ok as → as = fields.map Attribute.ofField
  | [], _, as, h => (Except.ok.inj h).symm
  | field :: rest, seen, as, h => by
      unfold attributesAfter at h
      split at h
      · exact absurd h (by simp)
      · cases hrest : attributesAfter ((attributeName field, field) :: seen) rest with
        | error c => rw [hrest] at h; exact absurd h (by simp [Except.map])
        | ok bs =>
            rw [hrest] at h
            obtain rfl : Attribute.ofField field :: bs = as := Except.ok.inj h
            rw [List.map_cons, attributesAfter_eq_ok hrest]

theorem attr_ofSpec (a : Attribute) (required : Bool) (s : Spec) :
    (Field.ofSpec isForward t a required s).attr = a.name := rfl

/-- The line of a field of a record. -/
def fieldOf (isForward : String → Bool) (t : Table) (record : Record) (f : String × Spec) : Field :=
  Field.ofSpec isForward t (Attribute.ofField f.1) (record.isRequired f.1) f.2

theorem ofRecord_eq {record : Record} {as : List Attribute}
    (h : attributes (record.fields.map Prod.fst) = .ok as) :
    Body.ofRecord settings t isForward record as =
      .model (settings.forbidExtra && record.strict)
        (record.fields.map (fieldOf isForward t record)) := by
  rw [attributesAfter_eq_ok h, Body.ofRecord, List.map_map, List.zipWith_map_left,
    List.zipWith_self]
  rfl

/-- What the declaration of a definition consists of, by the kind of the definition. -/
theorem ofDefinition_eq_ok {body : Body}
    (h : Body.ofDefinition settings t isForward d = .ok body) :
    (∃ values ms, d.kind = .enum values ∧ members values = .ok ms ∧ body = .enum ms) ∨
      (∃ record, d.kind = .object record ∧ body = .model (settings.forbidExtra && record.strict)
        (record.fields.map (fieldOf isForward t record))) ∨
      (∃ members discriminator, d.kind = .union members discriminator ∧ members ≠ [] ∧
        body = .union discriminator (members.map (TypeExpr.ofReference isForward))) ∨
      ∃ spec, d.kind = .typeAlias spec ∧
        body = .typeAlias (TypeExpr.ofSpec isForward spec) (boundArguments spec) := by
  unfold Body.ofDefinition at h
  cases hk : d.kind with
  | enum values =>
      rw [hk] at h
      dsimp only at h
      split at h
      · rename_i ms hms
        exact .inl ⟨values, ms, rfl, hms, (Except.ok.inj h).symm⟩
      · cases h
  | object record =>
      rw [hk] at h
      dsimp only at h
      split at h
      · rename_i as has
        exact .inr (.inl ⟨record, rfl, (Except.ok.inj h).symm.trans (ofRecord_eq has)⟩)
      · cases h
  | union members discriminator =>
      rw [hk] at h
      dsimp only at h
      split at h
      · cases h
      · rename_i hne
        exact .inr (.inr (.inl ⟨members, discriminator, rfl,
          fun he => hne (List.isEmpty_iff.mpr he), (Except.ok.inj h).symm⟩))
  | typeAlias spec =>
      rw [hk] at h
      exact .inr (.inr (.inr ⟨spec, rfl, (Except.ok.inj h).symm⟩))

theorem exists_classText (indent header : String) (blocks : List String) :
    ∃ rest, classText indent header blocks = header ++ "\n" ++ rest := by
  unfold classText
  split
  · exact ⟨indent ++ "pass", String.append_assoc⟩
  · exact ⟨_, rfl⟩

/-- The body of a record is a class with a line for each of its fields. -/
theorem eq_model_of_object {record : Record} (hk : d.kind = .object record) {body : Body}
    (h : Body.ofDefinition settings t isForward d = .ok body) :
    body = .model (settings.forbidExtra && record.strict)
      (record.fields.map (fieldOf isForward t record)) := by
  rcases ofDefinition_eq_ok h with ⟨_, _, hk', _⟩ | ⟨record', hk', rfl⟩ | ⟨_, _, hk', _⟩ |
    ⟨_, hk', _⟩
  · cases hk.symm.trans hk'
  · obtain rfl := Kind.object.inj (hk.symm.trans hk')
    rfl
  · cases hk.symm.trans hk'
  · cases hk.symm.trans hk'

/-- Only records are declared as classes with fields. -/
theorem exists_object_of_model {forbidsExtra : Bool} {lines : List Field}
    (h : Body.ofDefinition settings t isForward d = .ok (.model forbidsExtra lines)) :
    ∃ record, d.kind = .object record ∧ lines = record.fields.map (fieldOf isForward t record) := by
  rcases ofDefinition_eq_ok h with ⟨_, _, _, _, hb⟩ | ⟨record, hk, hb⟩ | ⟨_, _, _, _, hb⟩ |
    ⟨_, _, hb⟩
  · cases hb
  · exact ⟨record, hk, (Body.model.inj hb).2⟩
  · cases hb
  · cases hb

/-- The body of an enum is a class of its members. -/
theorem exists_members_of_enum {values : List String} (hk : d.kind = .enum values) {body : Body}
    (h : Body.ofDefinition settings t isForward d = .ok body) :
    ∃ ms, members values = .ok ms ∧ body = .enum ms := by
  rcases ofDefinition_eq_ok h with ⟨values', ms, hk', hms, rfl⟩ | ⟨_, hk', _⟩ | ⟨_, _, hk', _⟩ |
    ⟨_, hk', _⟩
  · obtain rfl := Kind.enum.inj (hk.symm.trans hk')
    exact ⟨ms, hms, rfl⟩
  · cases hk.symm.trans hk'
  · cases hk.symm.trans hk'
  · cases hk.symm.trans hk'

/-- The body of a record is printed as a class. -/
theorem text_of_isObject (hobj : d.isObject = true) {body : Body}
    (h : Body.ofDefinition settings t isForward d = .ok body) (indent name : String)
    (description : Option String) : ∃ rest,
      body.text indent name description = "class " ++ name ++ "(BaseModel):" ++ "\n" ++ rest := by
  unfold Definition.isObject at hobj
  split at hobj
  · rename_i record hk
    rw [eq_model_of_object hk h]
    exact exists_classText _ _ _
  · cases hobj

/-! ### The names in a body -/

theorem mentions_ofSpec_type (a : Attribute) (required : Bool) (s : Spec) :
    (Field.ofSpec isForward t a required s).type.mentions =
      s.mentions.map fun n => ⟨n, isForward n⟩ := by
  rw [← TypeExpr.mentions_ofSpec]
  show (if _ then TypeExpr.ofSpec isForward s
    else (TypeExpr.ofSpec isForward s).toOptional).mentions = _
  split
  · rfl
  · exact TypeExpr.mentions_toOptional _

/-- The fields of a record name what the record refers to. -/
theorem mentions_fields (record : Record) (fields : List (String × Spec)) :
    (fields.map (fieldOf isForward t record)).flatMap (fun f => f.type.mentions) =
      (fields.flatMap fun f => f.2.mentions).map fun n => ⟨n, isForward n⟩ := by
  rw [List.flatMap_map, List.map_flatMap]
  simp only [fieldOf, mentions_ofSpec_type]

theorem mentionsAll_ofReferences : ∀ members : List String,
    TypeExpr.mentionsAll (members.map (TypeExpr.ofReference isForward)) =
      members.map fun n => ⟨n, isForward n⟩
  | [] => rfl
  | n :: rest => by
      rw [List.map_cons, TypeExpr.mentionsAll, TypeExpr.mentions_ofReference,
        mentionsAll_ofReferences rest]
      rfl

/-- The body of a definition names what the definition refers to. -/
theorem mentions_ofDefinition {body : Body}
    (h : Body.ofDefinition settings t isForward d = .ok body) :
    body.mentions = d.mentions.map fun n => ⟨n, isForward n⟩ := by
  unfold Definition.mentions
  rcases ofDefinition_eq_ok h with ⟨values, ms, hk, _, rfl⟩ | ⟨record, hk, rfl⟩ |
    ⟨members, discriminator, hk, _, rfl⟩ | ⟨spec, hk, rfl⟩
  · rw [hk]
    rfl
  · rw [hk]
    exact mentions_fields record record.fields
  · rw [hk]
    exact mentionsAll_ofReferences members
  · rw [hk]
    exact TypeExpr.mentions_ofSpec isForward spec

/-! ### Lines -/

theorem holds_annotated (type : TypeExpr) (arguments : List String) :
    Holds (annotated type arguments) type.text := by
  unfold annotated
  exact ((((Holds.refl type.text).append_left _).append_right _).append_right _).append_right _

/-- The line of a field has the field's type. -/
theorem Field.holds_type (f : Field) : Holds f.text f.type.text := by
  unfold text
  split
  · exact ((Holds.refl f.type.text).append_left _).append_right _
  · exact (holds_annotated _ _).append_left _

theorem holds_classText_of_mem {indent header block : String} {blocks : List String}
    (h : block ∈ blocks) : Holds (classText indent header blocks) block := by
  unfold classText
  split
  · rename_i hempty
    rw [List.isEmpty_iff.mp hempty] at h
    exact absurd h List.not_mem_nil
  · exact (Holds.of_mem h).append_left _

/-- The line of a field stands in the code of its class. -/
theorem Body.holds_line {fields : List Field} {line : Field} (h : line ∈ fields)
    (indent name : String) (description : Option String) (forbidsExtra : Bool) :
    Holds ((Body.model forbidsExtra fields).text indent name description) line.text := by
  have hmem : line.text ∈ fields.map Field.text := List.mem_map_of_mem h
  have hindented : Holds (String.intercalate "\n" ((fields.map Field.text).map (indent ++ ·)))
      line.text :=
    (Holds.of_mem (List.mem_map_of_mem hmem)).trans ((Holds.refl line.text).append_left indent)
  have hne : ¬(fields.map Field.text).isEmpty = true :=
    fun he => List.ne_nil_of_mem hmem (List.isEmpty_iff.mp he)
  have hblock : blockOf indent (fields.map Field.text) =
      [String.intercalate "\n" ((fields.map Field.text).map (indent ++ ·))] := if_neg hne
  refine (holds_classText_of_mem (List.mem_append_right _ ?_)).trans hindented
  rw [hblock]
  exact List.mem_singleton_self _

/-- A block of a class is made of lines of the class. -/
theorem hasLines_classText {indent header block : String} {blocks : List String}
    (h : block ∈ blocks) : HasLines (classText indent header blocks) block := by
  have hne : ¬blocks.isEmpty = true := fun he => List.ne_nil_of_mem h (List.isEmpty_iff.mp he)
  rw [classText, if_neg hne]
  exact (HasLines.of_append header).trans (HasLines.of_mem_blocks h)

theorem exists_hasLines_blockOf {line : String} {lines : List String} (h : line ∈ lines)
    (indent : String) : ∃ block ∈ blockOf indent lines, HasLines block (indent ++ line) := by
  have hne : ¬lines.isEmpty = true := fun he => List.ne_nil_of_mem h (List.isEmpty_iff.mp he)
  rw [blockOf, if_neg hne]
  exact ⟨_, List.mem_singleton_self _, HasLines.of_mem (List.mem_map_of_mem h)⟩

section lines
variable (indent name : String) (description : Option String)

/-- A field has a line of its own in the code of its class. -/
theorem Body.hasLines_field {f : Field} {fields : List Field} (h : f ∈ fields)
    (forbidsExtra : Bool) :
    HasLines ((model forbidsExtra fields).text indent name description) (indent ++ f.text) := by
  obtain ⟨block, hmem, hline⟩ :=
    exists_hasLines_blockOf (List.mem_map_of_mem (f := Field.text) h) indent
  exact (hasLines_classText (List.mem_append_right _ hmem)).trans hline

/-- A member of an enum has a line of its own, with its value. -/
theorem Body.hasLines_member {m : String × String} {members : List (String × String)}
    (h : m ∈ members) : HasLines ((enum members).text indent name description)
      (indent ++ (m.1 ++ " = " ++ Text.quoted m.2)) := by
  obtain ⟨block, hmem, hline⟩ := exists_hasLines_blockOf
    (List.mem_map_of_mem (f := fun m : String × String => m.1 ++ " = " ++ Text.quoted m.2) h) indent
  exact (hasLines_classText (List.mem_append_right _ hmem)).trans hline

end lines

/-- The line of a field begins with the attribute. -/
theorem Field.exists_text (f : Field) : ∃ rest, f.text = f.attr ++ ": " ++ rest := by
  unfold text
  split
  · exact ⟨_, String.append_assoc⟩
  · exact ⟨_, rfl⟩

/-! ### Defaults -/

/-- The line of a field ends with a default, behind an equals sign or as the last argument. -/
def Field.WritesDefault (f : Field) (default : String) : Prop :=
  f.text = f.attr ++ ": " ++
    (if f.arguments.isEmpty then f.type.text ++ " = " ++ default
    else annotated f.type (f.arguments.map Argument.text ++ ["default=" ++ default]))

theorem Field.writesDefault {f : Field} {d : DefaultExpr} (h : f.default = some d) :
    f.WritesDefault d.text := by
  unfold WritesDefault text
  split
  · simp only [h, String.append_assoc]
  · rw [h]
    rfl

/-- The line of a field states a default, behind an equals sign or as the last argument. -/
def Field.StatesDefault (f : Field) : Prop :=
  ∃ d, f.default = some d ∧ f.text = f.attr ++ ": " ++
    (if f.arguments.isEmpty then f.type.text ++ " = " ++ d.text
    else annotated f.type (f.arguments.map Argument.text ++ ["default=" ++ d.text]))

theorem Field.statesDefault_iff {f : Field} : f.StatesDefault ↔ f.default.isSome = true := by
  rw [Option.isSome_iff_exists]
  exact exists_congr fun d => and_iff_left_of_imp Field.writesDefault

/-- A field has a default when one is stated or it may be left out. -/
theorem statesDefault_ofSpec_iff {a : Attribute} {required : Bool} {s : Spec} :
    (Field.ofSpec isForward t a required s).StatesDefault ↔
      s.default.isSome = true ∨ required = false := by
  rw [Field.statesDefault_iff]
  cases hd : s.default <;> cases required <;> cases hs : s.shape <;>
    simp [Field.ofSpec, impliedDefault, hd, hs]

/-- The fields of a class are those of its record, one for one. -/
theorem eq_fieldOf_of_mem_zip {record : Record} (hk : d.kind = .object record)
    {forbidsExtra : Bool} {lines : List Field}
    (h : Body.ofDefinition settings t isForward d = .ok (.model forbidsExtra lines))
    {f : String × Spec} {line : Field} (hmem : (f, line) ∈ record.fields.zip lines) :
    line = fieldOf isForward t record f := by
  obtain ⟨_, rfl⟩ := Body.model.inj (eq_model_of_object hk h)
  obtain ⟨i, hi⟩ := List.mem_iff_getElem?.mp hmem
  obtain ⟨hf, hline⟩ := List.getElem?_zip_eq_some.mp hi
  rw [List.getElem?_map, hf] at hline
  exact (Option.some.inj hline).symm

/-! ### The top-level type -/

/-- The lines of the two fields of the top-level type, with the names of their types. -/
def rootFields (indent : String) (root : Root) : String :=
  indent ++ "metadata: " ++ written ⟨root.metadataType, false⟩ ++ "\n" ++
    indent ++ "root: " ++ written ⟨root.rootType, false⟩

/-- A block of a class, before its last one, has line feeds around it. -/
theorem holds_classText (indent header : String) (docs : List String) (block last : String) :
    Holds (classText indent header (docs ++ [block] ++ [last])) ("\n" ++ block ++ "\n") := by
  have htwo : "\n\n" = "\n" ++ "\n" := by decide
  have hlast : String.intercalate "\n\n" [block, last] = block ++ "\n" ++ ("\n" ++ last) := by
    rw [String.intercalate_cons_cons, String.intercalate_singleton, htwo]
    simp only [String.append_assoc]
  cases docs with
  | nil =>
      refine ⟨header, "\n" ++ last, ?_⟩
      show header ++ "\n" ++ String.intercalate "\n\n" [block, last] = _
      rw [hlast]
      simp only [String.append_assoc]
  | cons doc docs =>
      refine ⟨header ++ "\n" ++ String.intercalate "\n\n" (doc :: docs) ++ "\n", "\n" ++ last, ?_⟩
      show header ++ "\n" ++ String.intercalate "\n\n" (doc :: docs ++ [block] ++ [last]) = _
      rw [List.append_assoc, List.singleton_append,
        String.intercalate_append_of_ne_nil (List.cons_ne_nil _ _) (List.cons_ne_nil _ _), hlast,
        htwo]
      simp only [String.append_assoc]

/-- The code of the top-level type has its two fields on lines of their own. -/
theorem holds_rootFields (settings : Settings) (t : Table) :
    Holds (schemaType settings t).code ("\n" ++ rootFields (indentOf settings) t.root ++ "\n") := by
  have hfields : blockOf (indentOf settings)
      ["metadata: " ++ t.root.metadataType, "root: " ++ t.root.rootType] =
        [rootFields (indentOf settings) t.root] := by
    show [String.intercalate "\n" [indentOf settings ++ ("metadata: " ++ t.root.metadataType),
      indentOf settings ++ ("root: " ++ t.root.rootType)]] = _
    rw [String.intercalate_cons_cons, String.intercalate_singleton]
    simp only [rootFields, written, String.append_assoc, Bool.false_eq_true, if_false]
  simp only [schemaType, hfields]
  exact holds_classText _ _ _ _ _

end SchemaModels.Model
