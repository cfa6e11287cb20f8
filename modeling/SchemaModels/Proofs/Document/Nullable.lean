import SchemaModels.Proofs.Document.Property

/-!
# Which properties are nullable

A property schema says that null is allowed by its type or by one of its alternatives. A
specification is nullable for that reason, or for another one: a schema with one alternative alone
is read as that alternative made nullable, also where no null stands beside it.

* `AllowsNull`: what a schema says of null, at any depth of alternatives.
* `nullable_iff`: when a specification is nullable.
* `nullable_specs`: the same for every specification inside one that was read.
* `property_besideNull`: what a schema beside null is read as, which lacks the bounds of the schema.
-/

namespace SchemaModels.Document

/-! ### What schemas say of null -/

/-- A schema allows null: its type is null, or null is one of its types, or one of its alternatives
allows null. -/
inductive AllowsNull : Json → Prop
  | type {es : Entries} (h : Entries.get? es "type" = some (.string "null")) :
      AllowsNull (.object es)
  | types {es : Entries} {types : List Json} (h : Entries.get? es "type" = some (.array types))
      (hnull : .string "null" ∈ types) : AllowsNull (.object es)
  | alternative {es : Entries} {key : String} {members : List Json} {m : Json}
      (hkey : key = "oneOf" ∨ key = "anyOf") (h : Entries.get? es key = some (.array members))
      (hm : m ∈ members) (hnull : AllowsNull m) : AllowsNull (.object es)

/-- A schema is read by one alternative: it has no other one, this one is not null, and no
discriminator is stated. -/
def IsLone (v : Json) : Prop :=
  ∃ es m, v = .object es ∧ Form.of es = .alternatives (.array [m]) ∧ isNullSchema m = false ∧
    statedDiscriminator es = none

/-- Null is among the types of a schema, or is its type, or is one of its alternatives. -/
def MentionsNull (v : Json) : Prop :=
  ∃ es, v = .object es ∧ (listsNull es = true ∨ Form.of es = .null ∨
    ∃ members, Form.of es = .alternatives (.array members) ∧ members.any isNullSchema = true)

section null
variable {es : Entries} {v : Json}

theorem isNullSchema_iff : isNullSchema v = true ↔
    ∃ es, v = .object es ∧ Entries.get? es "type" = some (.string "null") := by
  simp only [isNullSchema, decide_eq_true_eq, Option.bind_eq_some_iff, Json.get?_eq_some_iff,
    Json.asString?_eq_some_iff]
  constructor
  · rintro ⟨_, ⟨es, rfl, h⟩, rfl⟩
    exact ⟨es, rfl, h⟩
  · rintro ⟨es, rfl, h⟩
    exact ⟨_, ⟨es, rfl, h⟩, rfl⟩

theorem exists_of_listsNull (h : listsNull es = true) :
    ∃ types, Entries.get? es "type" = some (.array types) ∧ .string "null" ∈ types := by
  unfold listsNull at h
  split at h
  · rename_i types htypes
    refine ⟨types, htypes, ?_⟩
    simpa [Json.asString?_eq_some_iff] using h
  · cases h

theorem type_of_form_null (h : Form.of es = .null) :
    Entries.get? es "type" = some (.string "null") := by
  have hkeyword : typeKeyword es = some "null" := by
    rcases Form.of_cases es with ⟨_, hf⟩ | ⟨_, hf⟩ | ⟨_, hf, -⟩ | ⟨_, hf⟩ | hf
    case inr.inr.inr.inr =>
      rw [hf] at h
      rcases Form.ofType_cases es with hf | ⟨_, hf⟩ | ⟨_, hf⟩ | ⟨_, hf⟩ | ⟨-, hk⟩ | ⟨_, hf⟩
      case inr.inr.inr.inr.inl => exact hk
      all_goals cases hf.symm.trans h
    all_goals cases hf.symm.trans h
  unfold typeKeyword at hkeyword
  split at hkeyword
  · rename_i t ht
    rw [ht, Option.some.inj hkeyword]
  · -- Of several types the keyword is one that is not null.
    have hne := List.find?_some hkeyword
    simp at hne
  · cases hkeyword

theorem alternatives_of_form {members : Json} (h : Form.of es = .alternatives members) :
    alternatives? es = some members := by
  rcases Form.of_cases es with ⟨_, hf⟩ | ⟨_, hf⟩ | ⟨_, hf, ha⟩ | ⟨_, hf⟩ | hf
  case inr.inr.inl =>
    obtain rfl := Form.alternatives.inj (hf.symm.trans h)
    exact ha
  case inr.inr.inr.inr =>
    rw [hf] at h
    rcases Form.ofType_cases es with hf | ⟨_, hf⟩ | ⟨_, hf⟩ | ⟨_, hf⟩ | ⟨hf, -⟩ | ⟨_, hf⟩
    all_goals cases hf.symm.trans h
  all_goals cases hf.symm.trans h

theorem allowsNull_of_isNullSchema (h : isNullSchema v = true) : AllowsNull v := by
  obtain ⟨es, rfl, htype⟩ := isNullSchema_iff.mp h
  exact .type htype

/-- A schema that mentions null allows it. -/
theorem allowsNull_of_mentionsNull (h : MentionsNull v) : AllowsNull v := by
  obtain ⟨es, rfl, hlists | hform | ⟨members, hform, hnull⟩⟩ := h
  · obtain ⟨types, htypes, hmem⟩ := exists_of_listsNull hlists
    exact .types htypes hmem
  · exact .type (type_of_form_null hform)
  · obtain ⟨m, hm, hnull⟩ := List.any_eq_true.mp hnull
    have hallows := allowsNull_of_isNullSchema hnull
    rcases Option.or_eq_some_iff.mp (alternatives_of_form hform) with h | ⟨-, h⟩
    · exact .alternative (.inl rfl) h hm hallows
    · exact .alternative (.inr rfl) h hm hallows

end null

/-! ### Nullable specifications -/

section nullable
variable {es : Entries} {v : Json} {s : Spec}

theorem nullable_of_alternatives {nullable : Bool} {inner : List Spec} :
    (ofAlternatives es nullable inner).nullable = true ↔
      nullable = true ∨ (∃ single, inner = [single]) ∧ statedDiscriminator es = none := by
  unfold ofAlternatives
  split
  · rename_i single htag
    exact iff_of_true rfl (.inr ⟨⟨single, rfl⟩, htag⟩)
  · rename_i _ hother
    refine ⟨.inl, fun h => h.resolve_right ?_⟩
    rintro ⟨⟨single, rfl⟩, htag⟩
    exact hother single rfl htag

theorem mentionsNull_object : MentionsNull (.object es) ↔ listsNull es = true ∨ Form.of es = .null ∨
    ∃ members, Form.of es = .alternatives (.array members) ∧ members.any isNullSchema = true := by
  simp only [MentionsNull, Json.object.injEq, exists_eq_left']

theorem isLone_object : IsLone (.object es) ↔ ∃ m, Form.of es = .alternatives (.array [m]) ∧
    isNullSchema m = false ∧ statedDiscriminator es = none := by
  simp only [IsLone, Json.object.injEq, exists_and_left, exists_eq_left']

/-- One specification was read of alternatives without null: there is one alternative. -/
theorem eq_singleton_of_read {members : List Json} {single : Spec}
    (hread : (Form.alternatives (.array members)).read.mapM property = .ok [single])
    (hnull : members.any isNullSchema = false) : ∃ m, members = [m] ∧ isNullSchema m = false := by
  have hnone : ∀ m ∈ members, isNullSchema m = false := by simpa using hnull
  have hall : (Form.alternatives (.array members)).read = members := by
    refine List.filter_eq_self.mpr fun m hm => ?_
    rw [hnone m hm]
    rfl
  rw [hall] at hread
  obtain ⟨m, rfl, -⟩ := mapM_eq_ok_singleton hread
  exact ⟨m, rfl, hnone m List.mem_cons_self⟩

/-- A specification is nullable when its schema mentions null or has one alternative alone. -/
theorem nullable_iff (h : property v = .ok s) :
    s.nullable = true ↔ MentionsNull v ∨ IsLone v := by
  rcases property_eq_ok_cases h with ⟨rfl, rfl⟩ | ⟨es, rfl⟩
  · simp [MentionsNull, IsLone]
  obtain ⟨inner, hread, hs⟩ := property_object_eq_ok_iff.mp h
  rw [mentionsNull_object, isLone_object]
  rcases Form.assemble_cases hs with ⟨members, hform, rfl⟩ | ⟨hform, rfl⟩ |
    ⟨hother, hnull, shape, rfl, -⟩
  · rw [hform] at hread ⊢
    rw [nullable_of_alternatives, Bool.or_eq_true]
    constructor
    · rintro ((hlists | hany) | ⟨⟨single, rfl⟩, htag⟩)
      · exact .inl (.inl hlists)
      · exact .inl (.inr (.inr ⟨members, rfl, hany⟩))
      cases hany : members.any isNullSchema with
      | true => exact .inl (.inr (.inr ⟨members, rfl, hany⟩))
      | false =>
          obtain ⟨m, rfl, hm⟩ := eq_singleton_of_read hread hany
          exact .inr ⟨m, rfl, hm, htag⟩
    · rintro ((hlists | hnull | ⟨_, hsame, hany⟩) | ⟨m, hsame, hm, htag⟩)
      · exact .inl (.inl hlists)
      · cases hnull
      · obtain rfl := Json.array.inj (Form.alternatives.inj hsame)
        exact .inl (.inr hany)
      · obtain rfl := Json.array.inj (Form.alternatives.inj hsame)
        have hone : (Form.alternatives (.array [m])).read = [m] := by simp [Form.read, hm]
        rw [hone, mapM_singleton] at hread
        obtain ⟨single, -, rfl⟩ := map_eq_ok_iff.mp hread
        exact .inr ⟨⟨single, rfl⟩, htag⟩
  · exact iff_of_true rfl (.inl (.inr (.inl hform)))
  · constructor
    · exact fun hlists => .inl (.inl hlists)
    · rintro ((hlists | hform | ⟨_, hform, -⟩) | ⟨_, hform, -⟩)
      · exact hlists
      · exact absurd hform hnull
      · exact absurd hform (hother _)
      · exact absurd hform (hother _)

/-- A specification, at any depth, is nullable as its schema allows null, unless the schema has one
alternative alone: then it is nullable whatever the schema allows. The items of an array that says
nothing of them are not nullable. -/
theorem nullable_specs {v : Json} {s : Spec} (h : property v = .ok s) : ∀ c ∈ s.specs,
    c = { shape := .any } ∨ ∃ u, Inside v u ∧ property u = .ok c ∧
      (IsLone u → c.nullable = true) ∧ (¬IsLone u → c.nullable = true → AllowsNull u) := by
  intro c hc
  refine (exists_of_mem_specs h hc).imp_right ?_
  rintro ⟨u, hu, hcu⟩
  have hiff := nullable_iff hcu
  refine ⟨u, hu, hcu, fun hlone => hiff.mpr (.inr hlone), fun hlone hnull => ?_⟩
  exact allowsNull_of_mentionsNull ((hiff.mp hnull).resolve_right hlone)

end nullable

/-- The schema of strings. -/
def textSchema : Json := .object [("type", .string "string")]

/-- A schema with one alternative alone, which does not allow null. -/
def loneText : Json := .object [("anyOf", .array [textSchema])]

theorem property_textSchema : property textSchema = .ok { shape := .primitive .string } := by
  rw [textSchema, property_object]
  rfl

theorem property_loneText :
    property loneText = .ok { shape := .primitive .string, nullable := true } := by
  have hread : (Form.of [("anyOf", .array [textSchema])]).read = [textSchema] := rfl
  rw [loneText, property_object, hread, mapM_singleton, property_textSchema]
  rfl

theorem nullable_specs_loneText :
    property loneText = .ok { shape := .primitive .string, nullable := true } ∧
      ∀ c ∈ Spec.specs { shape := .primitive .string, nullable := true },
        c = { shape := .any } ∨ ∃ u, Inside loneText u ∧ property u = .ok c ∧
          (IsLone u → c.nullable = true) ∧ (¬IsLone u → c.nullable = true → AllowsNull u) :=
  ⟨property_loneText, nullable_specs property_loneText⟩

theorem not_allowsNull_textSchema : ¬AllowsNull textSchema := by
  intro h
  rw [textSchema] at h
  cases h with
  | type h => simp [Entries.get?] at h
  | types h => simp [Entries.get?] at h
  | alternative hkey h => rcases hkey with rfl | rfl <;> simp [Entries.get?, List.lookup_cons] at h

/-- The schema is nullable, although nothing in it allows null. -/
theorem loneText_nullable : ∃ s, property loneText = .ok s ∧ s.nullable = true ∧
    ¬AllowsNull loneText := by
  refine ⟨_, property_loneText, rfl, fun h => ?_⟩
  rw [loneText] at h
  cases h with
  | type h => simp [Entries.get?, List.lookup_cons] at h
  | types h => simp [Entries.get?, List.lookup_cons] at h
  | alternative hkey h hm hnull =>
      rcases hkey with rfl | rfl
      · simp [Entries.get?, List.lookup_cons] at h
      · obtain rfl : [textSchema] = _ := by simpa [Entries.get?, List.lookup_cons] using h
        rw [List.mem_singleton.mp hm] at hnull
        exact not_allowsNull_textSchema hnull

/-! ### A schema beside null -/

/-- The schema of null. -/
def nullSchema : Json := .object [("type", .string "null")]

/-- A schema and null as the alternatives of another schema, in both orders and under both keys. -/
def besideNull (v : Json) : List Json :=
  ["oneOf", "anyOf"].flatMap fun key =>
    [[v, nullSchema], [nullSchema, v]].map fun members => .object [(key, .array members)]

section beside
variable {v w : Json} {s : Spec}

theorem besideNull_cases (hw : w ∈ besideNull v) : ∃ es members, w = .object es ∧
    Form.of es = .alternatives (.array members) ∧
    (members = [v, nullSchema] ∨ members = [nullSchema, v]) ∧ bounds es = {} ∧
    (Entries.get? es "default" = none) ∧ string? es "description" = none ∧
    statedDiscriminator es = none := by
  simp only [besideNull, List.flatMap_cons, List.flatMap_nil, List.map_cons, List.map_nil,
    List.cons_append, List.nil_append, List.append_nil, List.mem_cons, List.not_mem_nil,
    or_false] at hw
  rcases hw with rfl | rfl | rfl | rfl
  · exact ⟨_, _, rfl, rfl, .inl rfl, rfl, rfl, rfl, rfl⟩
  · exact ⟨_, _, rfl, rfl, .inr rfl, rfl, rfl, rfl, rfl⟩
  · exact ⟨_, _, rfl, rfl, .inl rfl, rfl, rfl, rfl, rfl⟩
  · exact ⟨_, _, rfl, rfl, .inr rfl, rfl, rfl, rfl, rfl⟩

/-- A schema beside null is read as the schema, nullable and without bounds. -/
theorem property_beside (hv : isNullSchema v = false) (hw : w ∈ besideNull v) :
    property w = (property v).map fun s => { s with bounds := {}, nullable := true } := by
  obtain ⟨es, members, rfl, hform, hmembers, hbounds, hdefault, hdescription, htag⟩ :=
    besideNull_cases hw
  have hnull : isNullSchema nullSchema = true := rfl
  have hread : (Form.of es).read = [v] := by
    rcases hmembers with rfl | rfl <;> simp [hform, Form.read, hv, hnull]
  rw [property_object, hread, mapM_singleton, hform]
  cases property v with
  | error e => rfl
  | ok s =>
      refine congrArg Except.ok ?_
      simp only [ofAlternatives, htag, annotate, hbounds, hdefault, hdescription, Option.none_or]

/-- A schema beside null is read as the schema made nullable exactly when the schema states no
bounds: they are replaced by those that the outer schema states, which are none. Its shape, its
default and its description are kept. -/
theorem property_besideNull (hv : isNullSchema v = false) (h : property v = .ok s)
    (hw : w ∈ besideNull v) :
    property w = .ok { s with bounds := {}, nullable := true } ∧
      (property w = .ok { s with nullable := true } ↔ statedBounds v = {}) := by
  have hproperty : property w = .ok { s with bounds := {}, nullable := true } := by
    rw [property_beside hv hw, h]
    rfl
  refine ⟨hproperty, ?_⟩
  rw [hproperty, ← bounds_of_property h]
  simp [eq_comm]

/-- The schema of strings that are not empty. -/
def filledSchema : Json := .object [("type", .string "string"), ("minLength", .number (.integer 1))]

theorem property_filledSchema : property filledSchema =
    .ok { shape := .primitive .string, bounds := { minLength := some 1 } } := by
  rw [filledSchema, property_object]
  rfl

theorem property_besideNull_filledSchema :
    property (.object [("anyOf", .array [filledSchema, nullSchema])]) =
        .ok { shape := .primitive .string, nullable := true } ∧
      (property (.object [("anyOf", .array [filledSchema, nullSchema])]) =
          .ok { shape := .primitive .string, bounds := { minLength := some 1 }, nullable := true } ↔
        statedBounds filledSchema = {}) :=
  property_besideNull rfl property_filledSchema (by simp [besideNull])

/-- Beside null the least length is lost. -/
theorem filledSchema_besideNull_ne : isNullSchema filledSchema = false ∧
    ∃ s, property filledSchema = .ok s ∧
      property (.object [("anyOf", .array [filledSchema, nullSchema])]) ≠
        .ok { s with nullable := true } := by
  refine ⟨rfl, _, property_filledSchema, fun h => ?_⟩
  rw [property_beside rfl (show _ ∈ besideNull filledSchema by simp [besideNull]),
    property_filledSchema] at h
  simp [Except.map] at h

end beside

end SchemaModels.Document
