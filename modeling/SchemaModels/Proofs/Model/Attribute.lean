import SchemaModels.Model.Attribute

/-!
# The attributes of fields

The attribute of a field is always a name that a class can declare and that is not private. So a
field has its own name as attribute exactly when that name is such a name already.

* `IsPublic`: identifiers that do not begin with an underscore.
* `isPublic_attributeName`, `attributeName_of_isPublic`: the attribute's name is public, and a
  public name stays as it is.
* `attributeName_eq_self_iff`, `wireName_ofField_eq_none_iff`: when a field keeps its name.
-/

namespace SchemaModels.Model

/-- A name of an attribute that is not private: an identifier without an underscore in front. -/
structure IsPublic (name : String) : Prop where
  isIdentifier : Name.isIdentifier name = true
  visible : name.toList.head? ≠ some '_'

/-! ### Characters -/

/-- Letters and digits have different codes. -/
theorem isDigit_eq_false_of_isAlpha {c : Char} (h : c.isAlpha = true) : c.isDigit = false := by
  have hletter : (decide (65 ≤ c.toNat ∧ c.toNat ≤ 90) ||
      (decide (97 ≤ c.toNat) && decide (c.toNat ≤ 122))) = true := h
  have hdigit : c.isDigit = (decide (48 ≤ c.toNat) && decide (c.toNat ≤ 57)) := rfl
  simp only [Bool.or_eq_true, Bool.and_eq_true, decide_eq_true_eq] at hletter
  rw [hdigit, Bool.and_eq_false_iff, decide_eq_false_iff_not, decide_eq_false_iff_not]
  omega

/-- A character that can stand in a word. -/
def InWord (c : Char) : Prop := (c.isAlphanum || c == '_') = true

theorem inWord_attributeChar (c : Char) : InWord (attributeChar c) := by
  unfold attributeChar
  split
  · assumption
  · rfl

theorem attributeChar_of_inWord {c : Char} (h : InWord c) : attributeChar c = c := if_pos h

theorem inWord_of_isAlpha {c : Char} (h : c.isAlpha = true) : InWord c := by
  simp [InWord, Char.isAlphanum, h]

/-- Characters of a word that begin with a letter. -/
def PublicWord (chars : List Char) : Prop :=
  ∃ c rest, chars = c :: rest ∧ c.isAlpha = true ∧ ∀ d ∈ rest, InWord d

/-- Of the characters that can begin a word only the underscore is no letter. -/
theorem publicWord_iff {chars : List Char} :
    PublicWord chars ↔ Name.isWordOf ['_'] chars = true ∧ chars.head? ≠ some '_' := by
  have hword : ∀ d, (d.isAlphanum || ['_'].contains d) = true ↔ InWord d := fun d => by
    simp [InWord]
  constructor
  · rintro ⟨c, rest, rfl, halpha, hrest⟩
    refine ⟨?_, fun hhead => ?_⟩
    · simp only [Name.isWordOf, halpha, Bool.true_or, Bool.true_and, List.all_eq_true, hword]
      exact hrest
    · obtain rfl : c = '_' := Option.some.inj hhead
      exact absurd halpha (by decide)
  · rintro ⟨hchars, hvisible⟩
    cases chars with
    | nil => cases hchars
    | cons c rest =>
        simp only [Name.isWordOf, Bool.and_eq_true, List.all_eq_true, hword] at hchars
        obtain ⟨hfirst, hrest⟩ := hchars
        refine ⟨c, rest, rfl, ?_, hrest⟩
        rcases Bool.or_eq_true_iff.mp hfirst with halpha | hunderscore
        · exact halpha
        · rw [List.contains_iff_mem, List.mem_singleton] at hunderscore
          exact absurd (congrArg some hunderscore) hvisible

/-- A name is public when it is a word that begins with a letter and is not reserved. -/
theorem isPublic_iff {name : String} :
    IsPublic name ↔ PublicWord name.toList ∧ name ∉ Name.keywords := by
  have hidentifier : Name.isIdentifier name = true ↔
      Name.isWordOf ['_'] name.toList = true ∧ name ∉ Name.keywords := by
    simp only [Name.isIdentifier, Bool.and_eq_true, Bool.not_eq_true', List.contains_eq_mem,
      decide_eq_false_iff_not]
  rw [publicWord_iff]
  constructor
  · rintro ⟨hid, hvisible⟩
    obtain ⟨hchars, hkeyword⟩ := hidentifier.mp hid
    exact ⟨⟨hchars, hvisible⟩, hkeyword⟩
  · rintro ⟨⟨hchars, hvisible⟩, hkeyword⟩
    exact ⟨hidentifier.mpr ⟨hchars, hkeyword⟩, hvisible⟩

/-! ### Names -/

theorem inWord_of_mem_dropWhile {field : List Char} :
    ∀ c ∈ (field.map attributeChar).dropWhile (· == '_'), InWord c := by
  intro c hc
  obtain ⟨d, _, rfl⟩ := List.mem_map.mp ((List.dropWhile_suffix _).subset hc)
  exact inWord_attributeChar d

theorem publicWord_attributeChars (field : List Char) : PublicWord (attributeChars field) := by
  have hprefix : "field_".toList = ['f', 'i', 'e', 'l', 'd', '_'] := by decide
  have hinner : ['i', 'e', 'l', 'd', '_'].all (fun d => d.isAlphanum || d == '_') = true := by
    decide
  have hrest : ∀ d ∈ ['i', 'e', 'l', 'd', '_'], InWord d := List.all_eq_true.mp hinner
  have hstem : ∀ c ∈ (field.map attributeChar).dropWhile (· == '_'), InWord c :=
    inWord_of_mem_dropWhile
  have hhead := List.head?_dropWhile_not (· == '_') (field.map attributeChar)
  unfold attributeChars
  dsimp only
  generalize (field.map attributeChar).dropWhile (· == '_') = stem at hstem hhead
  cases stem with
  | nil => exact ⟨'f', _, hprefix, by decide, hrest⟩
  | cons c rest =>
      obtain ⟨hc, htail⟩ := List.forall_mem_cons.mp hstem
      show PublicWord (if c.isDigit then "field_".toList ++ c :: rest else c :: rest)
      cases hdigit : c.isDigit with
      | true =>
          rw [if_pos rfl, hprefix]
          exact ⟨'f', ['i', 'e', 'l', 'd', '_'] ++ c :: rest, rfl, by decide, fun d hd =>
            (List.mem_append.mp hd).elim (hrest d) (hstem d)⟩
      | false =>
          have hunderscore : (c == '_') = false := by simpa using hhead
          rw [if_neg Bool.false_ne_true]
          refine ⟨c, rest, rfl, ?_, htail⟩
          simpa [InWord, Char.isAlphanum, hdigit, hunderscore] using hc

theorem attributeChars_of_publicWord {field : List Char} (h : PublicWord field) :
    attributeChars field = field := by
  obtain ⟨c, rest, rfl, halpha, hrest⟩ := h
  have hmap : (c :: rest).map attributeChar = c :: rest := by
    have hall : ∀ d ∈ c :: rest, InWord d :=
      List.forall_mem_cons.mpr ⟨inWord_of_isAlpha halpha, hrest⟩
    rw [List.map_congr_left fun d hd => attributeChar_of_inWord (hall d hd), List.map_id']
  have hunderscore : (c == '_') = false := by
    rw [beq_eq_false_iff_ne]
    rintro rfl
    exact absurd halpha (by decide)
  unfold attributeChars
  rw [hmap, List.dropWhile_cons_of_neg (by simp [hunderscore])]
  simp [isDigit_eq_false_of_isAlpha halpha]

/-- No reserved word ends in an underscore. -/
theorem append_notMem_keywords (name : String) : name ++ "_" ∉ Name.keywords := by
  have hlast : ∀ k ∈ Name.keywords, k.toList.getLast? ≠ some '_' := by decide
  intro h
  apply hlast _ h
  rw [String.toList_append]
  exact List.getLast?_concat

/-- The attribute of a field has a public name, whatever the field is called. -/
theorem isPublic_attributeName (field : String) : IsPublic (attributeName field) := by
  obtain ⟨c, rest, hchars, halpha, hrest⟩ := publicWord_attributeChars field.toList
  rw [isPublic_iff]
  unfold attributeName
  dsimp only
  split
  · refine ⟨⟨c, rest ++ ['_'], ?_, halpha, fun d hd => ?_⟩, append_notMem_keywords _⟩
    · rw [String.toList_append, String.toList_ofList, hchars]
      rfl
    · rcases List.mem_append.mp hd with hd | hd
      · exact hrest d hd
      · rw [List.mem_singleton.mp hd]
        rfl
  · rename_i hkeyword
    rw [List.contains_iff_mem] at hkeyword
    exact ⟨⟨c, rest, by rw [String.toList_ofList, hchars], halpha, hrest⟩, hkeyword⟩

/-- A field with a public name has it as its attribute. -/
theorem attributeName_of_isPublic {field : String} (h : IsPublic field) :
    attributeName field = field := by
  obtain ⟨hword, hkeyword⟩ := isPublic_iff.mp h
  have hchars : String.ofList (attributeChars field.toList) = field := by
    rw [attributeChars_of_publicWord hword, String.ofList_toList]
  unfold attributeName
  rw [hchars]
  exact if_neg (by rwa [List.contains_iff_mem])

/-- A field keeps its name as attribute exactly when the name is public. -/
theorem attributeName_eq_self_iff {field : String} :
    attributeName field = field ↔ IsPublic field :=
  ⟨fun h => h ▸ isPublic_attributeName field, attributeName_of_isPublic⟩

theorem name_ofField (field : String) : (Attribute.ofField field).name = attributeName field := rfl

/-- The name of a field is kept beside its attribute exactly when they differ. -/
theorem wireName_ofField_eq_none_iff {field : String} :
    (Attribute.ofField field).wireName = none ↔ attributeName field = field := by
  unfold Attribute.ofField
  dsimp only
  split <;> simp_all

theorem eq_of_wireName_ofField {field name : String}
    (h : (Attribute.ofField field).wireName = some name) : name = field := by
  unfold Attribute.ofField at h
  dsimp only at h
  split at h
  · cases h
  · exact (Option.some.inj h).symm

end SchemaModels.Model
