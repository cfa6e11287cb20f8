import SchemaModels.Proofs.Model.Attribute
import SchemaModels.Proofs.Text.Trim

/-!
# The names of members

The member of a value is named by capitals, digits and underscores, whatever characters the value
has. Trimming may leave nothing, or bring a digit to the front, which gets an underscore again; but
no underscore is left at the end, and a name that was made in this way is made of itself.

* `IsMemberName`: the names of members, told without the values that they are made of.
* `isMemberName_memberChars`, `memberChars_of_isMemberName`: each value has such a name, and each
  such name is its own.
* `memberName_eq_self_iff`: so these are the values that are named by themselves.
* `isIdentifier_of_isMemberName`: a class can declare them.
* `memberName_normal`: what is known of every name, and of naming it again.
-/

namespace SchemaModels.Model

open Text

/-! ### Characters -/

/-- A capital, a digit or an underscore. -/
def IsMemberChar (c : Char) : Prop := c.isUpper = true ∨ c.isDigit = true ∨ c = '_'

theorem isUpper_iff {c : Char} : c.isUpper = true ↔ 65 ≤ c.toNat ∧ c.toNat ≤ 90 :=
  decide_eq_true_iff.trans (and_congr UInt32.le_iff_toNat_le UInt32.le_iff_toNat_le)

theorem isLower_iff_val {c : Char} : c.isLower = true ↔ 'a'.val ≤ c.val ∧ c.val ≤ 'z'.val :=
  (Bool.and_eq_true_iff).trans (and_congr decide_eq_true_iff decide_eq_true_iff)

theorem isLower_iff {c : Char} : c.isLower = true ↔ 97 ≤ c.toNat ∧ c.toNat ≤ 122 :=
  isLower_iff_val.trans (and_congr UInt32.le_iff_toNat_le UInt32.le_iff_toNat_le)

theorem isAlpha_iff {c : Char} : c.isAlpha = true ↔ c.isUpper = true ∨ c.isLower = true :=
  Bool.or_eq_true_iff

theorem toUpper_of_not_isLower {c : Char} (h : ¬c.isLower = true) : c.toUpper = c :=
  dif_neg fun hrange => h (isLower_iff_val.mpr hrange)

/-- The capital of a small letter stands 32 places before it. -/
theorem toNat_toUpper {c : Char} (h : c.isLower = true) : c.toUpper.toNat + 32 = c.toNat := by
  obtain ⟨hlow, -⟩ := isLower_iff.mp h
  have hlt : c.toNat < 4294967296 := UInt32.toNat_lt c.val
  have hval : c.val.toNat = c.toNat := rfl
  -- the difference of the two letters, which is negative, wraps around
  have hshift : ('A'.val - 'a'.val).toNat = 4294967264 := by decide
  have hupper : c.toUpper = ⟨c.val + ('A'.val - 'a'.val), _⟩ := dif_pos (isLower_iff_val.mp h)
  rw [hupper]
  show (c.val + ('A'.val - 'a'.val)).toNat + 32 = c.toNat
  rw [UInt32.toNat_add, hshift, hval]
  omega

theorem isUpper_toUpper {c : Char} (h : c.isAlpha = true) : c.toUpper.isUpper = true := by
  by_cases hlower : c.isLower = true
  · have hrange := isLower_iff.mp hlower
    have hshift := toNat_toUpper hlower
    exact isUpper_iff.mpr (by omega)
  · rw [toUpper_of_not_isLower hlower]
    exact (isAlpha_iff.mp h).resolve_right hlower

theorem not_isLower_of_isMemberChar {c : Char} (h : IsMemberChar c) : ¬c.isLower = true := by
  rcases h with h | h | rfl
  · rw [isUpper_iff] at h
    rw [isLower_iff]
    omega
  · intro hlower
    rw [isDigit_eq_false_of_isAlpha (isAlpha_iff.mpr (.inr hlower))] at h
    cases h
  · decide

theorem isMemberChar_memberChar (c : Char) : IsMemberChar (memberChar c) := by
  unfold memberChar
  split
  · rename_i h
    rw [Char.isAlphanum, Bool.or_eq_true] at h
    rcases h with halpha | hdigit
    · exact .inl (isUpper_toUpper halpha)
    · have hlower := not_isLower_of_isMemberChar (.inr (.inl hdigit))
      rw [toUpper_of_not_isLower hlower]
      exact .inr (.inl hdigit)
  · exact .inr (.inr rfl)

theorem memberChar_of_isMemberChar {c : Char} (h : IsMemberChar c) : memberChar c = c := by
  have hlower := not_isLower_of_isMemberChar h
  unfold memberChar
  split
  · exact toUpper_of_not_isLower hlower
  · rename_i hother
    rcases h with h | h | rfl
    · simp [Char.isAlphanum, isAlpha_iff.mpr (.inl h)] at hother
    · simp [Char.isAlphanum, h] at hother
    · rfl

theorem map_memberChar_of_forall {s : List Char} (h : ∀ c ∈ s, IsMemberChar c) :
    s.map memberChar = s := by
  rw [List.map_congr_left fun c hc => memberChar_of_isMemberChar (h c hc), List.map_id']

/-! ### Names -/

/-- A word of capitals, digits and underscores that an enum class takes for a member: it does not
begin with a digit or end with an underscore. At its front an underscore stands before a digit
only. -/
structure IsMemberName (name : List Char) : Prop where
  ne_nil : name ≠ []
  chars : ∀ c ∈ name, IsMemberChar c
  head : ∀ c ∈ name.head?, c.isDigit = false
  last : name.getLast? ≠ some '_'
  front : ∀ rest, name = '_' :: rest → ∃ d s, rest = d :: s ∧ d.isDigit = true

theorem underscore_eq_false_iff (c : Char) : (c == '_') = false ↔ c ≠ '_' := beq_eq_false_iff_ne

/-- The name of each value is such a word. -/
theorem isMemberName_memberChars (value : List Char) : IsMemberName (memberChars value) := by
  have hchars : ∀ c ∈ trim (· == '_') (value.map memberChar), IsMemberChar c := by
    intro c hc
    obtain ⟨d, _, rfl⟩ := List.mem_map.mp ((trim_isInfix _ _).subset hc)
    exact isMemberChar_memberChar d
  obtain ⟨hfirst, hlast⟩ := trimmed_trim (p := (· == '_')) (value.map memberChar)
  unfold memberChars
  generalize trim (· == '_') (value.map memberChar) = stem at hchars hfirst hlast
  cases stem with
  | nil =>
      have hupper : ['E', 'M', 'P', 'T', 'Y'].all Char.isUpper = true := by decide
      exact ⟨by decide, fun c hc => .inl (List.all_eq_true.mp hupper c hc), by simp, by decide,
        by simp⟩
  | cons c rest =>
      have hc : c ≠ '_' := (underscore_eq_false_iff c).mp (hfirst c rfl)
      have hend : (c :: rest).getLast? ≠ some '_' := by
        intro h
        exact absurd rfl ((underscore_eq_false_iff '_').mp (hlast '_' h))
      dsimp only
      split
      · -- a digit has come to the front, and the underscore goes before it
        rename_i hdigit
        refine ⟨List.cons_ne_nil _ _, ?_, by simp, ?_, ?_⟩
        · exact List.forall_mem_cons.mpr ⟨.inr (.inr rfl), hchars⟩
        · rwa [List.getLast?_cons_cons]
        · intro s hs
          obtain ⟨-, rfl⟩ := List.cons.inj hs
          exact ⟨c, rest, rfl, hdigit⟩
      · rename_i hdigit
        refine ⟨List.cons_ne_nil _ _, hchars, ?_, hend, ?_⟩
        · intro d hd
          obtain rfl : c = d := Option.some.inj hd
          simpa using hdigit
        · intro s hs
          exact absurd (List.cons.inj hs).1 hc

/-- Such a word is its own name: an underscore in front is trimmed and put back. -/
theorem memberChars_of_isMemberName {name : List Char} (h : IsMemberName name) :
    memberChars name = name := by
  have hlast : ∀ c ∈ name.getLast?, (c == '_') = false := by
    intro c hc
    apply (underscore_eq_false_iff c).mpr
    rintro rfl
    exact h.last hc
  unfold memberChars
  rw [map_memberChar_of_forall h.chars]
  cases name with
  | nil => exact absurd rfl h.ne_nil
  | cons c rest =>
      by_cases hc : c = '_'
      · subst hc
        obtain ⟨d, s, rfl, hdigit⟩ := h.front rest rfl
        have hd : (d == '_') = false := by
          apply (underscore_eq_false_iff d).mpr
          rintro rfl
          exact absurd hdigit (by decide)
        have htrim : trim (· == '_') (['_'] ++ d :: s) = d :: s := by
          apply trim_append_left
          · simp
          · refine ⟨by simpa using hd, ?_⟩
            rwa [List.getLast?_cons_cons] at hlast
        rw [List.singleton_append] at htrim
        rw [htrim]
        exact if_pos hdigit
      · have hfirst : (c == '_') = false := (underscore_eq_false_iff c).mpr hc
        have htrim : trim (· == '_') ([] ++ c :: rest) = c :: rest :=
          trim_append_left (List.forall_mem_nil _) ⟨by simpa using hfirst, hlast⟩
        rw [List.nil_append] at htrim
        rw [htrim]
        exact if_neg (by simp [h.head c rfl])

theorem toList_memberName (value : String) :
    (memberName value).toList = memberChars value.toList :=
  String.toList_ofList

/-- The values that are named by themselves are the names. -/
theorem memberName_eq_self_iff {name : String} :
    memberName name = name ↔ IsMemberName name.toList := by
  constructor
  · intro h
    rw [← h, toList_memberName]
    exact isMemberName_memberChars name.toList
  · intro h
    rw [memberName, memberChars_of_isMemberName h, String.ofList_toList]

/-! ### Identifiers -/

/-- Every reserved word has a small letter. -/
theorem exists_isLower_of_mem_keywords :
    ∀ k ∈ Name.keywords, k.toList.any Char.isLower = true := by
  decide

theorem isIdentifier_of_isMemberName {name : String} (h : IsMemberName name.toList) :
    Name.isIdentifier name = true := by
  have hchar : ∀ c, IsMemberChar c → (c.isAlphanum || ['_'].contains c) = true := by
    intro c hc
    rcases hc with hc | hc | rfl
    · simp [Char.isAlphanum, isAlpha_iff.mpr (.inl hc)]
    · simp [Char.isAlphanum, hc]
    · decide
  have hword : Name.isWordOf ['_'] name.toList = true := by
    cases hname : name.toList with
    | nil => exact absurd hname h.ne_nil
    | cons c rest =>
        have hall : ∀ d ∈ c :: rest, IsMemberChar d := hname ▸ h.chars
        have hdigit : c.isDigit = false := h.head c (by rw [hname]; rfl)
        rw [Name.isWordOf, Bool.and_eq_true, List.all_eq_true]
        constructor
        · have hfirst := hchar c (hall c List.mem_cons_self)
          rwa [Char.isAlphanum, hdigit, Bool.or_false] at hfirst
        · intro d hd
          exact hchar d (hall d (List.mem_cons_of_mem c hd))
  have hkeyword : name ∉ Name.keywords := by
    intro hmem
    obtain ⟨c, hc, hlower⟩ := List.any_eq_true.mp (exists_isLower_of_mem_keywords name hmem)
    exact not_isLower_of_isMemberChar (h.chars c hc) hlower
  simp [Name.isIdentifier, hword, hkeyword]

/-- The name of every value is a word of capitals, digits and underscores. It has a character, does
not begin with a digit and does not end with an underscore, so that a class can declare it and does
not take it for one of its reserved names; and its own name is the same. -/
theorem memberName_normal (value : String) :
    (memberName value).toList ≠ [] ∧
      (∀ c ∈ (memberName value).toList, c.isUpper = true ∨ c.isDigit = true ∨ c = '_') ∧
      (∀ c ∈ (memberName value).toList.head?, c.isDigit = false) ∧
      (memberName value).toList.getLast? ≠ some '_' ∧
      Name.isIdentifier (memberName value) = true ∧
      memberName (memberName value) = memberName value := by
  have hname : IsMemberName (memberName value).toList := by
    rw [toList_memberName]
    exact isMemberName_memberChars value.toList
  exact ⟨hname.ne_nil, hname.chars, hname.head, hname.last, isIdentifier_of_isMemberName hname,
    memberName_eq_self_iff.mpr hname⟩

example : memberName "-2xl-" = "_2XL" ∧ memberName "_2XL" = "_2XL" ∧ memberName "__" = "EMPTY" := by
  decide

end SchemaModels.Model
