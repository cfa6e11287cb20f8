/-!
# Identifiers

Names that can stand in generated code: ASCII words that do not begin with a digit.

* `isIdentifier`: names of types in every target, which excludes the keywords of Python.
* `isKey`: names of object keys that need no quotes in TypeScript, where `$` counts as a letter.
-/

namespace SchemaModels.Name

/-- The reserved words of Python. -/
def keywords : List String :=
  ["False", "None", "True", "and", "as", "assert", "async", "await", "break", "class",
   "continue", "def", "del", "elif", "else", "except", "finally", "for", "from", "global", "if",
   "import", "in", "is", "lambda", "nonlocal", "not", "or", "pass", "raise", "return", "try",
   "while", "with", "yield"]

/-- Whether a text is a word: a letter or an extra character, then those and digits. -/
def isWordOf (extra : List Char) : List Char → Bool
  | [] => false
  | c :: rest =>
      (c.isAlpha || extra.contains c) && rest.all fun d => d.isAlphanum || extra.contains d

/-- Whether a name can be a type name in every target. -/
def isIdentifier (name : String) : Bool :=
  isWordOf ['_'] name.toList && !keywords.contains name

/-- Whether a name can be an object key without quotes. -/
def isKey (name : String) : Bool := isWordOf ['_', '$'] name.toList

theorem isKey_of_isIdentifier {name : String} (h : isIdentifier name = true) :
    isKey name = true := by
  simp only [isIdentifier, Bool.and_eq_true] at h
  obtain ⟨h, -⟩ := h
  unfold isKey
  generalize name.toList = s at h
  cases s with
  | nil => simp [isWordOf] at h
  | cons c rest =>
      simp only [isWordOf, Bool.and_eq_true, Bool.or_eq_true, List.all_eq_true] at h ⊢
      refine ⟨h.1.imp id fun hc => by simp_all, fun d hd => (h.2 d hd).imp id fun hd => ?_⟩
      simp_all

/-- The characters of an identifier are letters, digits and underscores. -/
theorem forall_of_isIdentifier {name : String} (h : isIdentifier name = true) :
    ∀ c ∈ name.toList, (c.isAlphanum || ['_'].contains c) = true := by
  rw [isIdentifier, Bool.and_eq_true] at h
  cases hname : name.toList with
  | nil => exact List.forall_mem_nil _
  | cons first rest =>
      rw [hname, isWordOf, Bool.and_eq_true, List.all_eq_true] at h
      refine List.forall_mem_cons.mpr ⟨?_, h.1.2⟩
      rw [Char.isAlphanum, Bool.or_right_comm, h.1.1, Bool.true_or]

end SchemaModels.Name
