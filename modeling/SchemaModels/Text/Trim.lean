/-!
# Trimming

* `dropTrailing`: a text without its longest tail of characters of a class.
* `trim`: a text without such characters at either end. Both keep the characters between
  (`dropTrailing_isPrefix`, `trim_isInfix`), and what is kept ends outside of the class
  (`not_of_getLast?_dropTrailing`).
-/

namespace SchemaModels.Text

variable (p : Char → Bool)

/-- The text up to its last character outside a class. -/
def dropTrailing (s : List Char) : List Char := (s.reverse.dropWhile p).reverse

theorem dropTrailing_isPrefix (s : List Char) : dropTrailing p s <+: s := by
  rw [dropTrailing, ← List.reverse_suffix, List.reverse_reverse]
  exact List.dropWhile_suffix p

theorem not_of_getLast?_dropTrailing {s : List Char} {c : Char}
    (h : (dropTrailing p s).getLast? = some c) : p c = false := by
  rw [dropTrailing, List.getLast?_reverse] at h
  have := List.head?_dropWhile_not p s.reverse
  simpa [h] using this

/-- The text from its first to its last character outside a class. -/
def trim (s : List Char) : List Char := dropTrailing p (s.dropWhile p)

theorem trim_isInfix (s : List Char) : trim p s <:+: s :=
  (dropTrailing_isPrefix p _).isInfix.trans (List.dropWhile_suffix p).isInfix

end SchemaModels.Text
