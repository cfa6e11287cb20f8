import SchemaModels.Proofs.Model.Docstring
import SchemaModels.Proofs.Unit.Breaks

/-!
# Comments and headers end where they are closed

A description is written into the comment of a validator and into the header of a unit of models.
In a comment a backslash keeps a star and a slash apart, and blanks and line breaks stand around
what is copied, so that the closing mark comes only at the end. In a header three quotes in a row
are escaped, and the notice stands between the description and the quotes that close it.

* `EndsOnceIn`: a text in which a mark stands once, at its end.
* `not_isInfix_guardComment`: what is copied into a comment has no closing mark.
* `Validator.jsdoc_endsOnce`: where a comment ends.
* `Model.upTo?_headerText`: where the docstring of a header ends.
* `headers_close`: both.
-/

namespace SchemaModels

open Text

/-! ### Marks -/

/-- A mark stands in a text as its last characters and nowhere else. -/
def EndsOnceIn (mark s : List Char) : Prop := ∃ body, s = body ++ mark ∧
  ∀ a b, s = a ++ (mark ++ b) → a = body ∧ b = []

/-- A mark of two characters stands nowhere else when it does not stand in the text without the last
character. -/
theorem endsOnceIn_of_not_isInfix {c d : Char} {body : List Char} (h : ¬[c, d] <:+: body ++ [c]) :
    EndsOnceIn [c, d] (body ++ [c, d]) := by
  refine ⟨body, rfl, ?_⟩
  intro a b hab
  rcases List.eq_nil_or_concat b with rfl | ⟨b, e, rfl⟩
  · rw [List.append_nil] at hab
    exact ⟨(List.append_cancel_right hab).symm, rfl⟩
  · have hleft : (body ++ [c]) ++ [d] = (a ++ [c, d] ++ b) ++ [e] := by
      simpa using hab
    exact absurd ⟨a, b, (List.append_inj' hleft rfl).1.symm⟩ h

/-- Texts that each end with a line break, and a last one. -/
theorem not_isInfix_flatMap_break {mark last : List Char} (hmark : '\n' ∉ mark)
    (hlast : ¬mark <:+: last) {xs : List String} (hxs : ∀ x ∈ xs, ¬mark <:+: x.toList) :
    ¬mark <:+: (xs.flatMap fun x => x.toList ++ "\n".toList) ++ last := by
  induction xs with
  | nil => exact hlast
  | cons x xs ih =>
      obtain ⟨hx, hxs⟩ := List.forall_mem_cons.mp hxs
      rw [List.flatMap_cons, List.append_assoc, List.append_assoc]
      exact not_isInfix_append_cons hmark hx (ih hxs)

/-! ### Comments -/

namespace Validator

/-- The mark that ends a comment. -/
def commentEnd : List Char := ['*', '/']

theorem commentEnd_ne_nil : commentEnd ≠ [] := by decide

theorem guardComment_append (s : List Char) :
    guardComment (commentEnd ++ s) = '*' :: '\\' :: '/' :: guardComment s :=
  replaceAll_append_self commentEnd_ne_nil _ s

theorem guardComment_cons {c : Char} {s : List Char} (h : ¬commentEnd <+: c :: s) :
    guardComment (c :: s) = c :: guardComment s :=
  replaceAll_cons_of_not h _

/-- Copying begins a text as it began. -/
theorem head?_guardComment (s : List Char) : (guardComment s).head? = s.head? := by
  induction s using replaceAll_induction commentEnd_ne_nil with
  | nil => rfl
  | occurrence s _ => rw [guardComment_append]; rfl
  | cons c s h _ => rw [guardComment_cons h]; rfl

/-- No closing mark is copied, and none comes about: a slash after a star was one before. -/
theorem not_isInfix_guardComment (s : List Char) : ¬commentEnd <:+: guardComment s := by
  induction s using replaceAll_induction commentEnd_ne_nil with
  | nil => decide
  | occurrence s ih =>
      rw [guardComment_append]
      have hslash : ¬commentEnd <:+: '/' :: guardComment s := by
        rw [List.infix_cons_iff, not_or]
        exact ⟨fun h => absurd (List.cons_prefix_cons.mp h).1 (by decide), ih⟩
      exact not_isInfix_append_cons (a := ['*']) (d := '\\') (by decide) (by decide) hslash
  | cons c s h ih =>
      rw [guardComment_cons h, List.infix_cons_iff, not_or]
      refine ⟨?_, ih⟩
      intro hp
      obtain ⟨hc, t, ht⟩ := List.cons_prefix_cons.mp hp
      have hhead : s.head? = some '/' := by
        rw [← head?_guardComment, ← ht]
        rfl
      obtain ⟨s, rfl⟩ := List.head?_eq_some_iff.mp hhead
      exact h ⟨s, hc ▸ rfl⟩

/-- A line of a comment. -/
def commentLine (line : List Char) : String :=
  if line.isEmpty then " *" else " * " ++ String.ofList line

theorem not_isInfix_commentLine {line : List Char} (h : ¬commentEnd <:+: line) :
    ¬commentEnd <:+: (commentLine line).toList := by
  unfold commentLine
  split
  · decide
  · have hline : (" * " ++ String.ofList line).toList = [' ', '*'] ++ ' ' :: line := by
      simp
    rw [hline]
    exact not_isInfix_append_cons (by decide) (by decide) h

section description
variable (description : String)

theorem toList_jsdoc_of_line (h : (lines (guardComment description.toList)).length ≤ 1) :
    (jsdoc description).toList =
      ("/**".toList ++ ' ' :: (guardComment description.toList ++ [' '])) ++ commentEnd := by
  have hline : jsdoc description =
      "/** " ++ String.ofList (guardComment description.toList) ++ " */" := by
    unfold jsdoc
    dsimp only
    split
    · rfl
    · rfl
    · rename_i hnil hone
      rcases hl : lines (guardComment description.toList) with _ | ⟨l, _ | ⟨k, ls⟩⟩
      · exact absurd hl hnil
      · exact absurd hl (hone l)
      · rw [hl] at h
        exact absurd h (by simp)
  rw [hline]
  simp [commentEnd]

theorem toList_jsdoc_of_lines (h : 1 < (lines (guardComment description.toList)).length) :
    (jsdoc description).toList =
      ((("/**" :: (lines (guardComment description.toList)).map commentLine).flatMap fun x =>
        x.toList ++ "\n".toList) ++ [' ']) ++ commentEnd := by
  have hlines : jsdoc description = String.intercalate "\n"
      (("/**" :: (lines (guardComment description.toList)).map commentLine) ++ [" */"]) := by
    unfold jsdoc
    dsimp only
    split
    · rename_i hnil
      rw [hnil] at h
      exact absurd h (by simp)
    · rename_i hone
      rw [hone] at h
      exact absurd h (by simp)
    · rfl
  rw [hlines, toList_intercalate_append "\n" (List.cons_ne_nil _ _), List.append_assoc]
  rfl

/-- A comment ends at its last two characters, and not before. -/
theorem jsdoc_endsOnce : EndsOnceIn commentEnd (jsdoc description).toList := by
  have hcontent := not_isInfix_guardComment description.toList
  rcases Nat.lt_or_ge 1 (lines (guardComment description.toList)).length with hlines | hline
  · rw [toList_jsdoc_of_lines description hlines]
    apply endsOnceIn_of_not_isInfix
    rw [List.append_assoc]
    apply not_isInfix_flatMap_break (by decide) (by decide)
    refine List.forall_mem_cons.mpr ⟨by decide, List.forall_mem_map.mpr ?_⟩
    intro l hl
    apply not_isInfix_commentLine
    exact fun hi => hcontent (hi.trans (isInfix_of_mem_lines hl))
  · rw [toList_jsdoc_of_line description hline]
    apply endsOnceIn_of_not_isInfix
    have hend : ¬commentEnd <:+: guardComment description.toList ++ [' ', '*'] :=
      not_isInfix_append_cons (by decide) hcontent (by decide)
    have hwhole := not_isInfix_append_cons (d := ' ') (by decide)
      (show ¬commentEnd <:+: "/**".toList by decide) hend
    simpa [commentEnd] using hwhole

end description

example : (jsdoc "*/\n**//").toList = "/**\n * *\\/\n * **\\//\n */".toList := by decide

end Validator

/-! ### Headers -/

namespace Model

/-- What stands between the quotes of a header. -/
def headerText (root : Root) : String :=
  "\n" ++ (root.description.map headerDescription).getD "" ++
    String.intercalate "\n" generatedNotice ++ "\n"

theorem toList_preamble (settings : Settings) (root : Root) (imports : Imports) :
    (preamble settings root imports).toList =
      tripleQuote ++ ((headerText root).toList ++ (tripleQuote ++
        (headerRest settings root imports).toList)) := by
  have hopen : "\"\"\"\n" = "\"\"\"" ++ "\n" := rfl
  have hclose : "\n\"\"\"" = "\n" ++ "\"\"\"" := rfl
  have hquotes : "\"\"\"".toList = tripleQuote := rfl
  rw [preamble_eq_append, headerDoc, headerText, hopen, hclose]
  simp only [String.toList_append, hquotes, List.append_assoc]

/-- A text without quotes and backslashes has no closing quotes. -/
theorem avoids_of_forall {s : List Char} (h : ∀ c ∈ s, c ≠ '"' ∧ c ≠ '\\') :
    Avoids closingQuotes s := by
  rw [← List.append_nil s]
  exact avoids_indent_append h (avoids_nil closingQuotes_ne_nil)

/-- The notice, after a line break, with one behind it. -/
theorem avoids_notice :
    Avoids closingQuotes ("\n" ++ String.intercalate "\n" generatedNotice ++ "\n").toList := by
  have hall : ("\n" ++ String.intercalate "\n" generatedNotice ++ "\n").toList.all
      (fun c => c ≠ '"' ∧ c ≠ '\\') = true := by decide +kernel
  exact avoids_of_forall fun c hc => by simpa using List.all_eq_true.mp hall c hc

/-- Line breaks keep the escaped description apart from what is around it. -/
theorem avoids_headerText (root : Root) : Avoids closingQuotes (headerText root).toList := by
  cases hd : root.description with
  | none =>
      have htext : headerText root = "\n" ++ String.intercalate "\n" generatedNotice ++ "\n" := by
        rw [headerText, hd]
        rfl
      rw [htext]
      exact avoids_notice
  | some description =>
      have htext : (headerText root).toList = [] ++ '\n' :: (escapeDoc description.toList ++
          '\n' :: ("\n" ++ String.intercalate "\n" generatedNotice ++ "\n").toList) := by
        rw [headerText, hd]
        simp [headerDescription]
      have hdescription := (avoids_escapeDoc description.toList).append_cons
        (by decide : '\n' ≠ '\\') (by decide) avoids_notice
      rw [htext]
      exact (avoids_nil closingQuotes_ne_nil).append_cons (by decide) (by decide) hdescription

/-- The docstring of a header is read up to the quotes after the notice. -/
theorem upTo?_headerText (root : Root) (rest : List Char) :
    upTo? closingQuotes (symbols ((headerText root).toList ++ (tripleQuote ++ rest))) =
      some (symbols (headerText root).toList, symbols rest) := by
  apply upTo?_closingQuotes (avoids_headerText root)
  intro h
  have hlast : (headerText root).toList.getLast? = some '\n' := by
    rw [headerText, String.toList_append]
    exact List.getLast?_concat
  exact absurd ((getLast?_of_symbols h).symm.trans hlast) (by decide)

end Model

/-- Whatever its text, a comment has the mark that ends it once, as its last two characters. And a
header begins with three quotes, after which the first three in a row that are not escaped are those
between the notice and the version line, whatever the description of the root. -/
theorem headers_close :
    (∀ description : String, EndsOnceIn ['*', '/'] (Validator.jsdoc description).toList) ∧
    ∀ (settings : Settings) (root : Root) (imports : Imports),
      let text := (Model.headerText root).toList
      let rest := (Model.headerRest settings root imports).toList
      (Model.preamble settings root imports).toList =
          Model.tripleQuote ++ (text ++ (Model.tripleQuote ++ rest)) ∧
        upTo? Model.closingQuotes (symbols (text ++ (Model.tripleQuote ++ rest))) =
          some (symbols text, symbols rest) ∧
        "\n\n__version__ = ".toList <+: rest := by
  refine ⟨Validator.jsdoc_endsOnce, ?_⟩
  intro settings root imports
  refine ⟨Model.toList_preamble settings root imports, Model.upTo?_headerText root _, ?_⟩
  have hversion : "\n\n__version__ = ".toList = "\n\n".toList ++ "__version__ = ".toList := rfl
  simp only [Model.headerRest, String.toList_append, List.append_assoc, hversion,
    List.prefix_append_right_inj]
  exact List.prefix_append _ _

end SchemaModels
