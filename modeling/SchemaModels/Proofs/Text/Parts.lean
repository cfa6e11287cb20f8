/-!
# Parts of a text

A text stands in another one, or makes lines of it. What is joined stands in what it is joined to,
and what is joined by line feeds makes lines of it.

* `Holds`, `HasLines`: whether a text stands in another one, and whether it does as lines.
* `Holds.of_mem`, `HasLines.of_mem`: a part of a text that is joined.
-/

namespace SchemaModels

/-! ### Parts of a text -/

/-- Whether a text stands in another one. -/
def Holds (text part : String) : Prop := ∃ before after, text = before ++ part ++ after

namespace Holds
variable {text part : String}

theorem refl (text : String) : Holds text text :=
  ⟨"", "", by rw [String.empty_append, String.append_empty]⟩

theorem append_left (h : Holds text part) (before : String) : Holds (before ++ text) part := by
  obtain ⟨first, last, rfl⟩ := h
  exact ⟨before ++ first, last, by simp only [String.append_assoc]⟩

theorem append_right (h : Holds text part) (after : String) : Holds (text ++ after) part := by
  obtain ⟨first, last, rfl⟩ := h
  exact ⟨first, last ++ after, by simp only [String.append_assoc]⟩

theorem trans {middle : String} (h : Holds text middle) (h' : Holds middle part) :
    Holds text part := by
  obtain ⟨before, after, rfl⟩ := h
  exact (h'.append_left before).append_right after

/-- A text that is joined with others stands in what they are joined to. -/
theorem of_mem {separator : String} : ∀ {texts : List String}, part ∈ texts →
    Holds (String.intercalate separator texts) part
  | [only], h => by
      rw [List.mem_singleton.mp h, String.intercalate_singleton]
      exact refl only
  | first :: second :: rest, h => by
      rw [String.intercalate_cons_cons]
      rcases List.mem_cons.mp h with rfl | h
      · exact ((refl part).append_right separator).append_right _
      · exact (of_mem h).append_left _

/-- It stands there between two marks when each separator begins and ends with the mark. -/
theorem of_mem_between {mark separator x y : String} (hx : separator = mark ++ x)
    (hy : separator = y ++ mark) : ∀ {texts : List String}, part ∈ texts →
      Holds (mark ++ String.intercalate separator texts ++ mark) (mark ++ part ++ mark)
  | [only], h => by
      rw [List.mem_singleton.mp h, String.intercalate_singleton]
      exact refl _
  | first :: second :: rest, h => by
      rw [String.intercalate_cons_cons]
      rcases List.mem_cons.mp h with rfl | h
      · refine ⟨"", x ++ String.intercalate separator (second :: rest) ++ mark, ?_⟩
        rw [hx, String.empty_append]
        simp only [String.append_assoc]
      · obtain ⟨before, after, hbetween⟩ := of_mem_between hx hy h
        refine ⟨mark ++ first ++ y ++ before, after, ?_⟩
        calc mark ++ (first ++ separator ++ String.intercalate separator (second :: rest)) ++ mark
            = mark ++ first ++ y ++
                (mark ++ String.intercalate separator (second :: rest) ++ mark) := by
              rw [hy]
              simp only [String.append_assoc]
          _ = mark ++ first ++ y ++ before ++ (mark ++ part ++ mark) ++ after := by
              rw [hbetween]
              simp only [String.append_assoc]

end Holds

/-! ### Lines of a text -/

/-- Whether lines stand in a text, from the beginning of a line to the end of one. -/
def HasLines (text lines : String) : Prop := Holds ("\n" ++ text ++ "\n") ("\n" ++ lines ++ "\n")

namespace HasLines
variable {text lines : String}

theorem refl (text : String) : HasLines text text := Holds.refl _

theorem trans {middle : String} (h : HasLines text middle) (h' : HasLines middle lines) :
    HasLines text lines :=
  Holds.trans h h'

/-- The lines of the end of a text are lines of the text. -/
theorem of_append (before : String) : HasLines (before ++ "\n" ++ text) text :=
  ⟨"\n" ++ before, "", by rw [String.append_empty]; simp only [String.append_assoc]⟩

theorem of_mem {texts : List String} (h : text ∈ texts) :
    HasLines (String.intercalate "\n" texts) text :=
  Holds.of_mem_between (x := "") (y := "") (by decide) (by decide) h

/-- Texts may have an empty line between them. -/
theorem of_mem_blocks {texts : List String} (h : text ∈ texts) :
    HasLines (String.intercalate "\n\n" texts) text :=
  Holds.of_mem_between (x := "\n") (y := "\n") (by decide) (by decide) h

end HasLines

end SchemaModels
