import SchemaModels.Model.Literal
import SchemaModels.Proofs.Text.Symbols

/-!
# Regular expressions as literals

A literal of a text stands between double quotes and ends at the first quote that is not escaped. In
a raw literal, which has a mark, every symbol stands for its own text. In an ordinary one an escape
has a value.

* `stringLiteral?`: what a literal denotes, and the text after it.
* `needsEscapes_eq_false_iff`: which texts are written in a raw literal.
* `symbols_escape`: an ordinary literal has one symbol for each character of the text.
* `stringLiteral?_pattern`: the literal of a regular expression denotes it. A carriage return is
  the only line break that can stand in it.
-/

namespace SchemaModels.Model

open Text

/-! ### Reading -/

/-- The escapes of one character that have a value: the backslash, the quotes and the control
characters with a letter. -/
def escapeValues : List (Char × Char) :=
  [('\\', '\\'), ('\'', '\''), ('"', '"'), ('a', '\x07'), ('b', '\x08'), ('f', '\x0C'),
    ('n', '\n'), ('r', '\r'), ('t', '\t'), ('v', '\x0B')]

/-- The letters and digits with which a character is escaped by its number or its name. -/
def numericEscapes : List Char := "xuUN01234567".toList

/-- What a symbol denotes in an ordinary literal. An escaped line feed denotes nothing, an escape
without a value itself; escapes by number or name are not read. -/
def symbolValue? : Symbol → Option (List Char)
  | .plain c => some [c]
  | .escaped c =>
      if c = '\n' then some []
      else if c ∈ numericEscapes then none
      else some (((escapeValues.lookup c).map ([·])).getD ['\\', c])

/-- The text of a literal at the start of a text, and what stands after it. -/
def stringLiteral? : List Char → Option (List Char × List Char)
  | 'r' :: '"' :: s =>
      (upTo? [.plain '"'] (symbols s)).map fun r =>
        (r.1.flatMap Symbol.source, r.2.flatMap Symbol.source)
  | '"' :: s =>
      (upTo? [.plain '"'] (symbols s)).bind fun r =>
        (r.1.mapM symbolValue?).map fun values => (values.flatten, r.2.flatMap Symbol.source)
  | _ => none

/-- What stands before a quote, if no other quote in it is plain. -/
theorem upTo?_quote {s : List Char} (h : IsFinished s) (hquote : .plain '"' ∉ symbols s)
    (rest : List Char) :
    upTo? [.plain '"'] (symbols (s ++ '"' :: rest)) = some (symbols s, symbols rest) := by
  rw [symbols_append h, symbols_cons (by decide)]
  exact upTo?_singleton_iff.mpr hquote

theorem stringLiteral?_raw {s : List Char} (h : IsFinished s) (hquote : '"' ∉ s) :
    stringLiteral? ('r' :: '"' :: (s ++ ['"'])) = some (s, []) := by
  rw [stringLiteral?, upTo?_quote h (fun hm => hquote (mem_of_plain_mem_symbols hm)) [],
    Option.map_some, flatMap_source_symbols]
  rfl

/-! ### Raw literals -/

theorem needsEscapes_eq_false_iff (s : List Char) :
    needsEscapes s = false ↔ '"' ∉ s ∧ '\n' ∉ s ∧ IsFinished s := by
  have hrun : trailingBackslashes s = endRun '\\' s := rfl
  have hparity : endRun '\\' s % 2 = 1 ↔ ¬IsFinished s := by
    rw [isFinished_iff_endRun]
    omega
  simp [needsEscapes, hrun, hparity, and_assoc]

/-! ### Ordinary literals -/

/-- The characters that are escaped in an ordinary literal. -/
def escapedChars : List Char := ['\\', '"', '\n', '\r', '\t']

theorem forall_escapedChars {P : Char → Prop} :
    (∀ c ∈ escapedChars, P c) ↔ P '\\' ∧ P '"' ∧ P '\n' ∧ P '\r' ∧ P '\t' := by
  simp [escapedChars]

theorem escapeChar_of_not_mem {c : Char} (h : c ∉ escapedChars) : escapeChar c = [c] := by
  simp only [escapedChars, List.mem_cons, List.not_mem_nil, or_false, not_or] at h
  simp only [escapeChar, h, if_false]

/-- The symbol of a character in an ordinary literal. -/
def escapedSymbol (c : Char) : Symbol :=
  if c = '\\' then .escaped '\\'
  else if c = '"' then .escaped '"'
  else if c = '\n' then .escaped 'n'
  else if c = '\r' then .escaped 'r'
  else if c = '\t' then .escaped 't'
  else .plain c

/-- It is the symbol of the character's escape, and denotes the character. -/
theorem escapedSymbol_spec (c : Char) : symbols (escapeChar c) = [escapedSymbol c] ∧
    escapedSymbol c ≠ .plain '\\' ∧ escapedSymbol c ≠ .plain '"' ∧
      symbolValue? (escapedSymbol c) = some [c] := by
  have hescaped : ∀ c ∈ escapedChars,
      symbols (escapeChar c) = [escapedSymbol c] ∧ escapedSymbol c ≠ .plain '\\' ∧
        escapedSymbol c ≠ .plain '"' ∧ symbolValue? (escapedSymbol c) = some [c] :=
    forall_escapedChars.mpr (by decide)
  by_cases h : c ∈ escapedChars
  · exact hescaped c h
  · rw [escapeChar_of_not_mem h]
    simp only [escapedChars, List.mem_cons, List.not_mem_nil, or_false, not_or] at h
    have hsymbol : escapedSymbol c = .plain c := by simp only [escapedSymbol, h, if_false]
    rw [hsymbol]
    exact ⟨rfl, fun hc => h.1 (Symbol.plain.inj hc), fun hc => h.2.1 (Symbol.plain.inj hc), rfl⟩

theorem isFinished_escapeChar (c : Char) : IsFinished (escapeChar c) := by
  obtain ⟨hsymbols, hback, -⟩ := escapedSymbol_spec c
  rw [IsFinished, hsymbols, List.mem_singleton]
  exact Ne.symm hback

theorem symbols_escape (s : List Char) : symbols (escape s) = s.map escapedSymbol := by
  rw [escape, symbols_flatMap isFinished_escapeChar, List.map_eq_flatMap]
  exact List.flatMap_congr fun c _ => (escapedSymbol_spec c).1

theorem isFinished_escape (s : List Char) : IsFinished (escape s) := by
  rw [IsFinished, symbols_escape, List.mem_map]
  rintro ⟨c, -, hc⟩
  exact (escapedSymbol_spec c).2.1 hc

theorem mapM_symbolValue? (s : List Char) :
    (s.map escapedSymbol).mapM symbolValue? = some (s.map ([·])) := by
  induction s with
  | nil => rfl
  | cons c s ih =>
      rw [List.map_cons, List.mapM_cons, (escapedSymbol_spec c).2.2.2, ih]
      rfl

/-- No quote in an escaped text is plain. -/
theorem plain_quote_not_mem_symbols_escape (s : List Char) : .plain '"' ∉ symbols (escape s) := by
  rw [symbols_escape, List.mem_map]
  rintro ⟨c, -, hc⟩
  exact (escapedSymbol_spec c).2.2.1 hc

/-- An ordinary literal ends at its quote, whatever follows it. -/
theorem stringLiteral?_escape (s rest : List Char) :
    stringLiteral? ('"' :: (escape s ++ '"' :: rest)) = some (s, rest) := by
  have hquote := plain_quote_not_mem_symbols_escape s
  rw [stringLiteral?, upTo?_quote (isFinished_escape s) hquote, Option.bind_some, symbols_escape,
    mapM_symbolValue?, Option.map_some, ← List.flatMap_def, List.flatMap_singleton',
    flatMap_source_symbols]

theorem stringLiteral?_ordinary (s : List Char) :
    stringLiteral? ('"' :: (escape s ++ ['"'])) = some (s, []) :=
  stringLiteral?_escape s []

/-- The characters that would end a line or move along it are escaped. -/
theorem not_mem_escape_of_mem {d : Char} (hd : d ∈ ['\n', '\r', '\t']) (s : List Char) :
    d ∉ escape s := by
  have hchar : ∀ c, d ∉ escapeChar c := by
    intro c
    by_cases h : c ∈ escapedChars
    · have hescaped : ∀ c ∈ escapedChars, d ∉ escapeChar c := by
        simp only [List.mem_cons, List.not_mem_nil, or_false] at hd
        rcases hd with rfl | rfl | rfl
        all_goals exact forall_escapedChars.mpr (by decide)
      exact hescaped c h
    · have hsubset : ['\n', '\r', '\t'] ⊆ escapedChars := by decide
      rw [escapeChar_of_not_mem h, List.mem_singleton]
      rintro rfl
      exact h (hsubset hd)
  rw [escape, List.mem_flatMap]
  rintro ⟨c, -, hc⟩
  exact hchar c hc

/-- No line break stands between the quotes. -/
theorem not_mem_escape (s : List Char) : '\n' ∉ escape s ∧ '\r' ∉ escape s :=
  ⟨not_mem_escape_of_mem (by decide) s, not_mem_escape_of_mem (by decide) s⟩

/-! ### Patterns -/

section pattern
variable (source : String)

theorem toList_pattern_raw (h : needsEscapes source.toList = false) :
    (pattern source).toList = 'r' :: '"' :: (source.toList ++ ['"']) := by
  simp [pattern, h]

theorem toList_pattern_ordinary (h : needsEscapes source.toList = true) :
    (pattern source).toList = '"' :: (escape source.toList ++ ['"']) := by
  simp [pattern, h, quoted, escaped]

/-- The literal of a regular expression denotes it, and ends at the first quote that is not
escaped. No line feed stands in it, and a carriage return only if the literal is raw. -/
theorem stringLiteral?_pattern :
    stringLiteral? (pattern source).toList = some (source.toList, []) ∧
      '\n' ∉ (pattern source).toList ∧
      ('\r' ∈ (pattern source).toList ↔
        '\r' ∈ source.toList ∧
          '"' ∉ source.toList ∧ '\n' ∉ source.toList ∧ IsFinished source.toList) := by
  rw [← needsEscapes_eq_false_iff]
  cases h : needsEscapes source.toList with
  | false =>
      obtain ⟨hquote, hbreak, hfinished⟩ := (needsEscapes_eq_false_iff _).mp h
      rw [toList_pattern_raw source h]
      exact ⟨stringLiteral?_raw hfinished hquote, by simpa using hbreak, by simp⟩
  | true =>
      obtain ⟨hbreak, hreturn⟩ := not_mem_escape source.toList
      rw [toList_pattern_ordinary source h]
      exact ⟨stringLiteral?_ordinary _, by simpa using hbreak, by simpa using hreturn⟩

end pattern

/-- A carriage return is not escaped where nothing else asks for an ordinary literal. -/
theorem pattern_holds_return :
    '\r' ∈ (pattern "a\rb").toList ∧ (pattern "a\rb").toList = "r\"a\rb\"".toList := by
  decide

end SchemaModels.Model
