import SchemaModels.Proofs.Model.LiteralValue

/-!
# Escaped texts

A text is written between double quotes with escapes for five characters. It is read from the left,
a backslash with the character after it as one symbol, and every symbol denotes one character. So
nothing but the text itself is read from what was written for it, and nothing else is written that
would be read as the text.

* `denoted?`: the character that a symbol denotes (`denoted?_eq_some_iff`).
* `unescape?`: the text that an escaped text denotes (`unescape?_eq_some_iff`).
* `endRun_eq_one_of_escape`: the backslashes before a quote.
* `escaped_faithful`: what is written for a text, and what is read from it.
-/

namespace SchemaModels.Model

open Text

/-! ### Symbols and their characters -/

/-- The characters that are escaped, with what stands after the backslash. -/
def escapes : List (Char × Char) :=
  [('\\', '\\'), ('"', '"'), ('\n', 'n'), ('\r', 'r'), ('\t', 't')]

/-- The character that a symbol denotes. None of the characters that are escaped denotes itself, and
there are no other escapes. -/
def denoted? : Symbol → Option Char
  | .plain c => if c ∈ escapedChars then none else some c
  | .escaped d => (escapes.find? fun e => e.2 == d).map Prod.fst

theorem escapedSymbol_of_not_mem {c : Char} (h : c ∉ escapedChars) :
    escapedSymbol c = .plain c := by
  simp only [escapedChars, List.mem_cons, List.not_mem_nil, or_false, not_or] at h
  simp only [escapedSymbol, h, if_false]

theorem denoted?_escapedSymbol (c : Char) : denoted? (escapedSymbol c) = some c := by
  by_cases h : c ∈ escapedChars
  · have hescaped : ∀ c ∈ escapedChars, denoted? (escapedSymbol c) = some c :=
      forall_escapedChars.mpr (by decide)
    exact hescaped c h
  · rw [escapedSymbol_of_not_mem h, denoted?, if_neg h]

/-- A character is denoted by its own symbol only. -/
theorem denoted?_eq_some_iff {x : Symbol} {c : Char} :
    denoted? x = some c ↔ x = escapedSymbol c := by
  constructor
  · intro h
    cases x with
    | plain d =>
        rw [denoted?] at h
        split at h
        · cases h
        · rename_i hd
          obtain rfl := Option.some.inj h
          exact (escapedSymbol_of_not_mem hd).symm
    | escaped d =>
        obtain ⟨e, hfind, rfl⟩ := Option.map_eq_some_iff.mp h
        have hsymbol : ∀ e ∈ escapes, escapedSymbol e.1 = .escaped e.2 := by decide
        have hd : e.2 = d := by simpa using List.find?_some hfind
        rw [hsymbol e (List.mem_of_find?_eq_some hfind), hd]
  · rintro rfl
    exact denoted?_escapedSymbol c

/-! ### Texts -/

/-- The text that an escaped text denotes, read from the left. -/
def unescape? (s : List Char) : Option (List Char) := (symbols s).mapM denoted?

theorem mapM_denoted?_eq_some_iff {xs : List Symbol} {s : List Char} :
    xs.mapM denoted? = some s ↔ xs = s.map escapedSymbol := by
  induction xs generalizing s with
  | nil =>
      rw [List.mapM_nil, eq_comm (a := []), List.map_eq_nil_iff]
      exact Option.some_inj.trans eq_comm
  | cons x xs ih =>
      simp only [List.mapM_cons, bind, pure, Option.bind_eq_some_iff, denoted?_eq_some_iff, ih,
        Option.some_inj]
      cases s with
      | nil => simp
      | cons c s => simp

theorem symbols_injective {s t : List Char} (h : symbols s = symbols t) : s = t := by
  rw [← flatMap_source_symbols s, h, flatMap_source_symbols]

/-- A text is read from its escaped text, and from no other one. -/
theorem unescape?_eq_some_iff {s t : List Char} : unescape? t = some s ↔ t = escape s := by
  rw [unescape?, mapM_denoted?_eq_some_iff, ← symbols_escape]
  constructor
  · exact symbols_injective
  · intro h
    rw [h]

example : unescape? "a\\nb\\\\\\\"".toList = some "a\nb\\\"".toList ∧
    unescape? "a\\x41".toList = none ∧ unescape? "a\\".toList = none := by decide

/-! ### Between quotes -/

/-- The backslashes before a quote are odd in number, for an even number of them would escape each
other and leave the quote as it is. -/
theorem endRun_eq_one_of_escape {s a b : List Char} (h : escape s = a ++ '"' :: b) :
    endRun '\\' a % 2 = 1 := by
  by_contra hparity
  have ha : IsFinished a := (isFinished_iff_endRun a).mpr (by omega)
  apply plain_quote_not_mem_symbols_escape s
  rw [h, symbols_append ha, symbols_cons (by decide)]
  exact List.mem_append_right _ List.mem_cons_self

/-- What is written for a text between double quotes is what the five replacements make of it one
after another. No line feed, carriage return or tab stands in it; before every quote in it stands an
odd number of backslashes, and at its end an even one. It is read up to the quote that is put after
it, whatever follows, and it is the one text that the given one is read from. -/
theorem escaped_faithful (s : String) :
    (escaped s).toList = replaceEscaped s.toList ∧
    (∀ c ∈ (escaped s).toList, c ≠ '\n' ∧ c ≠ '\r' ∧ c ≠ '\t') ∧
    (∀ a b, (escaped s).toList = a ++ '"' :: b → endRun '\\' a % 2 = 1) ∧
    endRun '\\' (escaped s).toList % 2 = 0 ∧
    (∀ rest, upTo? [.plain '"'] (symbols ((escaped s).toList ++ '"' :: rest)) =
      some (symbols (escaped s).toList, symbols rest)) ∧
    unescape? (escaped s).toList = some s.toList ∧
    ∀ text, unescape? text = some s.toList → text = (escaped s).toList := by
  have hescaped : (escaped s).toList = escape s.toList := String.toList_ofList
  rw [hescaped]
  refine ⟨escape_eq_replaceEscaped _, ?_, ?_, ?_, ?_, ?_, ?_⟩
  · intro c hc
    have hne : ∀ d ∈ ['\n', '\r', '\t'], c ≠ d := by
      rintro d hd rfl
      exact not_mem_escape_of_mem hd _ hc
    exact ⟨hne _ (by decide), hne _ (by decide), hne _ (by decide)⟩
  · intro a b h
    exact endRun_eq_one_of_escape h
  · exact (isFinished_iff_endRun _).mp (isFinished_escape _)
  · exact upTo?_quote (isFinished_escape _) (plain_quote_not_mem_symbols_escape _)
  · exact unescape?_eq_some_iff.mpr rfl
  · intro text h
    exact unescape?_eq_some_iff.mp h

end SchemaModels.Model
