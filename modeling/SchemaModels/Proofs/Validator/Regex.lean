import SchemaModels.Proofs.Text.Symbols
import SchemaModels.Validator.SchemaExpr

/-!
# Regular expressions between slashes

A regular expression is read from its opening slash to the first slash that is not escaped. A
backslash is put before each slash of a source. Before a slash that is escaped already, this one
meets the backslash that stands there: the two are an escape of their own, and the slash is plain.

* `slashedSymbol`: what becomes of a symbol of a source.
* `withPlainSlashes`: a text with each escaped slash replaced by a plain one.
* `regexBody_slashes`: an expression ends early exactly when its source has an escaped slash.
-/

namespace SchemaModels.Validator

open Text

/-- A character between slashes. -/
def slashed (c : Char) : List Char := if c = '/' then ['\\', '/'] else [c]

theorem toList_regexBody (source : String) :
    (regexBody source).toList = source.toList.flatMap slashed :=
  String.toList_ofList

/-- What becomes of a symbol between slashes. -/
def slashedSymbol : Symbol → List Symbol
  | .plain c => if c = '/' then [.escaped '/'] else [.plain c]
  | .escaped c => if c = '/' then [.escaped '\\', .plain '/'] else [.escaped c]

theorem slashed_of_ne {c : Char} (hc : c ≠ '/') : slashed c = [c] := if_neg hc

theorem symbols_flatMap_slashed (s : List Char) :
    symbols (s.flatMap slashed) = (symbols s).flatMap slashedSymbol := by
  fun_induction symbols s with
  | case1 => rfl
  | case2 c =>
      by_cases hc : c = '/'
      · rw [hc]
        rfl
      · simp [slashed_of_ne hc, slashedSymbol, symbols, hc]
  | case3 d s ih =>
      rw [List.flatMap_cons, List.flatMap_cons, List.flatMap_cons, ← ih,
        slashed_of_ne (by decide : '\\' ≠ '/')]
      by_cases hd : d = '/'
      · rw [hd]
        exact (symbols_backslash '\\' _).trans (congrArg _ (symbols_cons (by decide) _))
      · rw [slashed_of_ne hd, slashedSymbol, if_neg hd]
        exact symbols_backslash d _
  | case4 c d s hc ih =>
      rw [List.flatMap_cons (f := slashedSymbol), ← ih]
      by_cases hslash : c = '/'
      · rw [hslash]
        exact symbols_backslash '/' _
      · rw [List.flatMap_cons, slashed_of_ne hslash, slashedSymbol, if_neg hslash]
        exact symbols_cons hc _

theorem isFinished_flatMap_slashed {s : List Char} (h : IsFinished s) :
    IsFinished (s.flatMap slashed) := by
  rw [IsFinished, symbols_flatMap_slashed, List.mem_flatMap]
  rintro ⟨x, hx, hmem⟩
  refine h ?_
  cases x with
  | plain c =>
      rw [slashedSymbol] at hmem
      split at hmem
      · cases List.mem_singleton.mp hmem
      · exact List.mem_singleton.mp hmem ▸ hx
  | escaped c =>
      rw [slashedSymbol] at hmem
      split at hmem <;> simp at hmem

/-- Each escaped slash becomes a plain one. -/
theorem count_plain_slash (xs : List Symbol) :
    (xs.flatMap slashedSymbol).count (.plain '/') = xs.count (.escaped '/') := by
  have hsymbol : ∀ x, (slashedSymbol x).count (.plain '/') = [x].count (.escaped '/') := by
    rintro (c | c) <;> rw [slashedSymbol] <;> split <;> simp_all
  induction xs with
  | nil => rfl
  | cons x xs ih =>
      rw [List.flatMap_cons, List.count_append, hsymbol, ih, ← List.count_append,
        List.singleton_append]

/-! ### Slashes without their escapes -/

/-- The text of a symbol, a slash without its backslash. -/
def plainSlash (x : Symbol) : List Char := if x = .escaped '/' then ['/'] else x.source

/-- A text with each escaped slash replaced by a plain one. -/
def withPlainSlashes (s : List Char) : List Char := (symbols s).flatMap plainSlash

/-- A symbol between slashes is the same text as before, but an escaped slash has two backslashes
more. -/
theorem flatMap_plainSlash_slashedSymbol (x : Symbol) :
    (slashedSymbol x).flatMap plainSlash =
      if x = .escaped '/' then ['\\', '\\', '/'] else plainSlash x := by
  rcases x with c | c <;> by_cases hc : c = '/' <;>
    simp [slashedSymbol, plainSlash, Symbol.source, hc]

theorem withPlainSlashes_flatMap_slashed (s : List Char) :
    withPlainSlashes (s.flatMap slashed) =
      (symbols s).flatMap fun x =>
        if x = .escaped '/' then ['\\', '\\', '/'] else plainSlash x := by
  rw [withPlainSlashes, symbols_flatMap_slashed, List.flatMap_assoc]
  simp only [flatMap_plainSlash_slashedSymbol]

theorem length_withPlainSlashes (s : List Char) :
    (withPlainSlashes (s.flatMap slashed)).length =
      (withPlainSlashes s).length + 2 * (symbols s).count (.escaped '/') := by
  rw [withPlainSlashes_flatMap_slashed, withPlainSlashes]
  induction symbols s with
  | nil => rfl
  | cons x xs ih =>
      rw [List.flatMap_cons, List.flatMap_cons, List.length_append, List.length_append, ih,
        List.count_cons]
      by_cases hx : x = .escaped '/'
      · simp [hx, plainSlash]
        omega
      · simp [hx]
        omega

theorem withPlainSlashes_eq_iff (s : List Char) :
    withPlainSlashes (s.flatMap slashed) = withPlainSlashes s ↔ .escaped '/' ∉ symbols s := by
  constructor
  · intro heq
    have hlen := length_withPlainSlashes s
    rw [heq] at hlen
    exact List.count_eq_zero.mp (by omega)
  · intro h
    rw [withPlainSlashes_flatMap_slashed, withPlainSlashes]
    refine List.flatMap_congr fun x hx => if_neg ?_
    rintro rfl
    exact h hx

/-! ### Where an expression ends -/

/-- Between its slashes a finished source has a plain slash for each slash that is escaped in it,
and is else the same text up to the backslashes of slashes. It is read up to the slash that closes
it exactly when there is none. -/
theorem regexBody_slashes {source : String} (h : IsFinished source.toList) :
    (symbols (regexBody source).toList).count (.plain '/') =
        (symbols source.toList).count (.escaped '/') ∧
      (withPlainSlashes (regexBody source).toList = withPlainSlashes source.toList ↔
        .escaped '/' ∉ symbols source.toList) ∧
      ∃ after, (Check.regex source).text.toList = ".regex(/".toList ++ after ∧
        (upTo? [.plain '/'] (symbols after) =
            some (symbols (regexBody source).toList, [.plain ')']) ↔
          .escaped '/' ∉ symbols source.toList) := by
  have hbody := toList_regexBody source
  have hfinished : IsFinished (regexBody source).toList := by
    rw [hbody]
    exact isFinished_flatMap_slashed h
  have hcount : (symbols (regexBody source).toList).count (.plain '/') =
      (symbols source.toList).count (.escaped '/') := by
    rw [hbody, symbols_flatMap_slashed, count_plain_slash]
  refine ⟨hcount, ?_, (regexBody source).toList ++ ['/', ')'], ?_, ?_⟩
  · rw [hbody]
    exact withPlainSlashes_eq_iff source.toList
  · simp [Check.text]
  · have hclosed : symbols ((regexBody source).toList ++ ['/', ')']) =
        symbols (regexBody source).toList ++ .plain '/' :: [.plain ')'] := by
      rw [symbols_append hfinished]
      rfl
    rw [hclosed, upTo?_singleton_iff, ← List.count_eq_zero, hcount, List.count_eq_zero]

theorem regexBody_slashes_address :
    IsFinished "^https?://".toList ∧
      (symbols (regexBody "^https?://").toList).count (.plain '/') = 0 ∧
      ∃ after, (Check.regex "^https?://").text.toList = ".regex(/".toList ++ after ∧
        upTo? [.plain '/'] (symbols after) =
          some (symbols (regexBody "^https?://").toList, [.plain ')']) := by
  have hfinished : IsFinished "^https?://".toList := by decide
  obtain ⟨hcount, -, after, htext, hread⟩ := regexBody_slashes hfinished
  exact ⟨hfinished, hcount, after, htext, hread.mpr (by decide)⟩

/-- The slash of `^\/api` is escaped. Its expression ends before it. -/
theorem regexBody_ends_early :
    IsFinished "^\\/api".toList ∧ (regexBody "^\\/api").toList = "^\\\\/api".toList ∧
      .plain '/' ∈ symbols (regexBody "^\\/api").toList ∧
      withPlainSlashes (regexBody "^\\/api").toList ≠ withPlainSlashes "^\\/api".toList := by
  decide

end SchemaModels.Validator
