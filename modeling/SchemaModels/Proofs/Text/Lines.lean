import Mathlib.Data.List.TakeWhile
import SchemaModels.Text.Lines

/-!
# Lines and pieces as parts of a text

* `isInfix_of_mem_lines`, `isInfix_of_mem_pieces`: each line and each piece of a text stands in it.
* `lines_append`, `pieces_append`: the first line of a text and the others, and the same for pieces.
* `forall_mem_lines`: what is true of all lines because it is true of the text.
* `toList_intercalate_append`: joined texts.
-/

namespace SchemaModels.Text

/-! ### Lines -/

theorem dropReturn_isSuffix (line : List Char) : dropReturn line <:+ line := by
  unfold dropReturn
  split
  · exact List.suffix_cons _ _
  · exact List.suffix_rfl

theorem isInfix_of_mem_linesFrom {l : List Char} :
    ∀ {line s : List Char}, l ∈ linesFrom line s → l <:+: line.reverse ++ s
  | line, [], h => by
      rw [linesFrom] at h
      split at h
      · cases h
      · rewrite [List.mem_singleton.mp h, List.append_nil]
        exact List.infix_rfl
  | line, c :: s, h => by
      rw [linesFrom] at h
      split at h
      · rcases List.mem_cons.mp h with rfl | h
        · exact (List.reverse_prefix.mpr (dropReturn_isSuffix line)).isInfix.trans
            (List.prefix_append _ _).isInfix
        · exact (isInfix_of_mem_linesFrom h).trans
            ((List.suffix_cons c s).trans (List.suffix_append _ _)).isInfix
      · have := isInfix_of_mem_linesFrom h
        rwa [List.reverse_cons, List.append_assoc] at this

theorem isInfix_of_mem_lines {l s : List Char} (h : l ∈ lines s) : l <:+: s :=
  @isInfix_of_mem_linesFrom l [] s h

/-- A line without the carriage return that ends it. -/
def withoutReturn (line : List Char) : List Char := (dropReturn line.reverse).reverse

/-- What stands before any line break goes to the current line. -/
theorem linesFrom_append_of_not_mem : ∀ {a line : List Char}, '\n' ∉ a → ∀ s : List Char,
    linesFrom line (a ++ s) = linesFrom (a.reverse ++ line) s
  | [], _, _, _ => rfl
  | c :: a, line, h, s => by
      obtain ⟨hc, ha⟩ := List.ne_and_not_mem_of_not_mem_cons h
      rw [List.cons_append, linesFrom, if_neg (Ne.symm hc), linesFrom_append_of_not_mem ha,
        List.reverse_cons, List.append_assoc]
      rfl

theorem linesFrom_append {a line : List Char} (h : '\n' ∉ a) (s : List Char) :
    linesFrom line (a ++ '\n' :: s) =
      (dropReturn (a.reverse ++ line)).reverse :: linesFrom [] s := by
  rw [linesFrom_append_of_not_mem h, linesFrom, if_pos rfl]

/-- A text up to its first line break is its first line. -/
theorem lines_append {a : List Char} (h : '\n' ∉ a) (s : List Char) :
    lines (a ++ '\n' :: s) = withoutReturn a :: lines s := by
  rw [lines, linesFrom_append h, List.append_nil]
  rfl

theorem linesFrom_append_break : ∀ line a b : List Char,
    linesFrom line (a ++ '\n' :: b) = linesFrom line (a ++ ['\n']) ++ lines b
  | line, [], b => by
      rw [List.nil_append, List.nil_append, linesFrom, linesFrom, if_pos rfl, if_pos rfl]
      rfl
  | line, c :: a, b => by
      rw [List.cons_append, List.cons_append, linesFrom, linesFrom]
      split
      · rw [linesFrom_append_break [] a b, List.cons_append]
      · exact linesFrom_append_break (c :: line) a b

/-- The lines after a line break are those of the rest. -/
theorem lines_append_break (a b : List Char) :
    lines (a ++ '\n' :: b) = lines (a ++ ['\n']) ++ lines b :=
  linesFrom_append_break [] a b

theorem linesFrom_of_not_mem {a line : List Char} (h : '\n' ∉ a) :
    linesFrom line a =
      if (a.reverse ++ line).isEmpty then [] else [(a.reverse ++ line).reverse] := by
  have hline : linesFrom line (a ++ []) = _ := linesFrom_append_of_not_mem h []
  rwa [List.append_nil, linesFrom] at hline

theorem lines_of_not_mem {a : List Char} (h : '\n' ∉ a) :
    lines a = if a.isEmpty then [] else [a] := by
  rw [lines, linesFrom_of_not_mem h, List.append_nil, List.reverse_reverse, List.isEmpty_reverse]

theorem linesFrom_ne_nil : ∀ {line : List Char} (s : List Char), line ≠ [] ∨ s ≠ [] →
    linesFrom line s ≠ []
  | line, [], h => by
      rw [linesFrom, if_neg (by simpa using h)]
      exact List.cons_ne_nil _ _
  | line, c :: s, _ => by
      rw [linesFrom]
      split
      · exact List.cons_ne_nil _ _
      · exact linesFrom_ne_nil s (.inl (List.cons_ne_nil c line))

/-- A text of one line has no line break, unless it ends with one. -/
theorem not_mem_of_length_lines_le {s : List Char} (h : (lines s).length ≤ 1)
    (hlast : s.getLast? ≠ some '\n') : '\n' ∉ s := by
  intro hmem
  obtain ⟨a, b, rfl, ha⟩ := List.eq_append_cons_of_mem hmem
  rw [lines_append ha, List.length_cons] at h
  cases b with
  | nil => exact hlast List.getLast?_concat
  | cons c b =>
      have hpos : 0 < (lines (c :: b)).length :=
        List.length_pos_iff.mpr (linesFrom_ne_nil _ (.inr (List.cons_ne_nil c b)))
      omega

/-- What is true of a text and passes to the parts at a line break, and to a line without the
carriage return that ends it, is true of all lines. -/
theorem forall_mem_lines {P : List Char → Prop} (hbreak : ∀ a b, P (a ++ '\n' :: b) → P a ∧ P b)
    (hreturn : ∀ a, P (a ++ ['\r']) → P a) {s : List Char} (hs : P s) : ∀ l ∈ lines s, P l := by
  have hfrom : ∀ line s, P (line.reverse ++ s) → ∀ l ∈ linesFrom line s, P l := by
    intro line s h
    fun_induction linesFrom line s with
    | case1 line => exact List.forall_mem_nil _
    | case2 line => exact List.forall_mem_singleton.mpr (by rwa [List.append_nil] at h)
    | case3 line rest ih =>
        obtain ⟨hline, hrest⟩ := hbreak _ _ h
        refine List.forall_mem_cons.mpr ⟨?_, ih hrest⟩
        unfold dropReturn
        split
        · exact hreturn _ (by rwa [List.reverse_cons] at hline)
        · exact hline
    | case4 line c rest _ ih =>
        exact ih (by rwa [List.reverse_cons, List.append_assoc])
  exact hfrom [] s hs

theorem withoutReturn_isPrefix (line : List Char) : withoutReturn line <+: line := by
  rw [withoutReturn, ← List.reverse_suffix, List.reverse_reverse]
  exact dropReturn_isSuffix line.reverse

theorem withoutReturn_concat (a : List Char) (c : Char) :
    withoutReturn (a ++ [c]) = if c = '\r' then a else a ++ [c] := by
  rw [withoutReturn, List.reverse_concat]
  split
  · rename_i hc
    rw [hc, dropReturn, List.reverse_reverse]
  · rename_i hc
    rw [dropReturn, List.reverse_cons, List.reverse_reverse]
    exact fun line h => hc (List.cons.inj h).1

theorem withoutReturn_of_not_mem {a : List Char} (h : '\r' ∉ a) : withoutReturn a = a := by
  rcases List.eq_nil_or_concat a with rfl | ⟨a, c, rfl⟩
  · rfl
  · rw [List.concat_eq_append] at h ⊢
    rw [withoutReturn_concat, if_neg]
    rintro rfl
    exact h List.mem_concat_self

/-- A carriage return that ends a line comes after all other characters. -/
theorem exists_withoutReturn_eq {c : Char} (hc : c ≠ '\r') (a z : List Char) :
    ∃ w, withoutReturn (a ++ c :: z) = a ++ c :: w := by
  rcases List.eq_nil_or_concat z with rfl | ⟨z, d, rfl⟩
  · exact ⟨[], by rw [withoutReturn_concat, if_neg hc]⟩
  · rw [List.concat_eq_append, ← List.cons_append, ← List.append_assoc, withoutReturn_concat]
    split
    · exact ⟨z, rfl⟩
    · exact ⟨z ++ [d], by rw [List.append_assoc, List.cons_append]⟩

/-- The first line of a text begins as the text does. -/
theorem exists_lines_eq_cons {a : List Char} {c : Char} (ha : '\n' ∉ a) (hc : c ≠ '\n')
    (hr : c ≠ '\r') (s : List Char) : ∃ w rest, lines (a ++ c :: s) = (a ++ c :: w) :: rest := by
  have hrun : ∀ z, '\n' ∉ z → '\n' ∉ a ++ c :: z := fun z hz h => by
    rcases List.mem_append.mp h with h | h
    · exact ha h
    · exact (List.mem_cons.mp h).elim (fun h => hc h.symm) hz
  have hmem : '\n' ∉ s.takeWhile (· != '\n') := fun h => by simpa using List.mem_takeWhile_imp h
  have hsplit := List.takeWhile_append_dropWhile (p := (· != '\n')) (l := s)
  cases hd : s.dropWhile (· != '\n') with
  | nil =>
      rw [hd, List.append_nil] at hsplit
      rw [hsplit] at hmem
      exact ⟨s, [], by rw [lines_of_not_mem (hrun s hmem), if_neg (by simp)]⟩
  | cons d t =>
      have hdn : d = '\n' := by
        have := List.head?_dropWhile_not (· != '\n') s
        rw [hd] at this
        simpa using this
      rw [hd, hdn] at hsplit
      obtain ⟨w, hw⟩ := exists_withoutReturn_eq hr a (s.takeWhile (· != '\n'))
      refine ⟨w, lines t, ?_⟩
      rw [← hw, ← lines_append (hrun _ hmem), List.append_assoc, List.cons_append, hsplit]

/-! ### Joined lines -/

theorem toList_intercalate_cons (x separator : String) : ∀ xs : List String,
    (String.intercalate separator (x :: xs)).toList =
      x.toList ++ xs.flatMap fun y => separator.toList ++ y.toList
  | [] => by simp
  | y :: xs => by
      rw [String.intercalate_cons_cons, String.toList_append, String.toList_append,
        toList_intercalate_cons y separator xs, List.flatMap_cons, List.append_assoc]
      simp

/-- Texts before the last ones have a separator each. -/
theorem toList_intercalate_append (separator : String) {ys : List String} (hys : ys ≠ []) :
    ∀ xs : List String, (String.intercalate separator (xs ++ ys)).toList =
      (xs.flatMap fun x => x.toList ++ separator.toList) ++
        (String.intercalate separator ys).toList
  | [] => rfl
  | x :: xs => by
      rw [List.cons_append, String.intercalate_cons_of_ne_nil (by simp [hys]), String.toList_append,
        String.toList_append, toList_intercalate_append separator hys xs, List.flatMap_cons]
      simp only [List.append_assoc]

/-! ### Pieces -/

theorem isInfix_of_mem_piecesFrom {separator : Char} {p : List Char} :
    ∀ {piece s : List Char}, p ∈ piecesFrom separator piece s → p <:+: piece.reverse ++ s
  | piece, [], h => by
      rewrite [List.mem_singleton.mp h, List.append_nil]
      exact List.infix_rfl
  | piece, c :: s, h => by
      rw [piecesFrom] at h
      split at h
      · rcases List.mem_cons.mp h with rfl | h
        · exact (List.prefix_append _ _).isInfix
        · exact (isInfix_of_mem_piecesFrom h).trans
            ((List.suffix_cons c s).trans (List.suffix_append _ _)).isInfix
      · have := isInfix_of_mem_piecesFrom h
        rwa [List.reverse_cons, List.append_assoc] at this

theorem piecesFrom_append (separator : Char) (piece s rest : List Char) :
    piecesFrom separator piece (s ++ separator :: rest) =
      piecesFrom separator piece s ++ pieces separator rest := by
  induction s generalizing piece with
  | nil =>
      rw [List.nil_append, piecesFrom, piecesFrom, if_pos rfl]
      rfl
  | cons c s ih =>
      rw [List.cons_append, piecesFrom, piecesFrom]
      split
      · rw [ih, List.cons_append]
      · exact ih _

/-- What is no separator is in one of the pieces. -/
theorem exists_mem_piecesFrom {separator c : Char} (hc : c ≠ separator) :
    ∀ piece {s : List Char}, c ∈ piece ∨ c ∈ s → ∃ p ∈ piecesFrom separator piece s, c ∈ p
  | piece, [], h => by
      have hmem := h.resolve_right List.not_mem_nil
      exact ⟨piece.reverse, List.mem_singleton_self _, List.mem_reverse.mpr hmem⟩
  | piece, d :: s, h => by
      rw [piecesFrom]
      split
      · rename_i hd
        rcases h with h | h
        · exact ⟨piece.reverse, List.mem_cons_self, List.mem_reverse.mpr h⟩
        · have hmem := (List.mem_cons.mp h).resolve_left (hd ▸ hc)
          obtain ⟨p, hp, hcp⟩ := exists_mem_piecesFrom hc [] (.inr hmem)
          exact ⟨p, List.mem_cons_of_mem _ hp, hcp⟩
      · refine exists_mem_piecesFrom hc _ ?_
        rcases h with h | h
        · exact .inl (List.mem_cons_of_mem d h)
        · rcases List.mem_cons.mp h with rfl | h
          · exact .inl List.mem_cons_self
          · exact .inr h

theorem piecesFrom_of_not_mem {separator : Char} : ∀ {a piece : List Char}, separator ∉ a →
    piecesFrom separator piece a = [piece.reverse ++ a]
  | [], piece, _ => by rw [piecesFrom, List.append_nil]
  | c :: a, piece, h => by
      obtain ⟨hc, ha⟩ := List.ne_and_not_mem_of_not_mem_cons h
      rw [piecesFrom, if_neg (Ne.symm hc), piecesFrom_of_not_mem ha, List.reverse_cons,
        List.append_assoc]
      rfl

theorem pieces_of_not_mem {separator : Char} {a : List Char} (h : separator ∉ a) :
    pieces separator a = [a] :=
  piecesFrom_of_not_mem h

/-- A text up to its first separator is its first piece. -/
theorem pieces_append {separator : Char} {a : List Char} (h : separator ∉ a) (s : List Char) :
    pieces separator (a ++ separator :: s) = a :: pieces separator s := by
  rw [pieces, piecesFrom_append, ← pieces, pieces_of_not_mem h]
  rfl

theorem not_mem_of_mem_piecesFrom {separator : Char} {p : List Char} :
    ∀ {piece s : List Char}, separator ∉ piece → p ∈ piecesFrom separator piece s → separator ∉ p
  | piece, [], hpiece, h => by
      rw [List.mem_singleton.mp h, List.mem_reverse]
      exact hpiece
  | piece, c :: s, hpiece, h => by
      rw [piecesFrom] at h
      split at h
      · rcases List.mem_cons.mp h with rfl | h
        · rwa [List.mem_reverse]
        · exact not_mem_of_mem_piecesFrom List.not_mem_nil h
      · rename_i hc
        refine not_mem_of_mem_piecesFrom (fun hm => ?_) h
        rcases List.mem_cons.mp hm with rfl | hm
        · exact hc rfl
        · exact hpiece hm

theorem not_mem_of_mem_pieces {separator : Char} {p s : List Char}
    (h : p ∈ pieces separator s) : separator ∉ p :=
  not_mem_of_mem_piecesFrom List.not_mem_nil h

theorem isInfix_of_mem_pieces {separator : Char} {p s : List Char} (h : p ∈ pieces separator s) :
    p <:+: s :=
  @isInfix_of_mem_piecesFrom separator p [] s h

end SchemaModels.Text
