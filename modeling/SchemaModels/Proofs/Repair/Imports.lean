import SchemaModels.Proofs.Repair.Statements
import SchemaModels.Proofs.Text.Replace

/-!
# What is left when the wrapper's name is dropped

The statements that list other names are written again, and those that are left with no names go
with their line breaks. The last is done by removing a text wherever it occurs, so it is done right
exactly when that text occurs nowhere else, and each of these statements has a line break.

* `framed`: the text as it should be, with everything outside of the statements as it was.
* `Tidy`: no part of the text looks like a statement without names.
* `removeEmptyImports_eq_iff`: the text is as it should be exactly when it is tidy.
-/

namespace SchemaModels.Repair

open Text

/-! ### The text as it should be -/

/-- Whether a statement is left with no names. -/
def ImportStatement.emptied (i : ImportStatement) : Bool := i.lists && i.kept.isEmpty

/-- The text before the first statement that is left with no names, and each such statement with
the text from its end to the next one. The other statements are without the wrapper's name. -/
def divided : List (Piece ImportStatement) → List Char × List (ImportStatement × List Char)
  | [] => ([], [])
  | .char c :: ps => (c :: (divided ps).1, (divided ps).2)
  | .span text i :: ps =>
      if i.emptied then ([], (i, (divided ps).1) :: (divided ps).2)
      else ((if i.lists then i.keptText else text) ++ (divided ps).1, (divided ps).2)

/-- A text without the line break that it begins with. -/
def dropBreak : List Char → List Char
  | '\n' :: s => s
  | s => s

/-- The text without the statements that are left with no names and without their line breaks. -/
def framed (ps : List (Piece ImportStatement)) : List Char :=
  (divided ps).1 ++ (divided ps).2.flatMap fun e => dropBreak e.2

/-- A statement without names, with its line break. -/
def emptyImport (bracketed : Bool) : List Char :=
  importHead ++ if bracketed then "(\n)\n".toList else ['\n']

/-- Each statement that is left with no names has a line break, and nothing else looks like a
statement without names. -/
structure Tidy (ps : List (Piece ImportStatement)) : Prop where
  ended : ∀ e ∈ (divided ps).2, e.2 ≠ []
  first : ∀ b, ¬emptyImport b <:+: (divided ps).1
  others : ∀ b, ∀ e ∈ (divided ps).2, ¬emptyImport b <:+: dropBreak e.2

theorem emptied_of_mem_divided : ∀ (ps : List (Piece ImportStatement)),
    ∀ e ∈ (divided ps).2, e.1.emptied = true
  | [], _, h => absurd h List.not_mem_nil
  | .char _ :: ps, e, h => emptied_of_mem_divided ps e h
  | .span text i :: ps, e, h => by
      rw [divided] at h
      split at h
      · rename_i hi
        rcases List.mem_cons.mp h with rfl | h
        · exact hi
        · exact emptied_of_mem_divided ps e h
      · exact emptied_of_mem_divided ps e h

theorem kept_of_emptied {i : ImportStatement} (h : i.emptied = true) : i.kept = [] :=
  List.isEmpty_iff.mp (Bool.and_eq_true_iff.mp h).2

theorem keptText_of_emptied {i : ImportStatement} (h : i.emptied = true) :
    i.keptText ++ ['\n'] = emptyImport i.bracketed := by
  rw [ImportStatement.keptText, kept_of_emptied h, emptyImport]
  cases i.bracketed <;> rfl

theorem withoutName_eq : ∀ ps : List (Piece ImportStatement),
    withoutName ps = (divided ps).1 ++ (divided ps).2.flatMap fun e => e.1.keptText ++ e.2
  | [] => rfl
  | .char c :: ps => congrArg (c :: ·) (withoutName_eq ps)
  | .span text i :: ps => by
      rw [withoutName, replaceSpans_span_cons, ← withoutName, withoutName_eq ps, divided]
      cases hi : i.emptied with
      | true =>
          rw [if_pos (Bool.and_eq_true_iff.mp hi).1, if_pos rfl, List.nil_append,
            List.flatMap_cons, List.append_assoc]
      | false => rw [if_neg Bool.false_ne_true, List.append_assoc]

/-! ### Statements on lines of their own -/

/-- Statements begin at the start of a line and are followed by a line break or the end. -/
def Lined : Bool → List (Piece ImportStatement) → Prop
  | _, [] => True
  | _, .char c :: ps => Lined (c = '\n') ps
  | lineStart, .span _ _ :: ps =>
      lineStart = true ∧ (ps = [] ∨ ∃ qs, ps = .char '\n' :: qs) ∧ Lined false ps

theorem lined_cutFrom (lineStart : Bool) (s : List Char) :
    Lined lineStart (cutFrom findImport lineStart s) := by
  match s with
  | [] => trivial
  | c :: s =>
      cases hf : findImport lineStart (c :: s) with
      | none =>
          rw [cutFrom_cons_of_none hf]
          exact lined_cutFrom (c = '\n') s
      | some r =>
          obtain ⟨x, hx, hsplit⟩ := takes_findImport _ _ _ _ hf
          obtain ⟨hls, t, -, hread⟩ := findImport_eq_some_iff.mp hf
          have hbreak := (readImport_eq_some_iff.mp hread).1
          have hlen : r.2.length ≤ s.length := length_le_of_append_eq_cons hx hsplit.symm
          rw [hsplit] at hf ⊢
          rw [cutFrom_append_of_some takes_findImport hx hf]
          rcases hbreak with hr | ⟨u, hr⟩
          · rw [hr]
            exact ⟨hls, Or.inl rfl, trivial⟩
          · rw [hr] at hlen ⊢
            have hno : ∀ ls, findImport ls ('\n' :: u) = none := fun ls =>
              Option.eq_none_iff_forall_ne_some.mpr fun y hy => by
                obtain ⟨-, t, ht, -⟩ := findImport_eq_some_iff.mp hy
                cases ht
            rw [cutFrom_cons_of_none (hno _)]
            exact ⟨hls, Or.inr ⟨_, rfl⟩, lined_cutFrom true u⟩
termination_by s.length
decreasing_by all_goals simp_all <;> omega

/-! ### The parts of a text -/

/-- Each part of a text before a statement that is left with no names ends with a line break, or is
empty at the start of a line. -/
def Ended (last : Option ImportStatement) :
    Bool → List Char → List (ImportStatement × List Char) → Prop
  | lineStart, x, [] => last.isSome = true → startsAfter lineStart x = true
  | lineStart, x, e :: es => startsAfter lineStart x = true ∧ Ended last true e.2 es

section ended
variable {last : Option ImportStatement} {es : List (ImportStatement × List Char)}

theorem ended_cons {lineStart : Bool} {c : Char} {x : List Char} :
    Ended last lineStart (c :: x) es ↔ Ended last (c = '\n') x es := by
  cases es <;> rw [Ended, Ended, startsAfter_cons]

theorem Ended.append {lineStart : Bool} {x y : List Char}
    (h : Ended last (startsAfter lineStart x) y es) : Ended last lineStart (x ++ y) es := by
  cases es with
  | nil => exact fun hl => (startsAfter_append lineStart x y).trans (h hl)
  | cons e es => exact ⟨(startsAfter_append lineStart x y).trans h.1, h.2⟩

theorem Ended.mono {lineStart : Bool} {x : List Char} (h : Ended last false x es) :
    Ended last lineStart x es := by
  have hmono : startsAfter false x = true → startsAfter lineStart x = true := by
    cases x with
    | nil => exact fun h => absurd h Bool.false_ne_true
    | cons c x => rw [startsAfter_cons, startsAfter_cons]; exact id
  cases es with
  | nil => exact fun hl => hmono (h hl)
  | cons e es => exact ⟨hmono h.1, h.2⟩

end ended

/-- Of the statements that are left with no names, only the last may have no line break. -/
theorem exists_divided : ∀ {ps : List (Piece ImportStatement)} {lineStart : Bool},
    Lined lineStart ps → ∃ x es last, Ended last lineStart x es ∧
      divided ps = (x, (es.map fun e => (e.1, '\n' :: e.2)) ++ last.toList.map fun i => (i, []))
  | [], _, _ => ⟨[], [], none, fun h => absurd h Bool.false_ne_true, rfl⟩
  | .char c :: ps, lineStart, h => by
      obtain ⟨x, es, last, hended, hdiv⟩ := @exists_divided ps _ h
      exact ⟨c :: x, es, last, ended_cons.mpr hended, by rw [divided, hdiv]⟩
  | .span text i :: ps, lineStart, ⟨hls, hbreak, h⟩ => by
      obtain ⟨x, es, last, hended, hdiv⟩ := exists_divided h
      cases hi : i.emptied with
      | false =>
          refine ⟨(if i.lists then i.keptText else text) ++ x, es, last, hended.mono.append, ?_⟩
          rw [divided, hdiv, hi, if_neg Bool.false_ne_true]
      | true =>
          rcases hbreak with rfl | ⟨qs, rfl⟩
          · exact ⟨[], [], some i, fun _ => hls, by rw [divided, if_pos hi]; rfl⟩
          · obtain ⟨rfl, -⟩ := Prod.mk.inj hdiv
            refine ⟨[], (i, (divided qs).1) :: es, last, ⟨hls, ended_cons.mp hended⟩, ?_⟩
            rw [divided, if_pos hi, hdiv]
            rfl

/-! ### Removing statements without names -/

/-- A text without the statements of one form that have no names, wherever they occur. -/
def cleared (bracketed : Bool) (s : List Char) : List Char :=
  replaceAll (emptyImport bracketed) [] s

theorem removeEmptyImports_eq (s : List Char) :
    removeEmptyImports s = cleared false (cleared true s) :=
  rfl

/-- A statement without names has its first character once. -/
theorem emptyImport_eq_cons (b : Bool) : ∃ p, emptyImport b = 'f' :: p ∧ 'f' ∉ p := by
  cases b
  · exact ⟨_, rfl, by decide⟩
  · exact ⟨_, rfl, by decide⟩

theorem emptyImport_ne_nil (b : Bool) : emptyImport b ≠ [] := by
  obtain ⟨p, hp, -⟩ := emptyImport_eq_cons b
  exact hp ▸ List.cons_ne_nil _ p

theorem cleared_append_cons (b : Bool) (x t : List Char) :
    cleared b (x ++ 'f' :: t) = cleared b x ++ cleared b ('f' :: t) := by
  obtain ⟨p, hp, hf⟩ := emptyImport_eq_cons b
  rw [cleared, cleared, cleared, hp]
  exact replaceAll_append_cons hf [] x t

theorem cleared_append_emptyImport (b c : Bool) (x t : List Char) :
    cleared b (x ++ (emptyImport c ++ t)) =
      cleared b x ++ ((if b = c then [] else emptyImport c) ++ cleared b t) := by
  obtain ⟨p, hp, hf⟩ := emptyImport_eq_cons c
  rw [hp, List.cons_append, cleared_append_cons]
  congr 1
  rw [← List.cons_append, ← hp]
  split
  · rename_i hbc
    subst hbc
    exact replaceAll_append_self (emptyImport_ne_nil b) [] t
  · rename_i hbc
    have hno : ¬emptyImport b <+: emptyImport c ++ t := by
      intro h
      rw [emptyImport, emptyImport, List.append_assoc, List.prefix_append_right_inj] at h
      cases b <;> cases c
      · exact hbc rfl
      · exact absurd (List.cons_prefix_cons.mp h).1 (by decide)
      · exact absurd (List.cons_prefix_cons.mp h).1 (by decide)
      · exact hbc rfl
    obtain ⟨q, hq, -⟩ := emptyImport_eq_cons b
    rw [hp, List.cons_append] at hno ⊢
    rw [cleared, replaceAll_cons_of_not hno, hq, replaceAll_append_of_not_mem hf, ← hq]
    rfl

section parts
variable (es : List (ImportStatement × List Char))

/-- The texts after statements without names. -/
def besideEmpty : List Char := es.flatMap fun e => emptyImport e.1.bracketed ++ e.2

/-- The texts after statements without names, with the bracketed ones of these removed. -/
def besidePlain : List Char :=
  es.flatMap fun e => (if e.1.bracketed then [] else emptyImport false) ++ e.2

/-- The parts of a text, each cleared for itself. -/
def clearedParts (b : Bool) : List (ImportStatement × List Char) :=
  es.map fun e => (e.1, cleared b e.2)

/-- The parts of a text by themselves. -/
def parts (x : List Char) : List Char := x ++ es.flatMap Prod.snd

/-- A statement without names stands in some part of a text. -/
def Occurs (b : Bool) (x : List Char) : Prop :=
  emptyImport b <:+: x ∨ ∃ e ∈ es, emptyImport b <:+: e.2

theorem parts_cons (x : List Char) (e : ImportStatement × List Char) :
    parts (e :: es) x = x ++ parts es e.2 := rfl

theorem occurs_cons {b : Bool} {x : List Char} {e : ImportStatement × List Char} :
    Occurs (e :: es) b x ↔ emptyImport b <:+: x ∨ Occurs es b e.2 := by
  rw [Occurs, List.exists_mem_cons_iff]
  rfl

end parts

theorem cleared_besideEmpty : ∀ (x : List Char) (es : List (ImportStatement × List Char)),
    cleared true (x ++ besideEmpty es) = cleared true x ++ besidePlain (clearedParts es true)
  | x, [] => by
      rw [besideEmpty, List.flatMap_nil, List.append_nil]
      exact (List.append_nil _).symm
  | x, e :: es => by
      have hcut : (if true = e.1.bracketed then [] else emptyImport e.1.bracketed) =
          if e.1.bracketed then [] else emptyImport false := by
        cases e.1.bracketed <;> rfl
      have hrec : cleared true (e.2 ++ besideEmpty es) = _ := cleared_besideEmpty e.2 es
      rw [besideEmpty, List.flatMap_cons, ← besideEmpty, List.append_assoc,
        cleared_append_emptyImport, hrec, hcut, ← List.append_assoc _ (cleared true e.2)]
      rfl

/-! ### What is removed -/

theorem length_cleared_le (b : Bool) (x : List Char) : (cleared b x).length ≤ x.length :=
  length_remove_le (emptyImport_ne_nil b) x

theorem length_cleared_lt {b : Bool} {x : List Char} (h : emptyImport b <:+: x) :
    (cleared b x).length < x.length :=
  length_remove_lt (emptyImport_ne_nil b) h

theorem length_clearedParts_le (b : Bool) : ∀ (x : List Char)
    (es : List (ImportStatement × List Char)),
    (parts (clearedParts es b) (cleared b x)).length ≤ (parts es x).length
  | x, [] => by
      rw [clearedParts, List.map_nil, parts, parts, List.length_append, List.length_append]
      exact Nat.add_le_add_right (length_cleared_le b x) _
  | x, e :: es => by
      have hx := length_cleared_le b x
      have hrec := length_clearedParts_le b e.2 es
      rw [clearedParts, List.map_cons, ← clearedParts, parts_cons, parts_cons, List.length_append,
        List.length_append]
      exact Nat.add_le_add hx hrec

/-- The parts get shorter when a statement without names stands in one of them. -/
theorem length_clearedParts_lt {b : Bool} : ∀ {x : List Char}
    {es : List (ImportStatement × List Char)}, Occurs es b x →
    (parts (clearedParts es b) (cleared b x)).length < (parts es x).length
  | x, [], h => by
      have hx : emptyImport b <:+: x := h.resolve_right (by simp)
      rw [clearedParts, List.map_nil, parts, parts, List.length_append, List.length_append]
      exact Nat.add_lt_add_right (length_cleared_lt hx) _
  | x, e :: es, h => by
      rw [clearedParts, List.map_cons, ← clearedParts, parts_cons, parts_cons, List.length_append,
        List.length_append]
      rcases (occurs_cons es).mp h with hx | h
      · exact Nat.add_lt_add_of_lt_of_le (length_cleared_lt hx) (length_clearedParts_le b e.2 es)
      · exact Nat.add_lt_add_of_le_of_lt (length_cleared_le b x) (length_clearedParts_lt h)

theorem cleared_eq_self {b : Bool} {x : List Char} (h : ¬emptyImport b <:+: x) :
    cleared b x = x :=
  replaceAll_eq_self [] h

theorem clearedParts_of_not_occurs {b : Bool} {x : List Char}
    {es : List (ImportStatement × List Char)} (h : ¬Occurs es b x) :
    cleared b x = x ∧ clearedParts es b = es := by
  rw [Occurs, not_or] at h
  refine ⟨cleared_eq_self h.1, ?_⟩
  rw [clearedParts]
  conv_rhs => rw [← List.map_id es]
  exact List.map_congr_left fun e he =>
    Prod.ext rfl (cleared_eq_self fun hi => h.2 ⟨e, he, hi⟩)

theorem parts_append (x : List Char) (e : ImportStatement × List Char)
    (es : List (ImportStatement × List Char)) : parts (e :: es) x = parts es (x ++ e.2) := by
  rw [parts_cons, parts, parts, List.append_assoc]

/-- Where a bracketed statement was removed the parts beside it are next to each other. -/
theorem cleared_besidePlain_cons (x : List Char) (e : ImportStatement × List Char)
    (es : List (ImportStatement × List Char)) :
    cleared false (x ++ besidePlain (e :: es)) =
      if e.1.bracketed then cleared false ((x ++ e.2) ++ besidePlain es)
      else cleared false x ++ cleared false (e.2 ++ besidePlain es) := by
  rw [besidePlain, List.flatMap_cons, ← besidePlain]
  split
  · rw [List.nil_append, List.append_assoc]
  · rw [List.append_assoc, cleared_append_emptyImport, if_pos rfl, List.nil_append]

/-- Clearing leaves no more than the parts, and less when a plain statement without names stands in
one of them. -/
theorem length_cleared_besidePlain : ∀ (x : List Char) (es : List (ImportStatement × List Char)),
    (cleared false (x ++ besidePlain es)).length ≤ (parts es x).length ∧
      (Occurs es false x → (cleared false (x ++ besidePlain es)).length < (parts es x).length)
  | x, [] => ⟨length_cleared_le false _, fun h => length_cleared_lt (by
      rw [besidePlain, List.flatMap_nil, List.append_nil]
      exact h.resolve_right (by simp))⟩
  | x, e :: es => by
      rw [cleared_besidePlain_cons]
      split
      · obtain ⟨hle, hlt⟩ := length_cleared_besidePlain (x ++ e.2) es
        rw [parts_append]
        refine ⟨hle, fun h => hlt ?_⟩
        rcases (occurs_cons es).mp h with hx | he | h
        · exact Or.inl (hx.trans (List.prefix_append x e.2).isInfix)
        · exact Or.inl (he.trans (List.suffix_append x e.2).isInfix)
        · exact Or.inr h
      · obtain ⟨hle, hlt⟩ := length_cleared_besidePlain e.2 es
        rw [parts_cons, List.length_append, List.length_append]
        refine ⟨Nat.add_le_add (length_cleared_le false x) hle, fun h => ?_⟩
        rcases (occurs_cons es).mp h with hx | h
        · exact Nat.add_lt_add_of_lt_of_le (length_cleared_lt hx) hle
        · exact Nat.add_lt_add_of_le_of_lt (length_cleared_le false x) (hlt h)

/-- Parts that begin at the start of a line come together without a statement between them. -/
theorem not_occurs_append {x : List Char} {e : ImportStatement × List Char}
    {es : List (ImportStatement × List Char)}
    (hx : startsAfter true x = true) (h : ¬Occurs (e :: es) false x) :
    ¬Occurs es false (x ++ e.2) := by
  rw [occurs_cons, not_or, Occurs, not_or] at h
  rw [Occurs, not_or]
  refine ⟨fun hi => ?_, h.2.2⟩
  have hend : x = [] ∨ x.getLast? = some '\n' := by
    cases hl : x.getLast? with
    | none => exact Or.inl (List.getLast?_eq_none_iff.mp hl)
    | some c =>
        rw [startsAfter, hl] at hx
        exact Or.inr (congrArg some (of_decide_eq_true hx))
  rcases isInfix_or_of_append (p := importHead) (by decide) hend hi with hi | hi
  · exact h.1 hi
  · exact h.2.1 hi

theorem cleared_besidePlain {last : Option ImportStatement} : ∀ {x : List Char}
    {es : List (ImportStatement × List Char)}, Ended last true x es → ¬Occurs es false x →
      cleared false (x ++ besidePlain es) = parts es x
  | x, [], _, h => cleared_eq_self (by
      rw [besidePlain, List.flatMap_nil, List.append_nil]
      exact fun hx => h (Or.inl hx))
  | x, e :: es, ⟨hx, hended⟩, h => by
      rw [cleared_besidePlain_cons]
      split
      · have happend : Ended last true (x ++ e.2) es := Ended.append (hx.symm ▸ hended)
        rw [parts_append, cleared_besidePlain happend (not_occurs_append hx h)]
      · rw [occurs_cons, not_or] at h
        rw [parts_cons, cleared_eq_self h.1, cleared_besidePlain hended h.2]

/-- Removing statements without names leaves the parts beside them exactly when it finds no other
such statement. -/
theorem removeEmptyImports_eq_iff {last : Option ImportStatement} {x : List Char}
    {es : List (ImportStatement × List Char)} (hended : Ended last true x es) :
    removeEmptyImports (x ++ besideEmpty es) = parts es x ↔ ∀ b, ¬Occurs es b x := by
  rw [removeEmptyImports_eq, cleared_besideEmpty]
  constructor
  · intro h b hb
    have hlen := congrArg List.length h
    have hplain := length_cleared_besidePlain (cleared true x) (clearedParts es true)
    have hparts := length_clearedParts_le true x es
    by_cases ht : Occurs es true x
    · have := length_clearedParts_lt ht
      omega
    · obtain ⟨hx, hes⟩ := clearedParts_of_not_occurs ht
      rw [hx, hes] at hplain hlen
      cases b with
      | true => exact ht hb
      | false => exact absurd hlen (Nat.ne_of_lt (hplain.2 hb))
  · intro h
    obtain ⟨hx, hes⟩ := clearedParts_of_not_occurs (h true)
    rw [hx, hes, cleared_besidePlain hended (h false)]

/-! ### The whole text -/

section whole
variable {ps : List (Piece ImportStatement)} {x : List Char}
  {es : List (ImportStatement × List Char)} {last : Option ImportStatement}
  (hdiv : divided ps =
    (x, (es.map fun e => (e.1, '\n' :: e.2)) ++ last.toList.map fun i => (i, [])))
include hdiv

theorem framed_of_divided : framed ps = parts es x := by
  rw [framed, hdiv, parts, List.flatMap_append, List.flatMap_map, List.flatMap_map]
  cases last <;> simp [dropBreak]

theorem withoutName_of_divided :
    withoutName ps = (x ++ besideEmpty es) ++ last.toList.flatMap ImportStatement.keptText := by
  have hemptied := emptied_of_mem_divided ps
  rw [hdiv] at hemptied
  have hes : ∀ e ∈ es, e.1.keptText ++ '\n' :: e.2 = emptyImport e.1.bracketed ++ e.2 := by
    intro e he
    have hi := hemptied _ (List.mem_append_left _ (List.mem_map_of_mem he))
    rw [← keptText_of_emptied hi, List.append_assoc]
    rfl
  rw [withoutName_eq, hdiv, List.flatMap_append, List.flatMap_map, List.flatMap_map,
    List.flatMap_congr hes, ← besideEmpty, ← List.append_assoc]
  simp only [List.append_nil]

theorem tidy_iff_of_divided : Tidy ps ↔ last = none ∧ ∀ b, ¬Occurs es b x := by
  constructor
  · rintro ⟨hended, hfirst, hothers⟩
    rw [hdiv] at hended hfirst hothers
    refine ⟨?_, fun b hb => ?_⟩
    · cases last with
      | none => rfl
      | some i => exact absurd rfl (hended (i, []) (by simp))
    · rcases hb with hx | ⟨e, he, hi⟩
      · exact hfirst b hx
      · exact hothers b _ (List.mem_append_left _ (List.mem_map_of_mem he)) hi
  · rintro ⟨rfl, hno⟩
    have hmem : ∀ e ∈ (divided ps).2, ∃ d ∈ es, e = (d.1, '\n' :: d.2) := by
      intro e he
      rw [hdiv] at he
      obtain ⟨d, hd, rfl⟩ := List.mem_map.mp ((List.mem_append.mp he).resolve_right (by simp))
      exact ⟨d, hd, rfl⟩
    refine ⟨fun e he => ?_, fun b hi => ?_, fun b e he hi => ?_⟩
    · obtain ⟨d, -, rfl⟩ := hmem e he
      exact List.cons_ne_nil _ _
    · rw [hdiv] at hi
      exact hno b (Or.inl hi)
    · obtain ⟨d, hd, rfl⟩ := hmem e he
      exact hno b (Or.inr ⟨d, hd, hi⟩)

end whole

/-- A statement without names and without a line break is not removed. -/
theorem cleared_append_keptText {i : ImportStatement} (hi : i.emptied = true) (b : Bool)
    (x : List Char) : cleared b (x ++ i.keptText) = cleared b x ++ i.keptText := by
  have hno : ¬emptyImport b <:+: i.keptText := by
    rw [ImportStatement.keptText, kept_of_emptied hi]
    cases b <;> cases i.bracketed <;> decide
  obtain ⟨t, ht⟩ : ∃ t, i.keptText = 'f' :: t := by
    rw [ImportStatement.keptText, kept_of_emptied hi]
    cases i.bracketed <;> exact ⟨_, rfl⟩
  rw [ht, cleared_append_cons, ← ht, cleared_eq_self hno]

theorem startsAfter_keptText {i : ImportStatement} (hi : i.emptied = true) (x : List Char) :
    startsAfter true (x ++ i.keptText) = false := by
  rw [startsAfter_append, ImportStatement.keptText, kept_of_emptied hi]
  cases i.bracketed <;> rfl

theorem startsAfter_parts {last : Option ImportStatement} (hl : last.isSome = true) :
    ∀ {x : List Char} {es : List (ImportStatement × List Char)}, Ended last true x es →
      startsAfter true (parts es x) = true
  | x, [], h => by
      rw [parts, List.flatMap_nil, List.append_nil]
      exact h hl
  | x, e :: es, h => by
      rw [parts_cons, startsAfter_append, h.1]
      exact startsAfter_parts hl h.2

/-- The statements without names are removed as they should be exactly from tidy texts. -/
theorem removeEmptyImports_withoutName_iff (s : List Char) :
    removeEmptyImports (withoutName (cutImports s)) = framed (cutImports s) ↔
      Tidy (cutImports s) := by
  obtain ⟨x, es, last, hended, hdiv⟩ := exists_divided (lined_cutFrom true s)
  have hdiv : divided (cutImports s) = _ := hdiv
  rw [withoutName_of_divided hdiv, framed_of_divided hdiv, tidy_iff_of_divided hdiv]
  cases last with
  | none =>
      rw [Option.toList_none, List.flatMap_nil, List.append_nil, removeEmptyImports_eq_iff hended]
      exact (and_iff_right rfl).symm
  | some i =>
      have hi : i.emptied = true := by
        refine emptied_of_mem_divided (cutImports s) (i, []) ?_
        rw [hdiv]
        simp
      refine iff_of_false (fun h => ?_) fun h => by cases h.1
      rw [Option.toList_some, List.flatMap_singleton, removeEmptyImports_eq,
        cleared_append_keptText hi, cleared_append_keptText hi] at h
      have hstart := startsAfter_parts rfl hended
      rw [← h, startsAfter_keptText hi] at hstart
      cases hstart

/-! ### The name dropped -/

theorem divided_of_no_lists : ∀ {ps : List (Piece ImportStatement)},
    (∀ p ∈ ps, p.found?.any ImportStatement.lists = false) →
      divided ps = (ps.flatMap Piece.source, [])
  | [], _ => rfl
  | .char c :: ps, h => by
      rw [divided, divided_of_no_lists (List.forall_mem_cons.mp h).2]
      rfl
  | .span text i :: ps, h => by
      obtain ⟨hi, hps⟩ := List.forall_mem_cons.mp h
      have hi : i.lists = false := hi
      have hemptied : i.emptied = false := by rw [ImportStatement.emptied, hi]; rfl
      rw [divided, divided_of_no_lists hps, hemptied, hi]
      rfl

theorem framed_of_no_lists {s : List Char} (h : importsWrapper s = false) :
    framed (cutImports s) = s := by
  have hno : ∀ p ∈ cutImports s, p.found?.any ImportStatement.lists = false := fun p hp =>
    Bool.eq_false_iff.mpr (List.any_eq_false.mp h p hp)
  rw [framed, divided_of_no_lists hno, List.flatMap_nil, List.append_nil]
  exact flatMap_source_cut findImport s

/-- Dropping the wrapper's name: a text that has it as a word outside of the import statements stays
as it is. Any other text keeps everything outside of the statements, and loses those that are left
with no names together with their line breaks, exactly when it is tidy or no statement lists the
name. A statement that keeps names is written as one that lists the other names in their order. -/
theorem dropUnused_frame (s : List Char) :
    (hasWord wrapperName (outside (cutImports s)) = true → dropUnused s = (s, false)) ∧
      (hasWord wrapperName (outside (cutImports s)) = false →
        ((dropUnused s).1 = framed (cutImports s) ↔
          (importsWrapper s = true → Tidy (cutImports s)))) ∧
      ∀ text i, .span text i ∈ cutImports s → ∀ rest, AtBreak rest →
        ∃ j, findImport true (i.keptText ++ rest) = some (j, rest) ∧
          j.bracketed = i.bracketed ∧ j.listed = i.listed.filter (· != wrapperName) := by
  refine ⟨fun hword => dropUnused_of_inUse fun _ => hword, fun hword => ?_, ?_⟩
  · rw [dropUnused_eq, hword, if_neg Bool.false_ne_true]
    cases hi : importsWrapper s with
    | false =>
        rw [if_neg Bool.false_ne_true, framed_of_no_lists hi]
        exact iff_of_true rfl fun h => absurd h Bool.false_ne_true
    | true =>
        rw [if_pos rfl]
        exact (removeEmptyImports_withoutName_iff s).trans ⟨fun h _ => h, fun h => h rfl⟩
  · intro text i hspan rest hrest
    obtain ⟨ls, t, hfind⟩ := exists_of_mem_cut
      (fun ls t a rest hf => (exists_of_findImport hf).elim fun x hx => ⟨_, hx.symm⟩) hspan
    exact ⟨i.written, i.findImport_keptText hfind hrest, rfl, i.listed_written⟩

/-- An import that keeps a name, one that keeps none, and a class. -/
def twoImports : List Char :=
  "from pydantic import RootModel\nfrom pydantic import (BaseModel, RootModel)\nx = 1\n".toList

theorem dropUnused_frame_twoImports :
    (dropUnused twoImports).1 = "from pydantic import (\n    BaseModel,\n)\nx = 1\n".toList :=
  (((dropUnused_frame twoImports).2.1 (by decide +kernel)).mpr fun _ =>
    ⟨by decide +kernel, by decide +kernel, by decide +kernel⟩).trans (by decide +kernel)

/-- An import of two names, and a comment that ends like a statement without names. -/
def commentedImport : List Char :=
  "from pydantic import BaseModel, RootModel\n# from pydantic import \nx = 1\n".toList

/-- The comment loses its end with the line break, which joins it with the next line. -/
theorem dropUnused_commentedImport :
    hasWord wrapperName (outside (cutImports commentedImport)) = false ∧
      (dropUnused commentedImport).1 = "from pydantic import BaseModel\n# x = 1\n".toList ∧
      framed (cutImports commentedImport) =
        "from pydantic import BaseModel\n# from pydantic import \nx = 1\n".toList := by
  decide +kernel

end SchemaModels.Repair
