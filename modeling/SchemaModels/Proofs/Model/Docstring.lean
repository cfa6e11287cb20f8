import SchemaModels.Model.Literal
import SchemaModels.Proofs.Text.Lines
import SchemaModels.Proofs.Text.Replace
import SchemaModels.Proofs.Text.Symbols
import SchemaModels.Unit.Settings

/-!
# Docstrings as literals

A docstring is read from its opening quotes to the first three quotes in a row that are not escaped.
Backslashes are doubled, each three quotes are escaped, and so is a quote at the end. Where three
quotes that are escaped already stand at the end of a description of one line, that last step takes
the backslash from the last quote.

* `escapeDoc_induction`: descriptions taken apart as they are escaped.
* `avoids_escapeDoc`: no closing quotes stand in an escaped description.
* `guardLast_escapeDoc`: the content of a docstring, by the run of quotes at the end.
* `docstring_closes`: where each docstring ends.
-/

namespace SchemaModels.Model

open Text

/-- The quotes that close a docstring. -/
def closingQuotes : List Symbol := tripleQuote.map .plain

theorem eq_of_mem_closingQuotes : ∀ x ∈ closingQuotes, x = .plain '"' := by decide

theorem closingQuotes_ne_nil : closingQuotes ≠ [] := by decide

/-! ### Escaping -/

/-- A character with backslashes doubled. -/
def doubled (c : Char) : List Char := if c = '\\' then ['\\', '\\'] else [c]

/-- Three escaped quotes. -/
def escapedTriple : List Char := ['\\', '"', '\\', '"', '\\', '"']

theorem escapeDoc_eq (s : List Char) :
    escapeDoc s = replaceAll tripleQuote escapedTriple (s.flatMap doubled) := rfl

theorem escapeDoc_triple (s : List Char) :
    escapeDoc (tripleQuote ++ s) = escapedTriple ++ escapeDoc s := by
  rw [escapeDoc_eq, List.flatMap_append, show tripleQuote.flatMap doubled = tripleQuote from rfl,
    replaceAll_append_self (by decide)]
  rfl

theorem escapeDoc_backslash (s : List Char) :
    escapeDoc ('\\' :: s) = '\\' :: '\\' :: escapeDoc s :=
  replaceAll_append_of_not_mem (f := '"') (p := ['"', '"']) (a := ['\\', '\\']) (by decide) _ _

/-- Doubling backslashes brings no quotes together. -/
theorem isPrefix_of_flatMap_doubled {w : List Char} (hw : '\\' ∉ w) :
    ∀ {s : List Char}, w <+: s.flatMap doubled → w <+: s := by
  induction w with
  | nil => exact fun _ => List.nil_prefix
  | cons c w ih =>
      obtain ⟨hc, hw⟩ := List.ne_and_not_mem_of_not_mem_cons hw
      rintro (_ | ⟨d, s⟩) h
      · exact absurd (List.eq_nil_of_prefix_nil h) (List.cons_ne_nil c w)
      · rw [List.flatMap_cons, doubled] at h
        split at h
        · exact absurd (List.cons_prefix_cons.mp h).1.symm hc
        · rw [List.singleton_append] at h
          obtain ⟨rfl, htail⟩ := List.cons_prefix_cons.mp h
          exact List.cons_prefix_cons.mpr ⟨rfl, ih hw htail⟩

theorem escapeDoc_cons {c : Char} {s : List Char} (hc : c ≠ '\\') (h : ¬tripleQuote <+: c :: s) :
    escapeDoc (c :: s) = c :: escapeDoc s := by
  have hdoubled : (c :: s).flatMap doubled = c :: s.flatMap doubled := by
    rw [List.flatMap_cons, doubled, if_neg hc]
    rfl
  have hprefix : ¬tripleQuote <+: c :: s.flatMap doubled := by
    rw [← hdoubled]
    exact fun hp => h (isPrefix_of_flatMap_doubled (by decide) hp)
  rw [escapeDoc_eq, hdoubled, replaceAll_cons_of_not hprefix]
  rfl

/-- A description is taken apart as it is escaped: three quotes at a time, else one character. -/
theorem escapeDoc_induction {P : List Char → Prop} (nil : P [])
    (triple : ∀ s, P s → P (tripleQuote ++ s)) (backslash : ∀ s, P s → P ('\\' :: s))
    (cons : ∀ c s, c ≠ '\\' → ¬tripleQuote <+: c :: s → P s → P (c :: s)) (s : List Char) :
    P s := by
  have hquotes : tripleQuote ≠ [] := by decide
  induction s using replaceAll_induction hquotes with
  | nil => exact nil
  | occurrence s ih => exact triple s ih
  | cons c s hp ih =>
      by_cases hc : c = '\\'
      · rw [hc]
        exact backslash s ih
      · exact cons c s hc hp ih

/-! ### Escaped descriptions -/

/-- Three quotes become three escaped ones. -/
theorem symbols_escapeDoc_triple (s : List Char) :
    symbols (escapeDoc (tripleQuote ++ s)) =
      .escaped '"' :: .escaped '"' :: .escaped '"' :: symbols (escapeDoc s) := by
  rw [escapeDoc_triple]
  simp only [escapedTriple, List.cons_append, List.nil_append, symbols_backslash]

theorem symbols_escapeDoc_backslash (s : List Char) :
    symbols (escapeDoc ('\\' :: s)) = .escaped '\\' :: symbols (escapeDoc s) := by
  rw [escapeDoc_backslash, symbols_backslash]

theorem symbols_escapeDoc_cons {c : Char} {s : List Char} (hc : c ≠ '\\')
    (h : ¬tripleQuote <+: c :: s) :
    symbols (escapeDoc (c :: s)) = .plain c :: symbols (escapeDoc s) := by
  rw [escapeDoc_cons hc h, symbols_cons hc]

theorem isFinished_escapeDoc (s : List Char) : IsFinished (escapeDoc s) := by
  induction s using escapeDoc_induction with
  | nil => exact isFinished_nil
  | triple s ih =>
      rw [escapeDoc_triple]
      exact IsFinished.append (by decide) ih
  | backslash s ih =>
      rw [escapeDoc_backslash]
      exact (isFinished_backslash '\\').mpr ih
  | cons c s hc h ih =>
      rw [escapeDoc_cons hc h]
      exact (isFinished_cons hc).mpr ih

/-- Only backslashes and quotes are escaped. -/
theorem eq_or_eq_of_escaped_mem {c : Char} {s : List Char}
    (h : .escaped c ∈ symbols (escapeDoc s)) : c = '\\' ∨ c = '"' := by
  induction s using escapeDoc_induction with
  | nil => cases h
  | triple s ih =>
      rw [symbols_escapeDoc_triple] at h
      simp only [List.mem_cons, Symbol.escaped.injEq] at h
      tauto
  | backslash s ih =>
      rw [symbols_escapeDoc_backslash] at h
      simp only [List.mem_cons, Symbol.escaped.injEq] at h
      tauto
  | cons d s hc hp ih =>
      rw [symbols_escapeDoc_cons hc hp, List.mem_cons] at h
      exact ih (h.resolve_left fun h => nomatch h)

/-- What stands unescaped at the start of an escaped description stands at its start. -/
theorem isPrefix_of_map_plain {w s : List Char} (h : w.map .plain <+: symbols (escapeDoc s)) :
    w <+: s := by
  induction s using escapeDoc_induction generalizing w with
  | nil =>
      rw [List.map_eq_nil_iff.mp (List.eq_nil_of_prefix_nil h)]
  | triple s _ =>
      cases w with
      | nil => exact List.nil_prefix
      | cons c w =>
          rw [symbols_escapeDoc_triple] at h
          exact nomatch (List.cons_prefix_cons.mp h).1
  | backslash s _ =>
      cases w with
      | nil => exact List.nil_prefix
      | cons c w =>
          rw [symbols_escapeDoc_backslash] at h
          exact nomatch (List.cons_prefix_cons.mp h).1
  | cons d s hc hp ih =>
      cases w with
      | nil => exact List.nil_prefix
      | cons c w =>
          rw [symbols_escapeDoc_cons hc hp] at h
          obtain ⟨hcd, hw⟩ := List.cons_prefix_cons.mp h
          exact List.cons_prefix_cons.mpr ⟨Symbol.plain.inj hcd, ih hw⟩

/-- No closing quotes stand in an escaped description. -/
theorem avoids_escapeDoc (s : List Char) : Avoids closingQuotes (escapeDoc s) := by
  refine ⟨isFinished_escapeDoc s, ?_⟩
  induction s using escapeDoc_induction with
  | nil => exact (avoids_nil closingQuotes_ne_nil).absent
  | triple s ih =>
      rw [symbols_escapeDoc_triple]
      simpa [List.infix_cons_iff, closingQuotes, tripleQuote] using ih
  | backslash s ih =>
      rw [symbols_escapeDoc_backslash]
      simpa [List.infix_cons_iff, closingQuotes, tripleQuote] using ih
  | cons c s hc hp ih =>
      rw [symbols_escapeDoc_cons hc hp, List.infix_cons_iff, not_or]
      refine ⟨fun h => hp (isPrefix_of_map_plain ?_), ih⟩
      rwa [symbols_escapeDoc_cons hc hp]

/-! ### The end of a description -/

theorem getLast?_flatMap_doubled (a : List Char) (c : Char) :
    ((a ++ [c]).flatMap doubled).getLast? = some c := by
  rw [List.flatMap_append, List.flatMap_singleton, doubled]
  split
  · rename_i hc
    rw [hc, List.getLast?_append_cons]
    rfl
  · exact List.getLast?_concat

/-- Nothing is escaped across a place that is not between two quotes. -/
theorem escapeDoc_append {a b : List Char} (h : a.getLast? ≠ some '"' ∨ b.head? ≠ some '"') :
    escapeDoc (a ++ b) = escapeDoc a ++ escapeDoc b := by
  rw [escapeDoc_eq, List.flatMap_append]
  refine replaceAll_append (by decide) _ fun u v huv hv hp => ?_
  rcases List.prefix_or_prefix_of_prefix hp (List.prefix_append v _) with hin | ⟨w, hw⟩
  · exact hin
  have hquotes : ∀ c ∈ v ++ w, c = '"' := by
    rw [hw]
    exact fun c hc => List.eq_of_mem_replicate (n := 3) hc
  cases w with
  | nil => exact hw ▸ (List.append_nil v).symm ▸ List.prefix_rfl
  | cons c w =>
      have hc : c = '"' := hquotes c (List.mem_append_right v List.mem_cons_self)
      rw [← hw, List.prefix_append_right_inj, hc] at hp
      -- Three quotes would reach from the one part into the other.
      exfalso
      rcases h with h | h
      · refine h ?_
        have hlast : (a.flatMap doubled).getLast? = some '"' := by
          rw [huv, List.getLast?_append_of_ne_nil u hv, List.getLast?_eq_some_getLast hv,
            hquotes _ (List.mem_append_left _ (List.getLast_mem hv))]
        rcases List.eq_nil_or_concat a with rfl | ⟨a, d, rfl⟩
        · cases hlast
        · rw [List.concat_eq_append, getLast?_flatMap_doubled] at hlast
          rw [List.concat_eq_append, List.getLast?_concat, hlast]
      · have hhead : ['"'] <+: b :=
          isPrefix_of_flatMap_doubled (by decide) ((List.prefix_append ['"'] w).trans hp)
        obtain ⟨b, rfl⟩ := hhead
        exact h rfl

theorem escapeDoc_replicate_three (n : Nat) : escapeDoc (List.replicate (n + 3) '"') =
    escapedTriple ++ escapeDoc (List.replicate n '"') :=
  escapeDoc_triple (List.replicate n '"')

/-- Quotes in a row are escaped three at a time, so that one more stays as it is, unless it is the
third. -/
theorem escapeDoc_replicate_succ : ∀ n, n % 3 ≠ 2 →
    escapeDoc (List.replicate (n + 1) '"') = escapeDoc (List.replicate n '"') ++ ['"']
  | 0, _ => rfl
  | 1, _ => rfl
  | 2, h => absurd rfl h
  | n + 3, h => by
      rw [Nat.add_right_comm, escapeDoc_replicate_three, escapeDoc_replicate_three,
        escapeDoc_replicate_succ n (by omega), List.append_assoc]

/-- Three more are escaped. -/
theorem escapeDoc_replicate_add : ∀ n, n % 3 = 0 →
    escapeDoc (List.replicate (n + 3) '"') = escapeDoc (List.replicate n '"') ++ escapedTriple
  | 0, _ => rfl
  | 1, h => absurd h (by decide)
  | 2, h => absurd h (by decide)
  | n + 3, h => by
      have ih := escapeDoc_replicate_add n (by omega)
      rw [escapeDoc_replicate_three] at ih
      rw [escapeDoc_replicate_three, escapeDoc_replicate_three, List.append_assoc, ih]

/-! ### The content of a docstring -/

theorem getLast?_escapeDoc {s : List Char} (h : s.getLast? ≠ some '"') :
    (escapeDoc s).getLast? ≠ some '"' := by
  rcases List.eq_nil_or_concat s with rfl | ⟨a, c, rfl⟩
  · exact h
  rw [List.concat_eq_append, List.getLast?_concat] at h
  have hc : c ≠ '"' := fun hc => h (congrArg some hc)
  have hlast : escapeDoc [c] = doubled c := by
    unfold doubled
    split
    · rename_i hback
      rw [hback]
      rfl
    · rename_i hback
      exact escapeDoc_cons hback fun hp => absurd hp.length_le (by simp [tripleQuote])
  rw [List.concat_eq_append, escapeDoc_append (b := [c]) (.inr h), hlast, doubled]
  split
  · rw [List.getLast?_append_cons]
    exact fun hh => nomatch hh
  · rw [List.getLast?_concat]
    exact fun hh => hc (Option.some.inj hh)

theorem guardLast_concat (a : List Char) : guardLast (a ++ ['"']) = a ++ ['\\', '"'] := by
  rw [guardLast, if_pos List.getLast?_concat, List.dropLast_concat]

/-- The content of a docstring, by the run of quotes at the end of the description. The last quote
is escaped. A run that is escaped as a whole ends in an escaped quote already, so that there the
backslash of the last quote is escaped instead of the quote. -/
theorem guardLast_escapeDoc (s : List Char) :
    (endRun '"' s = 0 ∧ guardLast (escapeDoc s) = escapeDoc s ∧
      (escapeDoc s).getLast? ≠ some '"') ∨
    (endRun '"' s % 3 ≠ 0 ∧ ∃ a, s = a ++ ['"'] ∧
      guardLast (escapeDoc s) = escapeDoc a ++ ['\\', '"']) ∨
    (0 < endRun '"' s ∧ endRun '"' s % 3 = 0 ∧ ∃ a, s = a ++ tripleQuote ∧
      guardLast (escapeDoc s) = escapeDoc a ++ ['\\', '"', '\\', '"', '\\', '\\', '"']) := by
  obtain ⟨a, ha, hs⟩ := exists_eq_append_replicate '"' s
  generalize endRun '"' s = n at hs ⊢
  have hrun : ∀ k, escapeDoc (a ++ List.replicate k '"') =
      escapeDoc a ++ escapeDoc (List.replicate k '"') := fun k => escapeDoc_append (.inl ha)
  rcases n with _ | m
  · rw [List.replicate_zero, List.append_nil] at hs
    have hlast := getLast?_escapeDoc (hs ▸ ha)
    exact .inl ⟨rfl, if_neg hlast, hlast⟩
  by_cases hthird : (m + 1) % 3 = 0
  · -- No quote of the run is left bare: the last one has the backslash that is escaped here.
    obtain ⟨k, rfl⟩ : ∃ k, m = k + 2 := ⟨m - 2, by omega⟩
    refine .inr (.inr ⟨Nat.succ_pos _, hthird, a ++ List.replicate k '"', ?_, ?_⟩)
    · rw [hs, show k + 2 + 1 = k + 3 from rfl, List.replicate_add, ← List.append_assoc]
      rfl
    · rw [hs, hrun, show k + 2 + 1 = k + 3 from rfl, escapeDoc_replicate_add k (by omega),
        ← List.append_assoc, ← hrun,
        show escapedTriple = ['\\', '"', '\\', '"', '\\'] ++ ['"'] from rfl, ← List.append_assoc,
        guardLast_concat]
      simp
  · refine .inr (.inl ⟨hthird, a ++ List.replicate m '"', ?_, ?_⟩)
    · rw [hs, List.append_assoc, List.replicate_succ']
    · rw [hs, hrun, escapeDoc_replicate_succ m (by omega), ← List.append_assoc, ← hrun,
        guardLast_concat]

/-- An escape opens no closing quotes. -/
theorem avoids_append_escape {a b : List Char} {c : Char} (ha : Avoids closingQuotes a)
    (hb : Avoids closingQuotes b) : Avoids closingQuotes (a ++ '\\' :: c :: b) :=
  ha.append_escape (by simp [closingQuotes, tripleQuote]) hb

theorem avoids_escapes {a b : List Char} (ha : Avoids closingQuotes a)
    (hb : Avoids closingQuotes b) :
    Avoids closingQuotes (a ++ '\\' :: '"' :: '\\' :: '"' :: '\\' :: '\\' :: b) := by
  have hnil : Avoids closingQuotes [] := avoids_nil closingQuotes_ne_nil
  exact avoids_append_escape ha (avoids_append_escape hnil (avoids_append_escape hnil hb))

/-- No closing quotes stand in the content of a docstring. -/
theorem avoids_guardLast (s : List Char) : Avoids closingQuotes (guardLast (escapeDoc s)) := by
  rcases guardLast_escapeDoc s with ⟨-, heq, -⟩ | ⟨-, a, -, heq⟩ | ⟨-, -, a, -, heq⟩ <;> rw [heq]
  · exact avoids_escapeDoc s
  · exact avoids_append_escape (avoids_escapeDoc a) (avoids_nil closingQuotes_ne_nil)
  · exact avoids_escapes (avoids_escapeDoc a) ⟨by decide, by decide⟩

theorem getLast?_guardLast {s : List Char} (h : 0 < endRun '"' s) :
    (guardLast (escapeDoc s)).getLast? = some '"' := by
  rcases guardLast_escapeDoc s with ⟨hrun, -⟩ | ⟨-, a, -, heq⟩ | ⟨-, -, a, -, heq⟩
  · omega
  all_goals rw [heq, List.getLast?_append_cons]; rfl

/-- Only backslashes and quotes are escaped in it. -/
theorem eq_or_eq_of_escaped_mem_guardLast {s : List Char} {c : Char}
    (h : .escaped c ∈ symbols (guardLast (escapeDoc s))) : c = '\\' ∨ c = '"' := by
  rcases guardLast_escapeDoc s with ⟨-, heq, -⟩ | ⟨-, a, -, heq⟩ | ⟨-, -, a, -, heq⟩ <;>
    rw [heq] at h
  · exact eq_or_eq_of_escaped_mem h
  all_goals
    rw [symbols_append (isFinished_escapeDoc a), List.mem_append] at h
    rcases h with h | h
    · exact eq_or_eq_of_escaped_mem h
    · simp [symbols] at h
      tauto

/-- Escaping brings no line breaks. -/
theorem newline_mem_escapeDoc (s : List Char) : '\n' ∈ escapeDoc s ↔ '\n' ∈ s := by
  induction s using escapeDoc_induction with
  | nil => exact Iff.rfl
  | triple s ih => rw [escapeDoc_triple]; simpa [escapedTriple, tripleQuote] using ih
  | backslash s ih => rw [escapeDoc_backslash]; simpa using ih
  | cons c s hc hp ih => rw [escapeDoc_cons hc hp, List.mem_cons, List.mem_cons, ih]

theorem newline_mem_guardLast (s : List Char) : '\n' ∈ guardLast (escapeDoc s) ↔ '\n' ∈ s := by
  rcases guardLast_escapeDoc s with ⟨-, heq, -⟩ | ⟨-, a, hs, heq⟩ | ⟨-, -, a, hs, heq⟩ <;> rw [heq]
  · exact newline_mem_escapeDoc s
  all_goals
    rw [hs, List.mem_append, newline_mem_escapeDoc, List.mem_append]
    simp [tripleQuote]

/-! ### Where a docstring ends -/

/-- The descriptions whose docstrings do not end where they are closed: a text of one line with
quotes at the end whose number is a multiple of three. -/
def EndsTripled (s : List Char) : Prop := '\n' ∉ s ∧ 0 < endRun '"' s ∧ endRun '"' s % 3 = 0

instance (s : List Char) : Decidable (EndsTripled s) :=
  inferInstanceAs (Decidable (_ ∧ _ ∧ _))

theorem symbols_tripleQuote (s : List Char) :
    symbols (tripleQuote ++ s) = closingQuotes ++ symbols s :=
  symbols_append (by decide) s

/-- A text without closing quotes that does not end in a bare quote is read up to the quotes after
it. -/
theorem upTo?_closingQuotes {s : List Char} (hs : Avoids closingQuotes s)
    (hlast : (symbols s).getLast? ≠ some (.plain '"')) (rest : List Char) :
    upTo? closingQuotes (symbols (s ++ (tripleQuote ++ rest))) =
      some (symbols s, symbols rest) := by
  rw [symbols_append hs.isFinished, symbols_tripleQuote]
  exact upTo?_of_avoids closingQuotes_ne_nil eq_of_mem_closingQuotes hs hlast _

/-- The content of a docstring of one line is read up to the quotes that close it, or up to one
quote before. -/
theorem upTo?_guardLast (s : List Char) : ∃ content,
    upTo? closingQuotes (symbols (guardLast (escapeDoc s) ++ tripleQuote)) =
      some (content, if 0 < endRun '"' s ∧ endRun '"' s % 3 = 0 then [.plain '"'] else []) := by
  have havoids := avoids_guardLast s
  rcases guardLast_escapeDoc s with ⟨hrun, heq, hlast⟩ | ⟨hrun, a, -, heq⟩ | ⟨hpos, hrun, a, -, heq⟩
  · rw [if_neg (by omega)]
    refine ⟨_, upTo?_closingQuotes havoids (fun h => hlast ?_) []⟩
    exact heq ▸ getLast?_of_symbols h
  · rw [if_neg (by omega)]
    refine ⟨_, upTo?_closingQuotes havoids ?_ []⟩
    rw [heq, symbols_append (isFinished_escapeDoc a), symbols_backslash]
    simp [symbols]
  · rw [if_pos ⟨hpos, hrun⟩]
    have hbefore := avoids_escapes (avoids_escapeDoc a) (avoids_nil closingQuotes_ne_nil)
    have hread := upTo?_closingQuotes hbefore ?_ ['"']
    · refine ⟨_, Eq.trans ?_ hread⟩
      rw [heq, List.append_assoc, List.append_assoc]
      rfl
    · rw [symbols_append (isFinished_escapeDoc a), symbols_backslash]
      simp [symbols]

/-! ### Lines between the quotes -/

/-- Lines at an indentation, a line break before each. An empty line is not indented. -/
def indentedLines (indent : List Char) (ls : List (List Char)) : List Char :=
  ls.flatMap fun l => '\n' :: if l.isEmpty then [] else indent ++ l

section docstring
variable (indent description : String)

theorem toList_docstring_of_line (h : (lines (docContent description)).length ≤ 1) :
    (docstring indent description).toList =
      indent.toList ++ (tripleQuote ++ (docContent description ++ tripleQuote)) := by
  have hquotes : "\"\"\"".toList = tripleQuote := rfl
  cases hl : lines (docContent description) with
  | nil => simp [docstring, hl, hquotes]
  | cons l ls =>
      cases ls with
      | nil => simp [docstring, hl, hquotes]
      | cons k ls =>
          rw [hl] at h
          exact absurd h (by simp)

theorem toList_docstring_of_lines (h : 1 < (lines (docContent description)).length) :
    (docstring indent description).toList =
      indent.toList ++ (tripleQuote ++
        (indentedLines indent.toList (lines (docContent description)) ++ '\n' :: indent.toList ++
          tripleQuote)) := by
  have hquotes : "\"\"\"".toList = tripleQuote := rfl
  have hline : ∀ l : List Char,
      (if l = [] then "" else indent ++ String.ofList l).toList =
        if l = [] then [] else indent.toList ++ l := fun l => by
    split
    · rfl
    · rw [String.toList_append, String.toList_ofList]
  cases hl : lines (docContent description) with
  | nil =>
      rw [hl] at h
      exact absurd h (by simp)
  | cons l ls =>
      cases ls with
      | nil =>
          rw [hl] at h
          exact absurd h (by simp)
      | cons k ls =>
          simp only [docstring, hl, List.cons_append, toList_intercalate_cons]
          simp [indentedLines, hline, hquotes, List.flatMap_map]

end docstring

section indent
variable {indent : List Char} (hindent : ∀ c ∈ indent, c ≠ '"' ∧ c ≠ '\\')
include hindent

theorem avoids_indent_append {l : List Char} (hl : Avoids closingQuotes l) :
    Avoids closingQuotes (indent ++ l) := by
  induction indent with
  | nil => exact hl
  | cons c indent ih =>
      obtain ⟨⟨hquote, hback⟩, hrest⟩ := List.forall_mem_cons.mp hindent
      have hc : Symbol.plain c ∉ closingQuotes := fun hm =>
        hquote (Symbol.plain.inj (eq_of_mem_closingQuotes _ hm))
      exact (avoids_nil closingQuotes_ne_nil).append_cons hback hc (ih hrest)

/-- Lines keep apart what they hold. -/
theorem avoids_indentedLines {ls : List (List Char)} (hls : ∀ l ∈ ls, Avoids closingQuotes l)
    {b : List Char} (hb : Avoids closingQuotes b) :
    Avoids closingQuotes (indentedLines indent ls ++ '\n' :: b) := by
  induction ls using List.reverseRecOn generalizing b with
  | nil => exact (avoids_nil closingQuotes_ne_nil).append_cons (by decide) (by decide) hb
  | append_singleton ls l ih =>
      obtain ⟨hls, hl⟩ := List.forall_mem_append.mp hls
      have hline : Avoids closingQuotes (if l.isEmpty then [] else indent ++ l) := by
        split
        · exact avoids_nil closingQuotes_ne_nil
        · exact avoids_indent_append hindent (hl l (List.mem_singleton_self l))
      have happend := ih hls (hline.append_cons (by decide : '\n' ≠ '\\') (by decide) hb)
      simpa [indentedLines] using happend

end indent

/-- A text without closing quotes in which only backslashes and quotes are escaped. -/
structure Contained (s : List Char) : Prop where
  avoids : Avoids closingQuotes s
  escapes : ∀ c, .escaped c ∈ symbols s → c = '\\' ∨ c = '"'

/-- So are the parts at any other character, which nothing escapes. -/
theorem Contained.of_append_cons {a b : List Char} {c : Char} (hc : c ≠ '\\') (hq : c ≠ '"')
    (h : Contained (a ++ c :: b)) : Contained a ∧ Contained b := by
  have ha : IsFinished a :=
    isFinished_of_escaped_not_mem fun hm => (h.escapes c hm).elim hc hq
  have hsymbols : symbols (a ++ c :: b) = symbols a ++ .plain c :: symbols b := by
    rw [symbols_append ha, symbols_cons hc]
  have hleft : symbols a <:+: symbols (a ++ c :: b) :=
    hsymbols ▸ (List.prefix_append _ _).isInfix
  have hright : symbols b <:+: symbols (a ++ c :: b) :=
    hsymbols ▸ ((List.suffix_cons _ _).trans (List.suffix_append _ _)).isInfix
  have hb : IsFinished b := fun hm => h.avoids.isFinished (hright.subset hm)
  have ha' : Avoids closingQuotes a := ⟨ha, fun hi => h.avoids.absent (hi.trans hleft)⟩
  have hb' : Avoids closingQuotes b := ⟨hb, fun hi => h.avoids.absent (hi.trans hright)⟩
  exact ⟨⟨ha', fun d hm => h.escapes d (hleft.subset hm)⟩,
    ⟨hb', fun d hm => h.escapes d (hright.subset hm)⟩⟩

theorem contained_guardLast (s : List Char) : Contained (guardLast (escapeDoc s)) :=
  ⟨avoids_guardLast s, fun _ => eq_or_eq_of_escaped_mem_guardLast⟩

theorem contained_of_mem_lines {s : List Char} (h : Contained s) : ∀ l ∈ lines s, Contained l :=
  forall_mem_lines (fun _ _ h => h.of_append_cons (by decide) (by decide))
    (fun _ h => (h.of_append_cons (by decide) (by decide)).1) h

/-! ### Docstrings -/

section description
variable (description : String)

/-- Without a line break the content of a docstring is one line, and so is a description that ends
in a quote. -/
theorem newline_not_mem_of_lines (h : (lines (docContent description)).length ≤ 1)
    (hrun : 0 < endRun '"' description.toList) : '\n' ∉ description.toList := by
  rw [← newline_mem_guardLast]
  refine not_mem_of_length_lines_le h ?_
  rw [getLast?_guardLast hrun]
  decide

theorem newline_mem_of_lines (h : 1 < (lines (docContent description)).length) :
    '\n' ∈ description.toList := by
  rw [← newline_mem_guardLast]
  by_contra hmem
  rw [docContent, lines_of_not_mem hmem] at h
  split at h <;> exact absurd h (by simp)

/-- A docstring of one line is read up to its closing quotes, or up to one quote before. -/
theorem exists_upTo?_of_line (h : (lines (docContent description)).length ≤ 1) : ∃ content,
    upTo? closingQuotes (symbols (docContent description ++ tripleQuote)) =
      some (content, if EndsTripled description.toList then [.plain '"'] else []) := by
  have hiff : EndsTripled description.toList ↔
      0 < endRun '"' description.toList ∧ endRun '"' description.toList % 3 = 0 :=
    ⟨And.right, fun hrun => ⟨newline_not_mem_of_lines description h hrun.1, hrun⟩⟩
  simp only [hiff]
  exact upTo?_guardLast description.toList

end description

theorem ne_of_mem_indent (unit : Indent) : ∀ c ∈ unit.text.toList, c ≠ '"' ∧ c ≠ '\\' := by
  have hall : unit.text.toList.all (fun c => c ≠ '"' ∧ c ≠ '\\') = true := by
    cases unit <;> decide
  exact fun c hc => by simpa using List.all_eq_true.mp hall c hc

/-- Between the quotes of a docstring of several lines no others close it. -/
theorem upTo?_indentedLines (unit : Indent) {ls : List (List Char)}
    (hls : ∀ l ∈ ls, Avoids closingQuotes l) :
    let content := indentedLines unit.text.toList ls ++ '\n' :: unit.text.toList
    upTo? closingQuotes (symbols (content ++ tripleQuote)) = some (symbols content, []) := by
  have hindent := ne_of_mem_indent unit
  have hend : Avoids closingQuotes unit.text.toList := by
    rw [← List.append_nil unit.text.toList]
    exact avoids_indent_append hindent (avoids_nil closingQuotes_ne_nil)
  have hquote : '"' ∉ '\n' :: unit.text.toList := fun h =>
    (List.mem_cons.mp h).elim (by decide) fun h => (hindent _ h).1 rfl
  refine upTo?_closingQuotes (avoids_indentedLines hindent hls hend) (fun h => hquote ?_) []
  refine List.mem_of_getLast? ?_
  rw [← getLast?_of_symbols h, List.getLast?_append_of_ne_nil _ (List.cons_ne_nil _ _)]

/-- Where a docstring is read to its end. After the quotes that open it comes the content, up to
the first three quotes in a row that are not escaped. Nothing is left behind these, unless a
description of one line ends in three quotes, or six, and so on: then one quote is. -/
theorem docstring_closes (unit : Indent) (description : String) :
    ∃ after content, (docstring unit.text description).toList =
        unit.text.toList ++ (tripleQuote ++ after) ∧
      upTo? closingQuotes (symbols after) =
        some (content, if EndsTripled description.toList then [.plain '"'] else []) := by
  rcases Nat.lt_or_ge 1 (lines (docContent description)).length with hlines | hline
  · have hopen : ¬EndsTripled description.toList := fun h =>
      h.1 (newline_mem_of_lines description hlines)
    have hcontent := contained_of_mem_lines (contained_guardLast description.toList)
    have hread := upTo?_indentedLines unit fun l hl => (hcontent l hl).avoids
    rw [if_neg hopen]
    exact ⟨_, _, toList_docstring_of_lines _ description hlines, hread⟩
  · obtain ⟨content, hread⟩ := exists_upTo?_of_line description hline
    exact ⟨_, content, toList_docstring_of_line _ description hline, hread⟩

/-- Three quotes are escaped as a whole, and a quote is left behind the docstring. -/
theorem docstring_leaves_quote : ∃ after,
    (docstring Indent.four.text "\"\"\"").toList =
        Indent.four.text.toList ++ (tripleQuote ++ after) ∧
      ∀ content, upTo? closingQuotes (symbols after) ≠ some (content, []) := by
  refine ⟨_, rfl, fun content h => ?_⟩
  cases h

end SchemaModels.Model
