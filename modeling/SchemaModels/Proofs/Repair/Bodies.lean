import SchemaModels.Proofs.Repair.Layouts
import SchemaModels.Proofs.Text.Lines
import SchemaModels.Proofs.Text.Trim

/-!
# Class bodies without directives

A body of directives, blank lines and comments has a `pass` in the place of each directive that no
deeper or equally deep line follows. So it is left with a `pass` exactly when there is such a
directive; where a comment follows the last one there may be none.

* `ClassHeader`, `BodyLine`, `IsBody`: classes with such a body.
* `bodyAfter`: what is left of the body.
* `removeDirectives_body`: that body stands in the text without directives, and when it has a
  `pass`.
-/

namespace SchemaModels.Repair

open Text

/-! ### Classes -/

/-- The header of a class: whole lines that begin with the keyword after an indentation, the last
one of them with the colon. -/
structure ClassHeader where
  indent : List Char
  front : List Char
  line : List Char
  indent_blank : indent ∈ inlineGaps
  keyword : ∃ c t, front ++ line = indent ++ ("class".toList ++ c :: t) ∧ isBlank c = true
  front_ended : startsAfter true front = true
  colon : ':' ∈ line
  one_line : '\n' ∉ line

/-- What stands on a line of a body, or on several for a directive. -/
inductive BodyContent where
  | directive (text : List Char)
  | comment (text : List Char)
  | blank
  deriving DecidableEq

namespace BodyContent

/-- The text after the indentation. -/
def text : BodyContent → List Char
  | directive x => x
  | comment t => '#' :: t
  | blank => []

/-- Whether a line is blank. -/
def isBlankLine : BodyContent → Bool
  | blank => true
  | _ => false

end BodyContent

/-- A line of a body. -/
structure BodyLine where
  indent : List Char
  content : BodyContent
  ending : List Char
  deriving DecidableEq

namespace BodyLine
variable (l : BodyLine)

/-- The text of a line with its end. -/
def text : List Char := l.indent ++ (l.content.text ++ l.ending)

/-- A line belongs to the body of a class that is indented by some depth. -/
def Fits (depth : Nat) : Prop :=
  match l.content with
  | .directive x => l.indent ∈ inlineGaps ∧ depth < l.indent.length ∧ x ∈ directiveTexts
  | .comment t => l.indent ∈ inlineGaps ∧ depth < l.indent.length ∧ '\n' ∉ t
  | .blank => l.indent ∈ gaps ∧ '\n' ∉ l.indent

end BodyLine

/-- The text of a body. -/
def bodyText (ls : List BodyLine) : List Char := ls.flatMap BodyLine.text

/-- The depth of a line. -/
def depthOf (line : List Char) : Nat := (line.takeWhile isInlineBlank).length

/-- Lines are the body of a class that is indented by some depth, before the rest of the text: each
belongs to the body and has a line break, unless it is the last of the text, and the next line that
is not blank is not deeper than the class. -/
def IsBody (depth : Nat) : List BodyLine → (after : List Char) → Prop
  | [], after => ∀ line ∈ findLine? (fun line => !(trimBlank line).isEmpty) after,
      depthOf line ≤ depth
  | l :: ls, after => l.Fits depth ∧
      (l.ending = ['\n'] ∨ l.ending = [] ∧ ls = [] ∧ after = []) ∧ IsBody depth ls after

/-- Whether the next line that is not blank begins with an indentation. -/
def continues (indent : List Char) : List BodyLine → Bool
  | [] => false
  | l :: ls => if l.content.isBlankLine then continues indent ls else indent.isPrefixOf l.indent

/-- What is left of a body. -/
def bodyAfter : List BodyLine → List Char
  | [] => []
  | l :: ls =>
      (match l.content with
        | .directive _ => if continues l.indent ls then [] else l.indent ++ "pass\n".toList
        | _ => l.text) ++ bodyAfter ls

/-- Some line of a text is a `pass`. -/
def HasPass (s : List Char) : Prop := ∃ line ∈ lines s, trimBlank line = "pass".toList

instance (s : List Char) : Decidable (HasPass s) :=
  inferInstanceAs (Decidable (∃ line ∈ lines s, trimBlank line = "pass".toList))

/-- Some directive of a body is followed by no line that is as deep. -/
def EndsBody (ls : List BodyLine) : Prop :=
  ∃ before l after x, ls = before ++ l :: after ∧ l.content = .directive x ∧
    continues l.indent after = false

theorem bodyText_cons (a : List Char) (c : BodyContent) (e : List Char) (ls : List BodyLine)
    (after : List Char) :
    bodyText (⟨a, c, e⟩ :: ls) ++ after = a ++ (c.text ++ (e ++ (bodyText ls ++ after))) := by
  simp [bodyText, BodyLine.text]

theorem IsBody.isBreak {depth : Nat} {l : BodyLine} {ls : List BodyLine} {after : List Char}
    (h : IsBody depth (l :: ls) after) : IsBreak l.ending (bodyText ls ++ after) := by
  rcases h.2.1 with he | ⟨he, rfl, rfl⟩
  · exact Or.inl he
  · exact Or.inr ⟨he, rfl⟩

theorem IsBody.isBreak_bodyAfter {depth : Nat} {l : BodyLine} {ls : List BodyLine}
    {after : List Char} (h : IsBody depth (l :: ls) after) : IsBreak l.ending (bodyAfter ls) := by
  rcases h.2.1 with he | ⟨he, rfl, rfl⟩
  · exact Or.inl he
  · exact Or.inr ⟨he, rfl⟩

/-! ### Directives and headers -/

theorem exists_directiveTexts_eq {x : List Char} (hx : x ∈ directiveTexts) : ∃ y, x = 'm' :: y := by
  obtain ⟨y, hy, gap, -, rfl⟩ := Language.mem_mul.mp hx
  rw [directiveLayout, List.prod_cons, Language.mem_mul] at hy
  obtain ⟨w, hw, z, -, rfl⟩ := hy
  obtain rfl := mem_singleton_language.mp hw
  exact ⟨_, rfl⟩

theorem colon_not_mem_commas {x : List Char} (hx : x ∈ commas) : ':' ∉ x := by
  have hblank : ∀ gap ∈ gaps, ':' ∉ gap := fun gap => not_mem_of_mem_gaps (by decide)
  rcases mem_commas_iff.mp hx with hgap | ⟨gap, hgap, gap', hgap', rfl⟩
  · exact hblank x hgap
  · simp [hblank gap hgap, hblank gap' hgap']

theorem colon_not_mem_quotes {x : List Char} (hx : x ∈ quotes) : ':' ∉ x := by
  obtain ⟨c, hc, rfl⟩ := hx
  rw [List.mem_singleton]
  rintro rfl
  exact absurd hc (by decide)

/-- A directive has no colon, so that it does not reach over the header of a class. -/
theorem colon_not_mem_directiveTexts {x : List Char} (hx : x ∈ directiveTexts) : ':' ∉ x := by
  obtain ⟨y, hy, gap, hgap, rfl⟩ := Language.mem_mul.mp hx
  have hword : ∀ {w : List Char}, ':' ∉ w → ∀ z ∈ ({w} : Language Char), ':' ∉ z :=
    fun hw z hz => mem_singleton_language.mp hz ▸ hw
  have hgaps : ∀ z ∈ gaps, ':' ∉ z := fun z hz => not_mem_of_mem_gaps (by decide) hz
  have hlayout : ∀ L ∈ directiveLayout, ∀ z ∈ L, ':' ∉ z := by
    simp only [directiveLayout, List.forall_mem_cons]
    exact ⟨hword (by decide), hgaps, hword (by decide), hgaps, hword (by decide), hgaps,
      hword (by decide), hgaps, hword (by decide), hgaps, fun z => colon_not_mem_quotes,
      hword (by decide), fun z => colon_not_mem_quotes, fun z => colon_not_mem_commas,
      hword (by decide), fun L hL => absurd hL List.not_mem_nil⟩
  rw [List.mem_append, not_or]
  refine ⟨not_mem_of_mem_prod hlayout hy, fun h => ?_⟩
  exact absurd (hgap _ h) (by decide)

/-- What is taken off as a directive has no colon, and a line break at its end or the end of the
text after it. -/
theorem exists_of_findDirective_eq_some {lineStart : Bool} {s rest : List Char} {d : Directive}
    (h : findDirective lineStart s = some (d, rest)) :
    ∃ x, s = x ++ rest ∧ x ≠ [] ∧ ':' ∉ x ∧ (x.getLast? = some '\n' ∨ rest = []) := by
  obtain ⟨-, hne, hindent, -, x, hx, e, he, rfl⟩ := findDirective_eq_some_iff.mp h
  refine ⟨d.indent ++ (x ++ e), by simp, by simp [hne], ?_, ?_⟩
  · have hcolon := colon_not_mem_directiveTexts hx
    have hind : ':' ∉ d.indent := fun hm => absurd (hindent _ hm) (by decide)
    rcases he with rfl | ⟨rfl, -⟩ <;> simp [hcolon, hind]
  · rcases he with rfl | ⟨-, rfl⟩
    · exact Or.inl (by rw [← List.append_assoc, List.getLast?_concat])
    · exact Or.inr rfl

theorem takes_findDirective : Takes findDirective := by
  intro lineStart s d rest h
  obtain ⟨x, hs, hne, -⟩ := exists_of_findDirective_eq_some h
  exact ⟨x, hne, hs⟩

/-- A directive that is found before a line with a colon ends before that line. -/
theorem exists_of_findDirective_append {lineStart : Bool} {v line t rest : List Char}
    {d : Directive} (hcolon : ':' ∈ line) (hline : '\n' ∉ line)
    (h : findDirective lineStart (v ++ (line ++ t)) = some (d, rest)) :
    v ≠ [] ∧ line ++ t <:+ rest := by
  obtain ⟨x, hx, hne, hno, hend⟩ := exists_of_findDirective_eq_some h
  rcases List.append_eq_append_iff.mp hx with ⟨w, rfl, hw⟩ | ⟨w, rfl, rfl⟩
  · rcases List.eq_nil_or_concat w with rfl | ⟨w, c, rfl⟩
    · rw [List.append_nil] at hne
      exact ⟨hne, hw ▸ List.suffix_rfl⟩
    · -- The directive would end within the line, which has no line break.
      rw [List.concat_eq_append] at *
      rw [List.mem_append, not_or] at hno
      rcases List.append_eq_append_iff.mp hw with ⟨z, hz, -⟩ | ⟨z, rfl, rfl⟩
      · exact absurd (hz ▸ List.mem_append_left z hcolon) hno.2
      · rcases hend with hend | hend
        · rw [← List.append_assoc, List.getLast?_concat] at hend
          exact absurd (by simp [Option.some.inj hend]) hline
        · obtain ⟨rfl, -⟩ := List.append_eq_nil_iff.mp hend
          rw [List.append_nil] at hcolon
          exact absurd hcolon hno.2
  · exact ⟨fun hnil => hne (List.append_eq_nil_iff.mp hnil).1, List.suffix_append _ _⟩

theorem mem_directiveTexts {x : List Char} (h : [] ∈ directive x) : x ∈ directiveTexts := by
  obtain ⟨y, hy, hxy⟩ := (recognizes_directive x []).mp h
  exact Language.mem_mul.mpr ⟨y, hy, [], fun c hc => absurd hc List.not_mem_nil, hxy⟩

/-- The text from some place on without directives. -/
def withoutDirectives (lineStart : Bool) (s : List Char) : List Char :=
  replaceSpans (fun _ d => d.replacement) (cutFrom findDirective lineStart s)

theorem removeDirectives_eq (s : List Char) :
    (removeDirectives s).1 = withoutDirectives true s :=
  rfl

/-- Characters before a place at which nothing is found are kept. -/
theorem withoutDirectives_append {lineStart : Bool} {a b : List Char}
    (h : ∀ u v, a = u ++ v → v ≠ [] → findDirective (startsAfter lineStart u) (v ++ b) = none) :
    withoutDirectives lineStart (a ++ b) =
      a ++ withoutDirectives (startsAfter lineStart a) b := by
  rw [withoutDirectives, cutFrom_append_of_none h, replaceSpans_append, replaceSpans_map_char]
  rfl

theorem findDirective_false (s : List Char) : findDirective false s = none :=
  Option.eq_none_iff_forall_ne_some.mpr fun _ h =>
    absurd (findDirective_eq_some_iff.mp h).1 Bool.false_ne_true

/-- A line at whose start nothing is found is kept. -/
theorem withoutDirectives_line {line e b : List Char} (hline : '\n' ∉ line) (he : IsBreak e b)
    (h : findDirective true (line ++ (e ++ b)) = none) (lineStart : Bool) :
    withoutDirectives lineStart (line ++ (e ++ b)) = line ++ (e ++ withoutDirectives true b) := by
  have hnone : ∀ u v, line ++ e = u ++ v → v ≠ [] →
      findDirective (startsAfter lineStart u) (v ++ b) = none := by
    intro u v huv hv
    have hu : '\n' ∉ u := by
      rcases he with rfl | ⟨rfl, -⟩
      · obtain ⟨w, c, rfl⟩ := (List.eq_nil_or_concat v).resolve_left hv
        rw [List.concat_eq_append, ← List.append_assoc] at huv
        exact fun hm => hline ((List.append_inj' huv rfl).1 ▸ List.mem_append_left w hm)
      · rw [List.append_nil] at huv
        exact fun hm => hline (huv ▸ List.mem_append_left v hm)
    cases u with
    | nil =>
        obtain rfl : line ++ e = v := huv
        cases lineStart with
        | false => exact findDirective_false _
        | true => rwa [List.append_assoc]
    | cons c u =>
        rw [startsAfter_of_not_mem (List.cons_ne_nil c u) hu]
        exact findDirective_false _
  have hcut := withoutDirectives_append hnone
  rcases he with rfl | ⟨rfl, rfl⟩
  · rw [startsAfter_concat] at hcut
    simpa using hcut
  · have hnil : ∀ ls, withoutDirectives ls [] = [] := fun _ => rfl
    simpa [hnil] using hcut

/-- The last line of a header and the rest of the text after it are not touched by what stands
before them. -/
theorem exists_removeDirectives_header (h : ClassHeader) (before rest : List Char) :
    ∃ lead, (removeDirectives (before ++ (h.front ++ (h.line ++ '\n' :: rest)))).1 =
      lead ++ (h.line ++ '\n' :: (removeDirectives rest).1) := by
  have hcut : ∀ u v r x, before ++ h.front = u ++ v → v ≠ [] →
      findDirective (startsAfter true u) (v ++ (h.line ++ '\n' :: rest)) = some (x, r) →
        h.line ++ '\n' :: rest <:+ r := fun u v r x _ _ hf =>
    (exists_of_findDirective_append h.colon h.one_line hf).2
  obtain ⟨ps, hps, -⟩ := exists_cutFrom_append takes_findDirective hcut
  have hnone : findDirective true (h.line ++ (['\n'] ++ rest)) = none :=
    Option.eq_none_iff_forall_ne_some.mpr fun r hr =>
      (exists_of_findDirective_append (v := []) h.colon h.one_line hr).1 rfl
  have hline := withoutDirectives_line h.one_line (Or.inl rfl) hnone
  refine ⟨replaceSpans (fun _ d => d.replacement) ps, ?_⟩
  rw [← List.append_assoc, removeDirectives_eq, withoutDirectives, hps, replaceSpans_append]
  exact congrArg _ (hline _)

/-! ### What follows a directive -/

theorem not_isInlineBlank {c : Char} (hc : isBlank c = false) : isInlineBlank c = false := by
  by_contra h
  rcases (Bool.or_eq_true _ _).mp (Bool.not_eq_false _ ▸ h) with h | h <;>
    obtain rfl := of_decide_eq_true h <;> cases hc

theorem break_not_mem_inlineGaps {a : List Char} (ha : a ∈ inlineGaps) : '\n' ∉ a := fun h =>
  absurd (ha _ h) (by decide)

theorem break_not_mem_comment {a t : List Char} (ha : a ∈ inlineGaps) (ht : '\n' ∉ t) :
    '\n' ∉ a ++ '#' :: t := by
  rw [List.mem_append, List.mem_cons, not_or, not_or]
  exact ⟨break_not_mem_inlineGaps ha, by decide, ht⟩

theorem isPrefixOf_append {indent a : List Char} (hindent : indent ∈ inlineGaps) {c : Char}
    (hc : isInlineBlank c = false) (z : List Char) :
    indent.isPrefixOf (a ++ c :: z) = indent.isPrefixOf a := by
  rw [Bool.eq_iff_iff, List.isPrefixOf_iff_prefix, List.isPrefixOf_iff_prefix]
  refine ⟨fun ⟨y, hy⟩ => ?_, fun h => h.trans (List.prefix_append _ _)⟩
  rcases List.append_eq_append_iff.mp hy with ⟨w, rfl, -⟩ | ⟨w, rfl, hw⟩
  · exact List.prefix_append _ _
  · cases w with
    | nil => rw [List.append_nil]
    | cons d w =>
        obtain ⟨rfl, -⟩ := List.cons.inj hw
        have := hindent c (by simp)
        rw [hc] at this
        cases this

/-- The next line that is not blank, where it begins with an indentation. -/
theorem bodyContinues_cons {indent a : List Char} (hindent : indent ∈ inlineGaps)
    (ha : a ∈ inlineGaps) {c : Char} (hc : isBlank c = false) (z : List Char) :
    bodyContinues indent (a ++ c :: z) = indent.isPrefixOf a := by
  have hcn : c ≠ '\n' := by rintro rfl; cases hc
  have hcr : c ≠ '\r' := by rintro rfl; cases hc
  obtain ⟨w, rest, hlines⟩ := exists_lines_eq_cons (break_not_mem_inlineGaps ha) hcn hcr z
  have hmem : c ∈ trimBlank (a ++ c :: w) := mem_trim (by simp) hc
  have hshown : (!(trimBlank (a ++ c :: w)).isEmpty) = true := by
    rw [Bool.not_eq_true', List.isEmpty_eq_false_iff]
    exact List.ne_nil_of_mem hmem
  rw [bodyContinues, findLine?_eq, hlines, List.find?_cons, hshown]
  exact isPrefixOf_append hindent (not_isInlineBlank hc) w

theorem le_depthOf {indent line : List Char} (hindent : indent ∈ inlineGaps)
    (h : indent <+: line) : indent.length ≤ depthOf line := by
  obtain ⟨z, rfl⟩ := h
  rw [depthOf, List.takeWhile_append_of_pos hindent, List.length_append]
  exact Nat.le_add_right _ _

/-- Blank lines are passed over. -/
theorem bodyContinues_gap {gap : List Char} (hgap : gap ∈ gaps) (hline : '\n' ∉ gap)
    (indent : List Char) {e rest : List Char} (he : IsBreak e rest) :
    bodyContinues indent (gap ++ (e ++ rest)) = bodyContinues indent rest := by
  rcases he with rfl | ⟨rfl, rfl⟩
  · have hskip : (!(trimBlank (withoutReturn gap)).isEmpty) = false := by
      rw [trimBlank, trim_of_forall fun c hc => hgap c ((withoutReturn_isPrefix gap).subset hc)]
      rfl
    rw [bodyContinues, bodyContinues, findLine?_eq, findLine?_eq, List.singleton_append,
      lines_append hline, List.find?_cons, hskip]
  · have hskip : (!(trimBlank gap).isEmpty) = false := by
      rw [trimBlank, trim_of_forall hgap]
      rfl
    rw [bodyContinues, bodyContinues, findLine?_eq, findLine?_eq, List.append_nil, List.append_nil,
      lines_of_not_mem hline]
    cases gap with
    | nil => rfl
    | cons c gap =>
        rw [if_neg (by simp), List.find?_cons, hskip]
        rfl

/-- Whether the text goes on with a line that is as deep is told by the lines of the body. -/
theorem bodyContinues_bodyText {indent : List Char} (hindent : indent ∈ inlineGaps) {depth : Nat}
    (hdepth : depth < indent.length) {after : List Char} : ∀ {ls : List BodyLine},
    IsBody depth ls after → bodyContinues indent (bodyText ls ++ after) = continues indent ls
  | [], h => by
      show bodyContinues indent after = false
      rw [bodyContinues]
      split
      · rename_i line hline
        have hle := h line hline
        rw [Bool.eq_false_iff, Ne, List.isPrefixOf_iff_prefix]
        intro hp
        have := le_depthOf hindent hp
        omega
      · rfl
  | ⟨a, .directive x, e⟩ :: ls, ⟨⟨ha, _, hx⟩, _, _⟩ => by
      obtain ⟨y, rfl⟩ := exists_directiveTexts_eq hx
      rw [bodyText_cons]
      exact bodyContinues_cons hindent ha (by decide) _
  | ⟨a, .comment t, e⟩ :: ls, ⟨⟨ha, _, _⟩, _, _⟩ => by
      rw [bodyText_cons]
      exact bodyContinues_cons hindent ha (by decide) _
  | ⟨a, .blank, e⟩ :: ls, h => by
      obtain ⟨ha, hline⟩ := h.1
      have hrest := bodyContinues_bodyText hindent hdepth h.2.2
      rw [bodyText_cons]
      exact (bodyContinues_gap ha hline indent h.isBreak).trans hrest

/-! ### What is left of a body -/

/-- A directive is found where its keyword begins after the indentation. -/
theorem head?_of_findDirective {lineStart : Bool} {s : List Char} {r : Directive × List Char}
    (h : findDirective lineStart s = some r) :
    (s.dropWhile isInlineBlank).head? = some 'm' := by
  obtain ⟨-, -, hindent, -, x, hx, e, -, rfl⟩ := findDirective_eq_some_iff.mp h
  obtain ⟨y, rfl⟩ := exists_directiveTexts_eq hx
  rw [List.dropWhile_append_of_pos hindent]
  rfl

theorem findDirective_comment {a : List Char} (ha : a ∈ inlineGaps) (t : List Char) :
    findDirective true (a ++ '#' :: t) = none := by
  refine Option.eq_none_iff_forall_ne_some.mpr fun r hr => ?_
  have := head?_of_findDirective hr
  rw [List.dropWhile_append_of_pos ha] at this
  cases this

theorem findDirective_gap {gap e rest : List Char} (hgap : gap ∈ gaps) (he : IsBreak e rest) :
    findDirective true (gap ++ (e ++ rest)) = none := by
  refine Option.eq_none_iff_forall_ne_some.mpr fun r hr => ?_
  have hhead := head?_of_findDirective hr
  rw [List.dropWhile_append] at hhead
  split at hhead
  · rcases he with rfl | ⟨rfl, rfl⟩ <;> cases hhead
  · have hm : 'm' ∈ gap.dropWhile isInlineBlank := by
      rename_i hne
      cases hd : gap.dropWhile isInlineBlank with
      | nil => rw [hd] at hne; exact absurd rfl hne
      | cons c t =>
          rw [hd] at hhead
          obtain rfl : c = 'm' := Option.some.inj hhead
          exact List.mem_cons_self
    exact absurd (hgap _ ((List.dropWhile_suffix isInlineBlank).subset hm)) (by decide)

theorem withoutDirectives_directive {a x e rest : List Char} (hne : a ≠ []) (ha : a ∈ inlineGaps)
    (hx : x ∈ directiveTexts) (he : IsBreak e rest) :
    withoutDirectives true (a ++ (x ++ (e ++ rest))) =
      (⟨a, bodyContinues a rest⟩ : Directive).replacement ++ withoutDirectives true rest := by
  have hfind : findDirective true (a ++ (x ++ (e ++ rest))) =
      some (⟨a, bodyContinues a rest⟩, rest) :=
    findDirective_eq_some_iff.mpr ⟨rfl, hne, ha, rfl, x, hx, e, he, rfl⟩
  have hassoc : a ++ (x ++ (e ++ rest)) = (a ++ (x ++ e)) ++ rest := by simp
  rw [hassoc] at hfind ⊢
  rw [withoutDirectives, cutFrom_append_of_some takes_findDirective (by simp [hne]) hfind,
    replaceSpans_span_cons, ← withoutDirectives]
  rcases he with rfl | ⟨rfl, rfl⟩
  · rw [← List.append_assoc a, startsAfter_concat]
  · rfl

/-- The body of a class without its directives. -/
theorem withoutDirectives_bodyText {depth : Nat} {after : List Char} : ∀ {ls : List BodyLine},
    IsBody depth ls after →
      withoutDirectives true (bodyText ls ++ after) =
        bodyAfter ls ++ withoutDirectives true after
  | [], _ => rfl
  | ⟨a, .directive x, e⟩ :: ls, h => by
      obtain ⟨ha, hdepth, hx⟩ := h.1
      have hne : a ≠ [] := by
        rintro rfl
        exact absurd hdepth (Nat.not_lt_zero depth)
      rw [bodyText_cons, BodyContent.text, withoutDirectives_directive hne ha hx h.isBreak,
        bodyContinues_bodyText ha hdepth h.2.2, withoutDirectives_bodyText h.2.2,
        ← List.append_assoc]
      rfl
  | ⟨a, .comment t, e⟩ :: ls, h => by
      obtain ⟨ha, -, ht⟩ := h.1
      have hline := break_not_mem_comment ha ht
      have hnone : findDirective true ((a ++ '#' :: t) ++ (e ++ (bodyText ls ++ after))) = none := by
        rw [List.append_assoc]
        exact findDirective_comment ha _
      have hkept := withoutDirectives_line hline h.isBreak hnone true
      rw [withoutDirectives_bodyText h.2.2] at hkept
      rw [bodyText_cons]
      simpa [bodyAfter, BodyLine.text, BodyContent.text] using hkept
  | ⟨a, .blank, e⟩ :: ls, h => by
      obtain ⟨ha, hline⟩ := h.1
      have hkept := withoutDirectives_line hline h.isBreak (findDirective_gap ha h.isBreak) true
      rw [withoutDirectives_bodyText h.2.2] at hkept
      rw [bodyText_cons]
      simpa [bodyAfter, BodyLine.text, BodyContent.text] using hkept

/-! ### Lines of what is left -/

theorem exists_lines_line {line e rest : List Char} (hline : '\n' ∉ line) (he : IsBreak e rest) :
    ∃ first, lines (line ++ (e ++ rest)) = first ++ lines rest ∧
      ∀ l ∈ first, l = line ∨ l = withoutReturn line := by
  rcases he with rfl | ⟨rfl, rfl⟩
  · refine ⟨[withoutReturn line], ?_, fun l hl => Or.inr (List.mem_singleton.mp hl)⟩
    rw [List.singleton_append, lines_append hline]
    rfl
  · refine ⟨lines line, ?_, fun l hl => Or.inl ?_⟩
    · rw [List.append_nil, List.append_nil]
      exact (List.append_nil _).symm
    · rw [lines_of_not_mem hline] at hl
      split at hl
      · cases hl
      · exact List.mem_singleton.mp hl

theorem depthOf_append {a : List Char} (ha : a ∈ inlineGaps) {c : Char}
    (hc : isBlank c = false) (t : List Char) : depthOf (a ++ c :: t) = a.length := by
  rw [depthOf, takeWhile_append_of_head ha]
  exact forall_mem_head? rfl (not_isInlineBlank hc)

theorem mem_gaps_of_inline {a : List Char} (ha : a ∈ inlineGaps) : a ∈ gaps := fun c hc => by
  by_contra h
  have := not_isInlineBlank (Bool.eq_false_iff.mpr h)
  rw [ha c hc] at this
  cases this

theorem lines_pass {a : List Char} (ha : a ∈ inlineGaps) (rest : List Char) :
    lines (a ++ "pass\n".toList ++ rest) = (a ++ "pass".toList) :: lines rest := by
  have hpass : '\n' ∉ a ++ "pass".toList := by
    rw [List.mem_append, not_or]
    exact ⟨break_not_mem_inlineGaps ha, by decide⟩
  have hreturn : withoutReturn (a ++ "pass".toList) = a ++ "pass".toList := by
    have hlast : a ++ "pass".toList = (a ++ "pas".toList) ++ ['s'] := by simp
    rw [hlast, withoutReturn_concat, if_neg (by decide)]
  have hend : "pass\n".toList = "pass".toList ++ ['\n'] := by decide
  rw [hend, ← List.append_assoc a, List.append_assoc, List.singleton_append, lines_append hpass,
    hreturn]

/-- The line of a comment is a comment, also without a carriage return at its end. -/
theorem exists_lines_comment {a t e rest : List Char} (ha : a ∈ inlineGaps) (ht : '\n' ∉ t)
    (he : IsBreak e rest) :
    ∃ first, lines (a ++ '#' :: t ++ (e ++ rest)) = first ++ lines rest ∧
      ∀ l ∈ first, ∃ w, l = a ++ '#' :: w := by
  obtain ⟨first, hlines, hfirst⟩ := exists_lines_line (break_not_mem_comment ha ht) he
  refine ⟨first, hlines, fun l hl => ?_⟩
  rcases hfirst l hl with rfl | rfl
  · exact ⟨t, rfl⟩
  · exact exists_withoutReturn_eq (by decide) a t

theorem trimBlank_comment_ne (a w : List Char) : trimBlank (a ++ '#' :: w) ≠ "pass".toList := by
  intro htrim
  have hmem : '#' ∈ trimBlank (a ++ '#' :: w) := mem_trim (by simp) (by decide)
  rw [htrim] at hmem
  exact absurd hmem (by decide)

theorem exists_lines_gap {a e rest : List Char} (ha : a ∈ gaps) (hline : '\n' ∉ a)
    (he : IsBreak e rest) :
    ∃ first, lines (a ++ (e ++ rest)) = first ++ lines rest ∧ ∀ l ∈ first, trimBlank l = [] := by
  obtain ⟨first, hlines, hfirst⟩ := exists_lines_line hline he
  refine ⟨first, hlines, fun l hl => ?_⟩
  rcases hfirst l hl with rfl | rfl
  · exact trim_of_forall ha
  · exact trim_of_forall fun c hc => ha c ((withoutReturn_isPrefix a).subset hc)

/-- What is left of the first line of a body: blank or deeper than the class, and a `pass` exactly
for a directive that is not followed by a line that is as deep. -/
theorem exists_lines_bodyAfter {depth : Nat} {after : List Char} : ∀ {l : BodyLine}
    {ls : List BodyLine}, IsBody depth (l :: ls) after →
    ∃ first, lines (bodyAfter (l :: ls)) = first ++ lines (bodyAfter ls) ∧
      (∀ line ∈ first, trimBlank line = [] ∨ depth < depthOf line) ∧
      ((∃ line ∈ first, trimBlank line = "pass".toList) ↔
        ∃ x, l.content = .directive x ∧ continues l.indent ls = false)
  | ⟨a, .directive x, e⟩, ls, h => by
      obtain ⟨ha, hdepth, -⟩ := h.1
      cases hc : continues a ls with
      | true =>
          exact ⟨[], by rw [bodyAfter, hc]; rfl, by simp, by simp⟩
      | false =>
          have htext : bodyAfter (⟨a, .directive x, e⟩ :: ls) =
              a ++ "pass\n".toList ++ bodyAfter ls := by
            simp [bodyAfter, hc]
          have htrim : trimBlank (a ++ "pass".toList) = "pass".toList :=
            trim_append_left (mem_gaps_of_inline ha) (by decide)
          have hdeep : depthOf (a ++ "pass".toList) = a.length :=
            depthOf_append ha (c := 'p') (by decide) _
          refine ⟨[a ++ "pass".toList], by rw [htext, lines_pass ha]; rfl, fun line hl => ?_, ?_⟩
          · rw [List.mem_singleton.mp hl, hdeep]
            exact Or.inr hdepth
          · exact iff_of_true ⟨_, List.mem_singleton_self _, htrim⟩ ⟨x, rfl, rfl⟩
  | ⟨a, .comment t, e⟩, ls, h => by
      obtain ⟨ha, hdepth, ht⟩ := h.1
      obtain ⟨first, hlines, hcomment⟩ := exists_lines_comment ha ht h.isBreak_bodyAfter
      refine ⟨first, ?_, fun l hl => ?_, iff_of_false ?_ (by simp)⟩
      · rw [← hlines]
        simp [bodyAfter, BodyLine.text, BodyContent.text]
      · obtain ⟨w, rfl⟩ := hcomment l hl
        exact Or.inr ((depthOf_append ha (c := '#') (by decide) w).symm ▸ hdepth)
      · rintro ⟨l, hl, htrim⟩
        obtain ⟨w, rfl⟩ := hcomment l hl
        exact trimBlank_comment_ne a w htrim
  | ⟨a, .blank, e⟩, ls, h => by
      obtain ⟨ha, hline⟩ := h.1
      obtain ⟨first, hlines, hblank⟩ := exists_lines_gap ha hline h.isBreak_bodyAfter
      refine ⟨first, ?_, fun l hl => Or.inl (hblank l hl), iff_of_false ?_ (by simp)⟩
      · rw [← hlines]
        simp [bodyAfter, BodyLine.text, BodyContent.text]
      · rintro ⟨l, hl, htrim⟩
        rw [hblank l hl] at htrim
        cases htrim

theorem endsBody_cons {l : BodyLine} {ls : List BodyLine} :
    EndsBody (l :: ls) ↔
      (∃ x, l.content = .directive x ∧ continues l.indent ls = false) ∨ EndsBody ls := by
  constructor
  · rintro ⟨before, m, post, x, heq, hx, hc⟩
    cases before with
    | nil =>
        obtain ⟨rfl, rfl⟩ := List.cons.inj heq
        exact Or.inl ⟨x, hx, hc⟩
    | cons b before =>
        obtain ⟨-, rfl⟩ := List.cons.inj heq
        exact Or.inr ⟨before, m, post, x, rfl, hx, hc⟩
  · rintro (⟨x, hx, hc⟩ | ⟨before, m, post, x, rfl, hx, hc⟩)
    · exact ⟨[], l, ls, x, rfl, hx, hc⟩
    · exact ⟨l :: before, m, post, x, rfl, hx, hc⟩

/-- What is left of a body is blank or deeper than the class, and it has a `pass` exactly when some
directive is not followed by a line that is as deep. -/
theorem lines_bodyAfter {depth : Nat} {after : List Char} : ∀ {ls : List BodyLine},
    IsBody depth ls after →
      (∀ line ∈ lines (bodyAfter ls), trimBlank line = [] ∨ depth < depthOf line) ∧
        (HasPass (bodyAfter ls) ↔ EndsBody ls)
  | [], _ => by
      refine ⟨fun line h => absurd h List.not_mem_nil, iff_of_false ?_ ?_⟩
      · rintro ⟨line, h, -⟩
        exact absurd h List.not_mem_nil
      · rintro ⟨before, l, post, x, h, -⟩
        cases before <;> cases h
  | l :: ls, h => by
      obtain ⟨first, hlines, hdeep, hpass⟩ := exists_lines_bodyAfter h
      obtain ⟨hrest, hrestPass⟩ := lines_bodyAfter h.2.2
      rw [HasPass, endsBody_cons, ← hpass, ← hrestPass, HasPass, hlines]
      refine ⟨fun line hl => (List.mem_append.mp hl).elim (hdeep line) (hrest line), ?_⟩
      simp only [List.mem_append, or_and_right, exists_or]

/-! ### Class bodies -/

/-- Removing directives from a text in which a class has a body of directives, blank lines and
comments: the body that is left follows the header in the text, it is deeper than the class or
blank, and it has a `pass` exactly when some directive is not followed, after blank lines, by a line
that is as deep. -/
theorem removeDirectives_body (h : ClassHeader) {ls : List BodyLine} {after : List Char}
    (hbody : IsBody h.indent.length ls after) (before : List Char) :
    ∃ lead, (removeDirectives
        (before ++ (h.front ++ (h.line ++ '\n' :: (bodyText ls ++ after))))).1 =
          lead ++ (h.line ++ '\n' :: (bodyAfter ls ++ (removeDirectives after).1)) ∧
      (∀ line ∈ lines (bodyAfter ls),
        trimBlank line = [] ∨ h.indent.length < depthOf line) ∧
      (HasPass (bodyAfter ls) ↔ EndsBody ls) := by
  obtain ⟨lead, hlead⟩ := exists_removeDirectives_header h before (bodyText ls ++ after)
  rw [removeDirectives_eq (bodyText ls ++ after), withoutDirectives_bodyText hbody] at hlead
  exact ⟨lead, hlead, lines_bodyAfter hbody⟩

/-- The header of a class at the start of a line. -/
def plainHeader : ClassHeader where
  indent := []
  front := []
  line := "class A(BaseModel):".toList
  indent_blank := fun c hc => absurd hc List.not_mem_nil
  keyword := ⟨' ', "A(BaseModel):".toList, by decide, by decide⟩
  front_ended := rfl
  colon := by decide
  one_line := by decide

/-- A directive on a line of its own. -/
def directiveLine : BodyLine :=
  ⟨"    ".toList, .directive "model_config = ConfigDict(extra='forbid')".toList, ['\n']⟩

/-- A comment. -/
def commentLine : BodyLine := ⟨"    ".toList, .comment " no fields yet".toList, ['\n']⟩

theorem fits_directiveLine : directiveLine.Fits 0 :=
  ⟨by decide, by decide, mem_directiveTexts (by decide +kernel)⟩

/-- A body of two directives with a blank line between them. -/
def directiveLines : List BodyLine := [directiveLine, ⟨[], .blank, ['\n']⟩, directiveLine]

theorem isBody_nil : IsBody 0 [] [] := fun _ h => absurd h (Option.not_mem_none _)

theorem isBody_directiveLines : IsBody 0 directiveLines [] := by
  have hblank : BodyLine.Fits ⟨[], .blank, ['\n']⟩ 0 := ⟨nil_mem_gaps, List.not_mem_nil⟩
  exact ⟨fits_directiveLine, Or.inl rfl, hblank, Or.inl rfl, fits_directiveLine, Or.inl rfl,
    isBody_nil⟩

theorem removeDirectives_body_directiveLines :
    IsBody plainHeader.indent.length directiveLines [] ∧
      ∃ lead, (removeDirectives ([] ++ (plainHeader.front ++
          (plainHeader.line ++ '\n' :: (bodyText directiveLines ++ []))))).1 =
            lead ++ (plainHeader.line ++ '\n' ::
              (bodyAfter directiveLines ++ (removeDirectives []).1)) ∧
        (∀ line ∈ lines (bodyAfter directiveLines),
          trimBlank line = [] ∨ plainHeader.indent.length < depthOf line) ∧
        (HasPass (bodyAfter directiveLines) ↔ EndsBody directiveLines) :=
  ⟨isBody_directiveLines, removeDirectives_body plainHeader isBody_directiveLines []⟩

/-- A body of a directive and a comment is left without a `pass`. -/
theorem removeDirectives_commentedBody :
    IsBody plainHeader.indent.length [directiveLine, commentLine] [] ∧
      (removeDirectives
        (plainHeader.line ++ '\n' :: bodyText [directiveLine, commentLine])).1 =
          plainHeader.line ++ '\n' :: commentLine.text ∧
      ¬HasPass (plainHeader.line ++ '\n' :: commentLine.text) := by
  have hcomment : commentLine.Fits 0 := ⟨by decide, by decide, by decide⟩
  refine ⟨⟨fits_directiveLine, Or.inl rfl, hcomment, Or.inl rfl, isBody_nil⟩, ?_, ?_⟩
  · decide +kernel
  · decide +kernel

end SchemaModels.Repair
