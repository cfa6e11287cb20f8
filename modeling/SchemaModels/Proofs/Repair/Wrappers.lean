import SchemaModels.Proofs.Repair.Members
import SchemaModels.Proofs.Repair.Settled

/-!
# Wrappers in any layout

A wrapper with the name and the tag of a group is recognized in each of its layouts if its two
unions list the group's members in the group's order, and in none otherwise.

* `Group.wrapper_append`: the pattern of a group where a wrapper stands.
* `Group.unwrap_layout`: a text with one wrapper, unwrapped.
-/

namespace SchemaModels.Repair

open Text Pattern

/-! ### The description -/

theorem steps_descriptionArgument : Steps
    [blanks, word "description".toList, blanks, word ['='], blanks, quotedText, blanks, word [',']]
    descriptionLayout :=
  (steps_blanks_word (w := "description".toList) rfl (by decide)).append <|
    (steps_blanks_word (w := ['=']) rfl (by decide)).append <|
    steps_blanks_quotedText.append <|
    steps_blanks_word (w := [',']) rfl (by decide)

/-- After blanks another word stands than the one that is looked for. -/
theorem sequence_blanks_word_of_not {w v gap t : List Char} {c : Char} {ps : List Pattern}
    (hw : w.head? = some c) (hc : isBlank c = false) (hgap : gap ∈ gaps)
    (hv : ∀ d ∈ (v ++ t).head?, isBlank d = false) (h : ¬w <+: v ++ t) :
    sequence (blanks :: word w :: ps) (gap ++ (v ++ t)) = [] :=
  (sequence_blanks_append (solid_word hw hc ps) hgap hv).trans (sequence_word_of_not h)

/-- The tag stands after a description or without one. -/
theorem steps_description :
    Steps [optional Group.descriptionArgument, blanks, word "discriminator".toList]
      [descriptionLayout.prod + 1, gaps, {"discriminator".toList}] := by
  have htag : Steps [blanks, word "discriminator".toList] [gaps, {"discriminator".toList}] :=
    steps_blanks_word rfl (by decide)
  intro qs x hx t
  rw [List.prod_cons, Language.mem_mul] at hx
  obtain ⟨y, hy, z, hz, rfl⟩ := hx
  show sequence (optional Group.descriptionArgument :: blanks :: word "discriminator".toList :: qs)
    _ = _
  rw [sequence_optional_cons, Group.descriptionArgument, sequence_sequence_cons, List.append_assoc]
  rcases (Language.mem_add _ _ _).mp hy with hy | hy
  · have hno : sequence (blanks :: word "discriminator".toList :: qs) (y ++ (z ++ t)) = [] := by
      rw [descriptionLayout, List.prod_cons, List.prod_cons, Language.mem_mul] at hy
      obtain ⟨gap, hgap, u, hu, rfl⟩ := hy
      obtain ⟨w, hw, v, -, rfl⟩ := Language.mem_mul.mp hu
      obtain rfl := mem_singleton_language.mp hw
      rw [List.append_assoc, List.append_assoc]
      refine sequence_blanks_word_of_not rfl (by decide) hgap (forall_mem_head? rfl (by decide)) ?_
      simp [List.cons_prefix_cons]
    rw [steps_descriptionArgument _ y hy, hno, List.append_nil]
    exact htag qs z hz t
  · obtain rfl := (Language.mem_one y).mp hy
    have hno : sequence ([blanks, word "description".toList, blanks, word ['='], blanks, quotedText,
        blanks, word [',']] ++ blanks :: word "discriminator".toList :: qs) (z ++ t) = [] := by
      rw [List.prod_cons, List.prod_singleton, Language.mem_mul] at hz
      obtain ⟨gap, hgap, w, hw, rfl⟩ := hz
      obtain rfl := mem_singleton_language.mp hw
      rw [List.append_assoc]
      refine sequence_blanks_word_of_not rfl (by decide) hgap (forall_mem_head? rfl (by decide)) ?_
      simp [List.cons_prefix_cons]
    rw [List.nil_append, hno, List.nil_append]
    exact htag qs z hz t

/-! ### The parts of a wrapper -/

namespace Group
variable (g : Group)

theorem steps_head (hname : IsName g.name) :
    Steps [word "class".toList, someBlanks, word g.name.toList, word ['('], blanks,
        word "RootModel[".toList]
      [{"class".toList}, someGaps, {g.name.toList}, {['(']}, gaps, {"RootModel[".toList}] := by
  obtain ⟨c, hc, hchar⟩ := head?_of_isName hname
  exact (steps_word "class".toList).append <|
    (steps_someBlanks_word hc (isBlank_of_isNameChar hchar)).append <|
    (steps_word ['(']).append <|
    steps_blanks_word (w := "RootModel[".toList) rfl (by decide)

theorem steps_middle :
    Steps [blanks, word [']'], blanks, word [')'], blanks, word [':'], blanks, word "root".toList,
        blanks, word [':']]
      [gaps, {[']']}, gaps, {[')']}, gaps, {[':']}, gaps, {"root".toList}, gaps, {[':']}] :=
  (steps_blanks_word (w := [']']) rfl (by decide)).append <|
    (steps_blanks_word (w := [')']) rfl (by decide)).append <|
    (steps_blanks_word (w := [':']) rfl (by decide)).append <|
    (steps_blanks_word (w := "root".toList) rfl (by decide)).append <|
    steps_blanks_word (w := [':']) rfl (by decide)

theorem steps_tail :
    Steps [blanks, word ['='], blanks, word "Field(".toList, blanks, word "...".toList, blanks,
        word [','], optional descriptionArgument, blanks, word "discriminator".toList, blanks,
        word ['='], blanks, oneOf ['\'', '"'], word g.discriminator.toList, oneOf ['\'', '"'],
        optionalComma, word [')']]
      [gaps, {['=']}, gaps, {"Field(".toList}, gaps, {"...".toList}, gaps, {[',']},
        descriptionLayout.prod + 1, gaps, {"discriminator".toList}, gaps, {['=']}, gaps, quotes,
        {g.discriminator.toList}, quotes, commas, {[')']}] :=
  (steps_blanks_word (w := ['=']) rfl (by decide)).append <|
    (steps_blanks_word (w := "Field(".toList) rfl (by decide)).append <|
    (steps_blanks_word (w := "...".toList) rfl (by decide)).append <|
    (steps_blanks_word (w := [',']) rfl (by decide)).append <|
    steps_description.append <|
    (steps_blanks_word (w := ['=']) rfl (by decide)).append <|
    (steps_blanks_oneOf isBlank_quotes).append <|
    (steps_word g.discriminator.toList).append <|
    (steps_oneOf _).append <|
    steps_optionalComma_word (w := [')']) rfl (by decide) (by decide)

/-- A wrapper with the name and the tag of a group is recognized if both of its unions list the
group's members in the group's order, and then up to its closing bracket; otherwise it is not. -/
theorem wrapper_append {first second : List String} {x : List Char} (hname : IsName g.name)
    (hmembers : IsNames g.members) (hfirst : IsNames first) (hsecond : IsNames second)
    (hx : x ∈ g.wrapperTexts first second) (t : List Char) :
    g.wrapper (x ++ t) = if first = g.members ∧ second = g.members then [t] else [] := by
  have hlayout : g.wrapperLayout first second =
      [{"class".toList}, someGaps, {g.name.toList}, {['(']}, gaps, {"RootModel[".toList}] ++
        ([gaps, (unionLayout first).prod] ++
          ([gaps, {[']']}, gaps, {[')']}, gaps, {[':']}, gaps, {"root".toList}, gaps, {[':']}] ++
            ([gaps, (unionLayout second).prod] ++
              [gaps, {['=']}, gaps, {"Field(".toList}, gaps, {"...".toList}, gaps, {[',']},
                descriptionLayout.prod + 1, gaps, {"discriminator".toList}, gaps, {['=']}, gaps,
                quotes, {g.discriminator.toList}, quotes, commas, {[')']}]))) := rfl
  rw [wrapperTexts, hlayout, List.prod_append, List.prod_append, List.prod_append,
    List.prod_append, Language.mem_mul] at hx
  obtain ⟨a, ha, _, hy, rfl⟩ := hx
  obtain ⟨u, hu, _, hz, rfl⟩ := Language.mem_mul.mp hy
  obtain ⟨b, hb, _, hw, rfl⟩ := Language.mem_mul.mp hz
  obtain ⟨v, hv, c, hc, rfl⟩ := Language.mem_mul.mp hw
  simp only [List.append_assoc]
  rw [wrapper]
  refine (g.steps_head hname _ a ha _).trans ?_
  refine (g.sequence_unionOf hmembers hfirst hu _).trans ?_
  by_cases hfirsts : first = g.members
  · rw [if_pos hfirsts]
    refine (steps_middle _ b hb _).trans ?_
    refine (g.sequence_unionOf hmembers hsecond hv _).trans ?_
    by_cases hseconds : second = g.members
    · rw [if_pos hseconds, if_pos ⟨hfirsts, hseconds⟩]
      exact g.steps_tail.rest_eq hc t
    · rw [if_neg hseconds, if_neg fun h => hseconds h.2]
  · rw [if_neg hfirsts, if_neg fun h => hfirsts h.1]

/-! ### One wrapper in a text -/

theorem exists_of_mem_wrapperTexts {first second : List String} {x : List Char}
    (hx : x ∈ g.wrapperTexts first second) : ∃ y, x = "class".toList ++ y := by
  rw [wrapperTexts, wrapperLayout, List.prod_cons, Language.mem_mul] at hx
  obtain ⟨w, hw, y, -, rfl⟩ := hx
  exact ⟨y, by rw [mem_singleton_language.mp hw]⟩

theorem takes_findWrapper : Takes g.findWrapper := by
  intro lineStart s u rest h
  obtain ⟨r, hr, he⟩ := Option.map_eq_some_iff.mp h
  obtain ⟨-, rfl⟩ := Prod.mk.inj he
  obtain ⟨x, hx, rfl⟩ := (g.recognizes_wrapper s r).mp (List.mem_of_mem_head? hr)
  obtain ⟨y, rfl⟩ := g.exists_of_mem_wrapperTexts hx
  exact ⟨_, List.cons_ne_nil _ _, rfl⟩

/-- No wrapper is found where its keyword does not stand. -/
theorem findWrapper_of_not_class {lineStart : Bool} {s : List Char}
    (h : ∀ b, s ≠ "class".toList ++ b) : g.findWrapper lineStart s = none := by
  refine g.findWrapper_eq_none_iff.mpr (List.eq_nil_iff_forall_not_mem.mpr fun rest hr => ?_)
  obtain ⟨x, hx, rfl⟩ := (g.recognizes_wrapper s rest).mp hr
  obtain ⟨y, rfl⟩ := g.exists_of_mem_wrapperTexts hx
  exact h (y ++ rest) (List.append_assoc _ _ _)

/-- In a text where the keyword stands once, at a wrapper with the name and the tag of a group, that
wrapper becomes an alias of the union of the same members in the same order and the rest stays as it
is; if one of the wrapper's unions lists other names than the group, or lists them in another order,
then the text stays as it is. -/
theorem unwrap_layout {first second : List String} {before x after : List Char}
    (hname : IsName g.name) (hmembers : IsNames g.members) (hfirst : IsNames first)
    (hsecond : IsNames second) (hx : x ∈ g.wrapperTexts first second)
    (honly : ∀ a b, before ++ (x ++ after) = a ++ ("class".toList ++ b) → a = before) :
    (first = g.members → second = g.members →
      g.unwrap (before ++ (x ++ after)) = (before ++ (g.aliasText ++ after), true) ∧
      ∃ u ∈ (unionLayout g.members).prod, g.aliasText = g.name.toList ++ " = ".toList ++ u) ∧
    ((first ≠ g.members ∨ second ≠ g.members) →
      g.unwrap (before ++ (x ++ after)) = (before ++ (x ++ after), false)) := by
  have hwrapper := g.wrapper_append hname hmembers hfirst hsecond hx after
  have hnone : ∀ u v lineStart, before ++ (x ++ after) = u ++ v → u ≠ before →
      g.findWrapper lineStart v = none := by
    intro u v lineStart huv hu
    refine g.findWrapper_of_not_class fun b hb => hu (honly u b ?_)
    rw [huv, hb]
  constructor
  · intro hfirsts hseconds
    refine ⟨?_, g.exists_aliasText_eq hmembers.1⟩
    obtain ⟨y, hy⟩ := g.exists_of_mem_wrapperTexts hx
    have hxne : x ≠ [] := hy ▸ List.cons_ne_nil _ _
    have hfound : g.findWrapper (startsAfter true before) (x ++ after) = some ((), after) := by
      rw [findWrapper, rest?, hwrapper, if_pos ⟨hfirsts, hseconds⟩]
      rfl
    have hcut : g.cutWrappers (before ++ (x ++ after)) =
        before.map .char ++ .span x () :: after.map .char :=
      cut_of_only g.takes_findWrapper hxne hfound hnone
    refine Prod.ext ?_ ?_
    · show replaceSpans (fun _ _ => g.aliasText) (g.cutWrappers _) = _
      rw [hcut, replaceSpans_append, replaceSpans_span_cons, replaceSpans_map_char,
        replaceSpans_map_char]
    · show (g.cutWrappers _).any (fun p => p.found?.isSome) = true
      rw [hcut]
      simp [Piece.found?]
  · intro hother
    refine g.unwrap_of_absent (absent_iff.mpr fun u v huv _ => ?_)
    by_cases hu : u = before
    · subst hu
      obtain rfl := List.append_cancel_left huv
      rw [findWrapper_eq_none_iff, hwrapper, if_neg]
      rintro ⟨hf, hs⟩
      exact hother.elim (· hf) (· hs)
    · exact hnone u v _ huv hu

/-- A text that the pattern of a group reads to its end is a wrapper of the group. -/
theorem mem_wrapperTexts_of_nil_mem {x : List Char} (h : [] ∈ g.wrapper x) :
    x ∈ g.wrapperTexts g.members g.members := by
  obtain ⟨y, hy, hyx⟩ := (g.recognizes_wrapper x []).mp h
  rw [List.append_nil] at hyx
  exact hyx ▸ hy

end Group

theorem only_of_drop {w s before : List Char}
    (h : ∀ k ≤ s.length, w <+: s.drop k → s.take k = before) :
    ∀ a b, s = a ++ (w ++ b) → a = before := by
  rintro a b rfl
  have := h a.length (by simp) (by simp)
  rwa [List.take_left] at this

/-- A group of two members. -/
def actions : Group := { name := "EventAction", members := ["NavigateAction", "CustomAction"] }

/-- Its wrapper over several lines, with a description and with commas at the ends. -/
def actionsWrapper : List Char :=
  ["class EventAction(\n", " RootModel[\n", "  Union[NavigateAction,", " CustomAction,]\n ]\n",
    "):\n root: Union[ ", "NavigateAction\n,", " CustomAction ] =", " Field(\n  ...,\n",
    "  description=", "'What \"happens\"',\n", "  discriminator=", "\"type\",\n )"].flatMap
    String.toList

/-- A text in which that wrapper stands between two lines. -/
def actionsText (wrapper : List Char) : List Char :=
  "x = 1\n".toList ++ (wrapper ++ "\ny = 2\n".toList)

theorem unwrap_layout_actions :
    IsName actions.name ∧ IsNames actions.members ∧
      actionsWrapper ∈ actions.wrapperTexts actions.members actions.members ∧
      (∀ a b, actionsText actionsWrapper = a ++ ("class".toList ++ b) → a = "x = 1\n".toList) ∧
      actions.unwrap (actionsText actionsWrapper) = (actionsText actions.aliasText, true) :=
  have hx := actions.mem_wrapperTexts_of_nil_mem
    (by decide +kernel : [] ∈ actions.wrapper actionsWrapper)
  have honly : ∀ a b, actionsText actionsWrapper = a ++ ("class".toList ++ b) →
      a = "x = 1\n".toList := only_of_drop (by decide +kernel)
  ⟨by decide, by decide, hx, honly,
    ((actions.unwrap_layout (by decide) (by decide) (by decide) (by decide) hx honly).1 rfl rfl).1⟩

end SchemaModels.Repair
