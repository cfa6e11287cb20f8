import SchemaModels.Proofs.Repair.Finders
import SchemaModels.Proofs.Text.Layout
import SchemaModels.Proofs.Text.Places

/-!
# The layouts of directives and wrappers

The texts that are directives and those that are wrappers, as products of the words and blanks that
they are made of. The patterns of the repairs recognize these texts and no others.

* `directiveTexts`, `HasDirective`: directives, and the texts in which one stands.
* `Group.wrapperTexts`, `Group.HasWrapper`: the same for the wrappers of a group.
* `absent_findDirective_iff`, `Group.absent_findWrapper_iff`: nothing is found where none stands.
-/

namespace SchemaModels.Repair

open Text Pattern

/-- The quotes around fixed words. -/
def quotes : Language Char := anyOf ['\'', '"']

/-! ### Directives -/

/-- Blanks within a line. -/
def inlineGaps : Language Char := {s | ∀ c ∈ s, isInlineBlank c = true}

instance (s : List Char) : Decidable (s ∈ inlineGaps) :=
  List.decidableBAll (isInlineBlank · = true) s

/-- The parts of a directive after its indentation. -/
def directiveLayout : List (Language Char) :=
  [{"model_config".toList}, gaps, {['=']}, gaps, {"ConfigDict(".toList}, gaps, {"extra".toList},
   gaps, {['=']}, gaps, quotes, {"forbid".toList}, quotes, commas, {[')']}]

/-- Directives after their indentation, with the blanks that follow them in their line. -/
def directiveTexts : Language Char := directiveLayout.prod * inlineGaps

/-- A line break, or nothing at the end of a text. -/
def IsBreak (e rest : List Char) : Prop := e = ['\n'] ∨ e = [] ∧ rest = []

/-- A directive stands in a text, on lines of its own. -/
def HasDirective (s : List Char) : Prop :=
  ∃ before indent x e rest, s = before ++ (indent ++ (x ++ (e ++ rest))) ∧
    startsAfter true before = true ∧ indent ≠ [] ∧ indent ∈ inlineGaps ∧ x ∈ directiveTexts ∧
    IsBreak e rest

theorem recognizes_directive : Recognizes directive directiveLayout.prod :=
  recognizes_sequence <|
    .cons (recognizes_word _) <| .cons recognizes_blanks <| .cons (recognizes_word _) <|
    .cons recognizes_blanks <| .cons (recognizes_word _) <| .cons recognizes_blanks <|
    .cons (recognizes_word _) <| .cons recognizes_blanks <| .cons (recognizes_word _) <|
    .cons recognizes_blanks <| .cons (recognizes_oneOf _) <| .cons (recognizes_word _) <|
    .cons (recognizes_oneOf _) <| .cons recognizes_optionalComma <| .cons (recognizes_word _) .nil

theorem isBlank_quotes : ∀ c ∈ ['\'', '"'], isBlank c = false :=
  List.forall_mem_cons.mpr ⟨by decide, List.forall_mem_singleton.mpr (by decide)⟩

/-- A directive is taken off in one way. -/
theorem directive_append {x : List Char} (hx : x ∈ directiveLayout.prod) (t : List Char) :
    directive (x ++ t) = [t] :=
  Steps.rest_eq
    ((steps_word "model_config".toList).append <|
      (steps_blanks_word (w := ['=']) rfl (by decide)).append <|
      (steps_blanks_word (w := "ConfigDict(".toList) rfl (by decide)).append <|
      (steps_blanks_word (w := "extra".toList) rfl (by decide)).append <|
      (steps_blanks_word (w := ['=']) rfl (by decide)).append <|
      (steps_blanks_oneOf isBlank_quotes).append <|
      (steps_word "forbid".toList).append <|
      (steps_oneOf _).append <|
      steps_optionalComma_word (w := [')']) rfl (by decide) (by decide)) hx t

theorem lineEnd?_eq_some_iff {s rest : List Char} :
    lineEnd? s = some rest ↔ ∃ gap ∈ inlineGaps, ∃ e, IsBreak e rest ∧ s = gap ++ (e ++ rest) := by
  have hsplit := List.takeWhile_append_dropWhile (p := isInlineBlank) (l := s)
  constructor
  · intro h
    refine ⟨s.takeWhile isInlineBlank, fun c hc => List.mem_takeWhile_imp hc, ?_⟩
    unfold lineEnd? at h
    split at h
    · rename_i hd
      obtain rfl := Option.some.inj h
      exact ⟨[], Or.inr ⟨rfl, rfl⟩, by rw [hd] at hsplit; exact hsplit.symm⟩
    · rename_i c t hd
      split at h
      · rename_i hc
        obtain rfl := Option.some.inj h
        exact ⟨['\n'], Or.inl rfl, by rw [hd, hc] at hsplit; exact hsplit.symm⟩
      · cases h
  · rintro ⟨gap, hgap, e, he, rfl⟩
    rw [lineEnd?, List.dropWhile_append_of_pos hgap]
    rcases he with rfl | ⟨rfl, rfl⟩
    · rfl
    · rfl

/-- A directive is found at the start of a line that it stands in, with its indentation. -/
theorem findDirective_eq_some_iff {lineStart : Bool} {s rest : List Char} {d : Directive} :
    findDirective lineStart s = some (d, rest) ↔
      lineStart = true ∧ d.indent ≠ [] ∧ d.indent ∈ inlineGaps ∧
        d.continued = bodyContinues d.indent rest ∧
        ∃ x ∈ directiveTexts, ∃ e, IsBreak e rest ∧ s = d.indent ++ (x ++ (e ++ rest)) := by
  constructor
  · intro h
    unfold findDirective at h
    dsimp only at h
    split at h
    · rename_i hstart
      obtain ⟨hls, hne⟩ := Bool.and_eq_true_iff.mp hstart
      obtain ⟨r, hr, hd⟩ := Option.map_eq_some_iff.mp h
      obtain ⟨rfl, rfl⟩ := Prod.mk.inj hd
      obtain ⟨t, ht, hend⟩ := List.exists_of_findSome?_eq_some hr
      obtain ⟨x, hx, hxt⟩ := (recognizes_directive _ _).mp ht
      obtain ⟨gap, hgap, e, he, rfl⟩ := lineEnd?_eq_some_iff.mp hend
      refine ⟨hls, fun hnil => ?_, fun c hc => List.mem_takeWhile_imp hc, rfl, x ++ gap,
        Language.append_mem_mul hx hgap, e, he, ?_⟩
      · rw [show s.takeWhile isInlineBlank = [] from hnil] at hne
        cases hne
      · rw [List.append_assoc, hxt]
        exact List.takeWhile_append_dropWhile.symm
    · cases h
  · rintro ⟨rfl, hne, hindent, hcontinued, x, hx, e, he, rfl⟩
    obtain ⟨y, hy, gap, hgap, rfl⟩ := Language.mem_mul.mp hx
    have hhead : ∀ c ∈ (y ++ gap ++ (e ++ rest)).head?, isInlineBlank c = false := by
      rw [directiveLayout, List.prod_cons, Language.mem_mul] at hy
      obtain ⟨w, hw, z, -, rfl⟩ := hy
      obtain rfl := mem_singleton_language.mp hw
      exact forall_mem_head? rfl (by decide)
    have htake := takeWhile_append_of_head hindent hhead
    have hdrop := dropWhile_append_of_head hindent hhead
    unfold findDirective
    dsimp only
    rw [htake, hdrop, if_pos (by simp [hne]), List.append_assoc, directive_append hy]
    have hend : lineEnd? (gap ++ (e ++ rest)) = some rest :=
      lineEnd?_eq_some_iff.mpr ⟨gap, hgap, e, he, rfl⟩
    rw [List.findSome?_cons, hend]
    show some ((⟨d.indent, bodyContinues d.indent rest⟩ : Directive), rest) = _
    rw [← hcontinued]

/-- No directive is found exactly in texts in which none stands. -/
theorem absent_findDirective_iff {s : List Char} :
    Absent findDirective true s ↔ ¬HasDirective s := by
  rw [absent_iff]
  constructor
  · rintro h ⟨before, indent, x, e, rest, rfl, hstart, hne, hindent, hx, he⟩
    have hv : indent ++ (x ++ (e ++ rest)) ≠ [] := by simp [hne]
    have hfound : findDirective true (indent ++ (x ++ (e ++ rest))) =
        some (⟨indent, bodyContinues indent rest⟩, rest) :=
      findDirective_eq_some_iff.mpr ⟨rfl, hne, hindent, rfl, x, hx, e, he, rfl⟩
    have := h before _ rfl hv
    rw [hstart, hfound] at this
    cases this
  · intro h u v hs hv
    refine Option.eq_none_iff_forall_ne_some.mpr fun r hr => h ?_
    obtain ⟨hstart, hne, hindent, -, x, hx, e, he, rfl⟩ := findDirective_eq_some_iff.mp hr
    exact ⟨u, r.1.indent, x, e, r.2, hs, hstart, hne, hindent, hx, he⟩

/-! ### Wrappers -/

/-- Names with commas between them. -/
def listLayout : List String → List (Language Char)
  | [] => []
  | [m] => [{m.toList}]
  | m :: rest => {m.toList} :: gaps :: {[',']} :: gaps :: listLayout rest

/-- A union of some members. -/
def unionLayout (members : List String) : List (Language Char) :=
  {"Union[".toList} :: gaps :: listLayout members ++ [commas, {[']']}]

/-- A description argument with its comma. -/
def descriptionLayout : List (Language Char) :=
  [gaps, {"description".toList}, gaps, {['=']}, gaps, quotations, gaps, {[',']}]

namespace Group
variable (g : Group)

/-- The parts of a wrapper that has the name and the tag of a group, and some members in its two
unions. -/
def wrapperLayout (first second : List String) : List (Language Char) :=
  [{"class".toList}, someGaps, {g.name.toList}, {['(']}, gaps, {"RootModel[".toList}, gaps,
   (unionLayout first).prod, gaps, {[']']}, gaps, {[')']}, gaps, {[':']}, gaps, {"root".toList},
   gaps, {[':']}, gaps, (unionLayout second).prod, gaps, {['=']}, gaps, {"Field(".toList}, gaps,
   {"...".toList}, gaps, {[',']}, descriptionLayout.prod + 1, gaps, {"discriminator".toList}, gaps,
   {['=']}, gaps, quotes, {g.discriminator.toList}, quotes, commas, {[')']}]

/-- The texts of such wrappers. -/
def wrapperTexts (first second : List String) : Language Char := (g.wrapperLayout first second).prod

/-- A wrapper of a group stands in a text. -/
def HasWrapper (s : List Char) : Prop :=
  ∃ before x after, s = before ++ (x ++ after) ∧ x ∈ g.wrapperTexts g.members g.members

theorem recognizes_memberList : ∀ members : List String,
    List.Forall₂ Recognizes (memberList members) (listLayout members)
  | [] => .nil
  | [_] => .cons (recognizes_word _) .nil
  | _ :: n :: rest =>
      .cons (recognizes_word _) <| .cons recognizes_blanks <| .cons (recognizes_word _) <|
      .cons recognizes_blanks <| recognizes_memberList (n :: rest)

theorem recognizes_unionOf : Recognizes g.unionOf (unionLayout g.members).prod :=
  recognizes_sequence <|
    .cons (recognizes_word _) <| .cons recognizes_blanks <|
    List.rel_append (recognizes_memberList g.members) <|
    .cons recognizes_optionalComma <| .cons (recognizes_word _) .nil

theorem recognizes_descriptionArgument : Recognizes descriptionArgument descriptionLayout.prod :=
  recognizes_sequence <|
    .cons recognizes_blanks <| .cons (recognizes_word _) <| .cons recognizes_blanks <|
    .cons (recognizes_word _) <| .cons recognizes_blanks <| .cons recognizes_quotedText <|
    .cons recognizes_blanks <| .cons (recognizes_word _) .nil

theorem recognizes_wrapper : Recognizes g.wrapper (g.wrapperTexts g.members g.members) :=
  recognizes_sequence <|
    .cons (recognizes_word _) <| .cons recognizes_someBlanks <| .cons (recognizes_word _) <|
    .cons (recognizes_word _) <| .cons recognizes_blanks <| .cons (recognizes_word _) <|
    .cons recognizes_blanks <| .cons g.recognizes_unionOf <| .cons recognizes_blanks <|
    .cons (recognizes_word _) <| .cons recognizes_blanks <| .cons (recognizes_word _) <|
    .cons recognizes_blanks <| .cons (recognizes_word _) <| .cons recognizes_blanks <|
    .cons (recognizes_word _) <| .cons recognizes_blanks <| .cons (recognizes_word _) <|
    .cons recognizes_blanks <| .cons g.recognizes_unionOf <| .cons recognizes_blanks <|
    .cons (recognizes_word _) <| .cons recognizes_blanks <| .cons (recognizes_word _) <|
    .cons recognizes_blanks <| .cons (recognizes_word _) <| .cons recognizes_blanks <|
    .cons (recognizes_word _) <| .cons recognizes_descriptionArgument.optional <|
    .cons recognizes_blanks <| .cons (recognizes_word _) <| .cons recognizes_blanks <|
    .cons (recognizes_word _) <| .cons recognizes_blanks <| .cons (recognizes_oneOf _) <|
    .cons (recognizes_word _) <| .cons (recognizes_oneOf _) <| .cons recognizes_optionalComma <|
    .cons (recognizes_word _) .nil

theorem findWrapper_eq_none_iff {lineStart : Bool} {s : List Char} :
    g.findWrapper lineStart s = none ↔ g.wrapper s = [] := by
  rw [findWrapper, Option.map_eq_none_iff, rest?, List.head?_eq_none_iff]

/-- No wrapper is found exactly in texts in which none stands. -/
theorem absent_findWrapper_iff {s : List Char} :
    Absent g.findWrapper true s ↔ ¬g.HasWrapper s := by
  rw [absent_iff]
  constructor
  · rintro h ⟨before, x, after, rfl, hx⟩
    have hmem := (g.recognizes_wrapper _ after).mpr ⟨x, hx, rfl⟩
    have hv : x ++ after ≠ [] := by
      rw [wrapperTexts, wrapperLayout, List.prod_cons, Language.mem_mul] at hx
      obtain ⟨w, hw, y, -, rfl⟩ := hx
      rw [mem_singleton_language.mp hw]
      exact List.cons_ne_nil _ _
    rw [g.findWrapper_eq_none_iff.mp (h before _ rfl hv)] at hmem
    cases hmem
  · intro h u v hs _
    refine g.findWrapper_eq_none_iff.mpr (List.eq_nil_iff_forall_not_mem.mpr fun rest hr => h ?_)
    obtain ⟨x, hx, rfl⟩ := (g.recognizes_wrapper v rest).mp hr
    exact ⟨u, x, rest, hs, hx⟩

end Group

end SchemaModels.Repair
