import Mathlib.Data.List.Chain
import SchemaModels.Proofs.Json.Numeral
import SchemaModels.Proofs.Model.StringLiteral
import SchemaModels.Proofs.Text.Lines
import SchemaModels.Proofs.Text.Replace

/-!
# Texts without carriage returns at their breaks

A text can be followed by a line feed without a carriage return before it, and has none before its
own line feeds. Such texts stay so when they are put together, so what is put together from them has
no carriage return at a break either.

* `Clean`: a text whose line feeds, and one after it, follow no carriage return.
* `Clean.append`, `clean_intercalate`: texts put together.
* `clean_of_mem_lines`: the lines of such a text.
* `SameBreaks`: a text in which what is not a break is written in another way.
* `clean_quoted`, `clean_numberText`: quoted strings and numbers are clean.
-/

namespace SchemaModels.Text

/-- A carriage return has no line feed after it. -/
def Apart (c d : Char) : Prop := c = '\r' → d ≠ '\n'

instance : DecidableRel Apart := fun c d => inferInstanceAs (Decidable (c = '\r' → d ≠ '\n'))

/-- No line feed of a text, nor one after it, follows a carriage return. -/
def Clean (s : List Char) : Prop := (s ++ ['\n']).IsChain Apart

instance (s : List Char) : Decidable (Clean s) :=
  inferInstanceAs (Decidable ((s ++ ['\n']).IsChain Apart))

theorem clean_iff {s : List Char} : Clean s ↔ s.IsChain Apart ∧ s.getLast? ≠ some '\r' := by
  rw [Clean, List.isChain_append]
  refine and_congr_right fun _ => ?_
  simp only [List.isChain_singleton, true_and, List.head?_cons, Option.mem_def,
    Option.some.injEq, forall_eq', Apart, ne_eq, not_true_eq_false, imp_false]
  exact ⟨fun h hr => h _ hr rfl, fun h c hc heq => h (heq ▸ hc)⟩

theorem clean_nil : Clean [] := by decide

/-! ### Texts put together -/

theorem Clean.append {a b : List Char} (ha : Clean a) (hb : Clean b) : Clean (a ++ b) := by
  obtain ⟨-, hlast⟩ := clean_iff.mp ha
  rw [Clean, List.append_assoc]
  refine List.isChain_append.mpr ⟨(clean_iff.mp ha).1, hb, fun c hc d _ heq => ?_⟩
  exact absurd (heq ▸ hc) hlast

theorem Clean.of_append_right {a b : List Char} (h : Clean (a ++ b)) : Clean b := by
  rw [Clean, List.append_assoc] at h
  exact (List.isChain_append.mp h).2.1

/-- What stands before a line feed is clean. -/
theorem Clean.of_append_feed {a b : List Char} (h : (a ++ '\n' :: b).IsChain Apart) : Clean a := by
  rw [List.append_cons] at h
  exact (List.isChain_append.mp h).1

theorem clean_of_not_mem {s : List Char} (h : '\r' ∉ s) : Clean s := by
  refine clean_iff.mpr ⟨?_, fun hlast => h (List.mem_of_getLast? hlast)⟩
  induction s with
  | nil => exact .nil
  | cons c s ih =>
      obtain ⟨hc, hs⟩ := List.ne_and_not_mem_of_not_mem_cons h
      exact List.isChain_cons.mpr ⟨fun d _ heq => absurd heq (Ne.symm hc), ih hs⟩

/-- Without a line feed only the end of a text matters. -/
theorem clean_of_feed_not_mem {s : List Char} (h : '\n' ∉ s) (hlast : s.getLast? ≠ some '\r') :
    Clean s := by
  refine clean_iff.mpr ⟨?_, hlast⟩
  clear hlast
  induction s with
  | nil => exact .nil
  | cons c s ih =>
      obtain ⟨-, hs⟩ := List.ne_and_not_mem_of_not_mem_cons h
      refine List.isChain_cons.mpr ⟨fun d hd _ hfeed => hs ?_, ih hs⟩
      exact hfeed ▸ List.mem_of_mem_head? hd

section string
variable {a b s : String}

theorem Clean.append_string (ha : Clean a.toList) (hb : Clean b.toList) :
    Clean (a ++ b).toList := by
  rw [String.toList_append]
  exact ha.append hb

/-- A text between two others. -/
theorem Clean.enclose (hs : Clean s.toList) (ha : Clean a.toList) (hb : Clean b.toList) :
    Clean (a ++ s ++ b).toList :=
  (ha.append_string hs).append_string hb

end string

/-- All of some texts are clean. -/
def AllClean (xs : List String) : Prop := ∀ x ∈ xs, Clean x.toList

theorem AllClean.nil : AllClean [] := List.forall_mem_nil _

theorem AllClean.cons {x : String} {xs : List String} (hx : Clean x.toList) (hxs : AllClean xs) :
    AllClean (x :: xs) :=
  List.forall_mem_cons.mpr ⟨hx, hxs⟩

theorem AllClean.append {xs ys : List String} (hxs : AllClean xs) (hys : AllClean ys) :
    AllClean (xs ++ ys) :=
  List.forall_mem_append.mpr ⟨hxs, hys⟩

theorem clean_intercalate {separator : String} (hseparator : Clean separator.toList) :
    ∀ {xs : List String}, AllClean xs → Clean (String.intercalate separator xs).toList
  | [], _ => clean_nil
  | [x], h => by
      rw [String.intercalate_singleton]
      exact h x List.mem_cons_self
  | x :: y :: xs, h => by
      obtain ⟨hx, hxs⟩ := List.forall_mem_cons.mp h
      rw [String.intercalate_cons_cons]
      exact (hx.append_string hseparator).append_string (clean_intercalate hseparator hxs)

/-! ### Lines -/

/-- The carriage return that a line ends with is none of a clean text. -/
theorem clean_of_mem_linesFrom {l : List Char} : ∀ s line : List Char,
    Clean (line.reverse ++ s) → l ∈ linesFrom line s → Clean l
  | [], line, h, hl => by
      rw [List.append_nil] at h
      rw [linesFrom] at hl
      split at hl
      · cases hl
      · rwa [List.mem_singleton.mp hl]
  | c :: s, line, h, hl => by
      rw [linesFrom] at hl
      split at hl
      · rename_i hc
        rw [hc] at h
        have hline : Clean line.reverse := by
          rw [Clean, List.append_assoc] at h
          exact Clean.of_append_feed h
        rcases List.mem_cons.mp hl with rfl | hl
        · have hlast := (clean_iff.mp hline).2
          rw [List.getLast?_reverse] at hlast
          unfold dropReturn
          split
          · exact absurd rfl hlast
          · exact hline
        · rw [List.append_cons] at h
          exact clean_of_mem_linesFrom s [] h.of_append_right hl
      · refine clean_of_mem_linesFrom s (c :: line) ?_ hl
        rwa [List.reverse_cons, List.append_assoc]

theorem clean_of_mem_lines {s l : List Char} (h : Clean s) (hl : l ∈ lines s) : Clean l :=
  clean_of_mem_linesFrom s [] h hl

/-! ### Other spellings -/

/-- A text in which neither a carriage return nor a line feed stands. -/
def IsBreakless (s : List Char) : Prop := '\r' ∉ s ∧ '\n' ∉ s

instance (s : List Char) : Decidable (IsBreakless s) :=
  inferInstanceAs (Decidable ('\r' ∉ s ∧ '\n' ∉ s))

/-- Two texts that differ only in pieces that hold no break. -/
inductive SameBreaks : List Char → List Char → Prop where
  | nil : SameBreaks [] []
  | keep (c : Char) {s t : List Char} : SameBreaks s t → SameBreaks (c :: s) (c :: t)
  | put {x y s t : List Char} : x ≠ [] → y ≠ [] → IsBreakless x → IsBreakless y →
      SameBreaks s t → SameBreaks (x ++ s) (y ++ t)

namespace SameBreaks

theorem refl : ∀ s : List Char, SameBreaks s s
  | [] => nil
  | c :: s => keep c (refl s)

theorem symm {s t : List Char} (h : SameBreaks s t) : SameBreaks t s := by
  induction h with
  | nil => exact nil
  | keep c _ ih => exact ih.keep c
  | put hx hy hbx hby _ ih => exact put hy hx hby hbx ih

theorem of_isBreakless {x y : List Char} (hx : x ≠ [] ∧ IsBreakless x)
    (hy : y ≠ [] ∧ IsBreakless y) : SameBreaks x y := by
  have h := put hx.1 hy.1 hx.2 hy.2 nil
  rwa [List.append_nil, List.append_nil] at h

theorem append {s t u v : List Char} (h : SameBreaks s t) (huv : SameBreaks u v) :
    SameBreaks (s ++ u) (t ++ v) := by
  induction h with
  | nil => exact huv
  | keep c _ ih => exact ih.keep c
  | put hx hy hbx hby _ ih =>
      rw [List.append_assoc, List.append_assoc]
      exact put hx hy hbx hby ih

/-- A line feed begins one text only if it begins the other. -/
theorem head?_of_head? {s t : List Char} (h : SameBreaks s t) (ht : t.head? = some '\n') :
    s.head? = some '\n' := by
  cases h with
  | nil => exact ht
  | keep c _ => exact ht
  | @put x y s t hx hy hbx hby _ =>
      obtain ⟨c, y, rfl⟩ := List.exists_cons_of_ne_nil hy
      obtain rfl : c = '\n' := Option.some.inj ht
      exact absurd List.mem_cons_self hby.2

theorem isChain {s t : List Char} (h : SameBreaks s t) (hs : s.IsChain Apart) :
    t.IsChain Apart := by
  induction h with
  | nil => exact hs
  | @keep c s t hst ih =>
      obtain ⟨hc, hs⟩ := List.isChain_cons.mp hs
      refine List.isChain_cons.mpr ⟨fun d hd hreturn hfeed => ?_, ih hs⟩
      rw [hfeed] at hd
      exact hc '\n' (hst.head?_of_head? hd) hreturn rfl
  | @put x y s t hx hy hbx hby hst ih =>
      have hy := clean_of_not_mem hby.1
      refine List.isChain_append.mpr ⟨(clean_iff.mp hy).1, ih (List.isChain_append.mp hs).2.1, ?_⟩
      rintro c hc d _ rfl
      exact absurd hc (clean_iff.mp hy).2

/-- Pieces without breaks have no part in whether a text is clean. -/
theorem clean_iff {s t : List Char} (h : SameBreaks s t) : Clean s ↔ Clean t :=
  ⟨(h.append (refl ['\n'])).isChain, (h.append (refl ['\n'])).symm.isChain⟩

/-- A text with a text for each character, which is the character or holds no break. -/
theorem flatMap {f : Char → List Char}
    (hf : ∀ c, f c = [c] ∨ IsBreakless [c] ∧ f c ≠ [] ∧ IsBreakless (f c)) :
    ∀ s : List Char, SameBreaks s (s.flatMap f)
  | [] => nil
  | c :: s => by
      rw [List.flatMap_cons]
      rcases hf c with h | ⟨hc, hne, h⟩
      · rw [h]
        exact (flatMap hf s).keep c
      · exact put (List.cons_ne_nil c []) hne hc h (flatMap hf s)

section replace
variable {pattern replacement : List Char} (hpattern : pattern ≠ [] ∧ IsBreakless pattern)
  (hreplacement : replacement ≠ [] ∧ IsBreakless replacement)
include hpattern hreplacement

theorem replaceWithin : ∀ (steps : Nat) (s : List Char),
    SameBreaks s (replaceWithin pattern replacement steps s)
  | 0, s => refl s
  | _ + 1, [] => nil
  | steps + 1, c :: s => by
      rw [Text.replaceWithin]
      split
      · rename_i rest h
        rw [dropPrefix?_eq_some_iff.mp h]
        exact put hpattern.1 hreplacement.1 hpattern.2 hreplacement.2 (replaceWithin steps rest)
      · exact (replaceWithin steps s).keep c

theorem replaceAll (s : List Char) : SameBreaks s (replaceAll pattern replacement s) :=
  replaceWithin hpattern hreplacement s.length s

end replace

/-! #### Lines -/

section lines
variable {s t : List Char}

theorem reverse (h : SameBreaks s t) : SameBreaks s.reverse t.reverse := by
  induction h with
  | nil => exact nil
  | keep c _ ih =>
      rw [List.reverse_cons, List.reverse_cons]
      exact ih.append (refl [c])
  | put hx hy hbx hby _ ih =>
      rw [List.reverse_append, List.reverse_append]
      refine ih.append (of_isBreakless ⟨?_, ?_⟩ ⟨?_, ?_⟩)
      · simpa using hx
      · simpa [IsBreakless] using hbx
      · simpa using hy
      · simpa [IsBreakless] using hby

theorem isEmpty_eq (h : SameBreaks s t) : s.isEmpty = t.isEmpty := by
  cases h with
  | nil => rfl
  | keep c _ => rfl
  | @put x y _ _ hx hy _ _ _ =>
      obtain ⟨c, x, rfl⟩ := List.exists_cons_of_ne_nil hx
      obtain ⟨d, y, rfl⟩ := List.exists_cons_of_ne_nil hy
      rfl

theorem mem_feed_iff (h : SameBreaks s t) : '\n' ∈ s ↔ '\n' ∈ t := by
  induction h with
  | nil => exact Iff.rfl
  | keep c _ ih => rw [List.mem_cons, List.mem_cons, ih]
  | put _ _ hbx hby _ ih => simp [hbx.2, hby.2, ih]

theorem dropReturn_of_isBreakless {x : List Char} (hx : x ≠ []) (hbx : IsBreakless x)
    (s : List Char) : Text.dropReturn (x ++ s) = x ++ s := by
  obtain ⟨c, x, rfl⟩ := List.exists_cons_of_ne_nil hx
  rw [List.cons_append]
  unfold Text.dropReturn
  split
  · rename_i heq
    obtain ⟨rfl, -⟩ := List.cons.inj heq
    exact absurd List.mem_cons_self hbx.1
  · rfl

theorem dropReturn (h : SameBreaks s t) : SameBreaks (dropReturn s) (dropReturn t) := by
  cases h with
  | nil => exact nil
  | @keep c s t hst =>
      by_cases hc : c = '\r'
      · rw [hc]
        exact hst
      · unfold Text.dropReturn
        split
        · rename_i heq
          exact absurd (List.cons.inj heq).1 hc
        · split
          · rename_i heq
            exact absurd (List.cons.inj heq).1 hc
          · exact hst.keep c
  | put hx hy hbx hby hst =>
      rw [dropReturn_of_isBreakless hx hbx, dropReturn_of_isBreakless hy hby]
      exact put hx hy hbx hby hst

/-- The lines of the two texts differ only in such pieces either. -/
theorem linesFrom (h : SameBreaks s t) : ∀ {a b : List Char}, SameBreaks a b →
    List.Forall₂ SameBreaks (linesFrom a s) (linesFrom b t) := by
  induction h with
  | nil =>
      intro a b hab
      rw [Text.linesFrom, Text.linesFrom, hab.isEmpty_eq]
      split
      · exact .nil
      · exact .cons hab.reverse .nil
  | keep c _ ih =>
      intro a b hab
      rw [Text.linesFrom, Text.linesFrom]
      split
      · exact .cons hab.dropReturn.reverse (ih nil)
      · exact ih (hab.keep c)
  | put hx hy hbx hby _ ih =>
      intro a b hab
      rw [linesFrom_append_of_not_mem hbx.2, linesFrom_append_of_not_mem hby.2]
      have hpiece := (of_isBreakless ⟨hx, hbx⟩ ⟨hy, hby⟩).reverse
      exact ih (hpiece.append hab)

theorem lines (h : SameBreaks s t) : List.Forall₂ SameBreaks (lines s) (lines t) :=
  h.linesFrom nil

end lines

end SameBreaks

/-! ### Documentation -/

/-- The parts of a text that have a line feed after them where the text is documentation: each of
its lines if there are several, else the text itself, if it ends its line. -/
def documented (s : List Char) : List (List Char) :=
  if (lines s).length ≤ 1 then if '\n' ∈ s then [s] else [] else lines s

/-- The parts of a description that are documentation. -/
def documentedOf (description : String) : List String :=
  (documented description.toList).map String.ofList

theorem allClean_linesOf_iff {s : String} :
    AllClean (linesOf s) ↔ ∀ l ∈ lines s.toList, Clean l := by
  simp [AllClean, linesOf]

theorem allClean_documentedOf_iff {s : String} :
    AllClean (documentedOf s) ↔ ∀ l ∈ documented s.toList, Clean l := by
  simp [AllClean, documentedOf]

theorem clean_of_mem_documented {s l : List Char} (h : Clean s) (hl : l ∈ documented s) :
    Clean l := by
  unfold documented at hl
  split at hl
  · split at hl
    · rwa [List.mem_singleton.mp hl]
    · cases hl
  · exact clean_of_mem_lines h hl

theorem documented_eq_lines {s : List Char} (hne : lines s ≠ []) (hmore : ∀ l, lines s ≠ [l]) :
    documented s = lines s := by
  refine if_neg fun hone => ?_
  rcases Nat.le_one_iff_eq_zero_or_eq_one.mp hone with hnone | hone
  · exact hne (List.length_eq_zero_iff.mp hnone)
  · obtain ⟨l, hl⟩ := List.length_eq_one_iff.mp hone
    exact hmore l hl

/-- Pieces without breaks have no part in whether the lines of a text are clean. -/
theorem SameBreaks.clean_lines {s t : List Char} (h : SameBreaks s t)
    (hs : ∀ l ∈ Text.lines s, Clean l) : ∀ l ∈ Text.lines t, Clean l := by
  have hlines := h.lines
  generalize Text.lines s = before at hs hlines
  generalize Text.lines t = after at hlines
  induction hlines with
  | nil => exact hs
  | cons hl _ ih =>
      obtain ⟨hfirst, hrest⟩ := List.forall_mem_cons.mp hs
      exact List.forall_mem_cons.mpr ⟨hl.clean_iff.mp hfirst, ih hrest⟩

theorem SameBreaks.clean_documented {s t : List Char} (h : SameBreaks s t)
    (hs : ∀ l ∈ documented s, Clean l) : ∀ l ∈ documented t, Clean l := by
  unfold documented at hs ⊢
  rw [h.lines.length_eq] at hs
  split
  · rename_i hone
    rw [if_pos hone] at hs
    split
    · rename_i hfeed
      rw [if_pos (h.mem_feed_iff.mpr hfeed)] at hs
      exact List.forall_mem_singleton.mpr
        (h.clean_iff.mp (hs s (List.mem_singleton_self s)))
    · exact List.forall_mem_nil _
  · rename_i hmore
    rw [if_neg hmore] at hs
    exact h.clean_lines hs

/-- A text that does not end its last line is documentation with clean lines. -/
theorem clean_documented_of_lines {s : List Char} (h : ∀ l ∈ lines s, Clean l)
    (hlast : s.getLast? ≠ some '\n') : ∀ l ∈ documented s, Clean l := by
  unfold documented
  split
  · rename_i hone
    rw [if_neg (not_mem_of_length_lines_le hone hlast)]
    exact List.forall_mem_nil _
  · exact h

/-- A text of one line between two others, as documentation. -/
theorem clean_enclose_documented {a b s : List Char} (h : ∀ l ∈ documented s, Clean l)
    (hone : (lines s).length ≤ 1) (ha : Clean a) (hb : b ≠ []) (hbreakless : IsBreakless b) :
    Clean (a ++ s ++ b) := by
  rw [List.append_assoc]
  refine ha.append ?_
  by_cases hfeed : '\n' ∈ s
  · have hs : Clean s := h s (by
      rw [documented, if_pos hone, if_pos hfeed]
      exact List.mem_singleton_self s)
    exact hs.append (clean_of_not_mem hbreakless.1)
  · refine clean_of_feed_not_mem (by simp [hfeed, hbreakless.2]) ?_
    rw [List.getLast?_append_of_ne_nil _ hb]
    exact (clean_iff.mp (clean_of_not_mem hbreakless.1)).2

/-! ### Strings and numbers -/

theorem clean_quoted (s : String) : Clean (quoted s).toList := by
  refine clean_of_not_mem ?_
  have hescape := (Model.not_mem_escape s.toList).2
  simp [quoted, escaped, hescape]

theorem return_not_mem_digitsOf (n : Nat) : '\r' ∉ Number.digitsOf n := fun h =>
  absurd (Number.isDigit_of_mem_digitsOf h) (by decide)

theorem return_not_mem_text (n : Number) : '\r' ∉ n.text := by
  obtain ⟨numeral, negative, -, htext⟩ := n.exists_text
  have hdigits : ∀ {ds : List Char}, Number.IsDigits ds → '\r' ∉ ds := fun h hc =>
    absurd (h.isDigit _ hc) (by decide)
  have hsign : '\r' ∉ if negative then ['-'] else [] := by
    cases negative <;> decide
  have hfraction : '\r' ∉ numeral.fractionPart := by
    unfold Number.Numeral.fractionPart
    cases h : numeral.fraction with
    | none => exact List.not_mem_nil
    | some ds => simpa using hdigits (numeral.isDigits ds h)
  have hexponent : '\r' ∉ numeral.exponentPart := by
    unfold Number.Numeral.exponentPart
    cases numeral.exponent with
    | none => exact List.not_mem_nil
    | some e =>
        have hmark : '\r' ≠ if e < 0 then '-' else '+' := by
          split <;> decide
        simp [Number.exponentText, hmark, return_not_mem_digitsOf]
  rw [htext, Number.Numeral.text]
  simp only [List.mem_append, not_or]
  exact ⟨hsign, hdigits numeral.isWhole.toIsDigits, hfraction, hexponent⟩

theorem clean_numberText (n : Number) : Clean (String.ofList n.text).toList := by
  rw [String.toList_ofList]
  exact clean_of_not_mem (return_not_mem_text n)

theorem clean_countText (n : Nat) : Clean (String.ofList (Number.digitsOf n)).toList := by
  rw [String.toList_ofList]
  exact clean_of_not_mem (return_not_mem_digitsOf n)

end SchemaModels.Text
