import SchemaModels.Proofs.Repair.Settled

/-!
# Texts without keywords

A text in which no keyword of the repairs stands is returned by every repair. No keyword begins in
most texts that code is made of, and a character that is in no keyword keeps the keywords of its two
sides apart; so a text is plain when the parts are that it is put together from.

* `Plain`: no keyword stands in a text.
* `plain_lead`, `plain_gap`, `plain_tail`: fixed texts before, between and after others; and the
  same of strings (`plain_prepend`, `plain_join`, `plain_append`, `plain_enclose`).
* `Edited`: a text in which pieces are replaced by texts that begin with a break, as escapes are.
* `Plain.repair_eq`: the repair of a plain text is the text.
-/

namespace SchemaModels.Repair

open Text

/-- What stands in each directive, wrapper and import of the wrapper. -/
def keywords : List (List Char) := [wrapperName, "ConfigDict".toList]

/-- No keyword stands in a text. -/
def Plain (s : List Char) : Prop := ∀ w ∈ keywords, ¬w <:+: s

instance (s : List Char) : Decidable (Plain s) :=
  inferInstanceAs (Decidable (∀ w ∈ keywords, ¬w <:+: s))

/-- Whether no keyword begins with a character. -/
def isInner (c : Char) : Bool := c != 'R' && c != 'C'

/-- The letters of the keywords. -/
def letters : List Char := ['R', 'o', 't', 'M', 'd', 'e', 'l', 'C', 'n', 'f', 'i', 'g', 'D', 'c']

/-- Whether a character stands in no keyword. -/
def isBreak (c : Char) : Bool := !letters.contains c

/-- Whether a text begins with a break, and no keyword begins in it. -/
def isBreaking (s : List Char) : Bool := s.head?.any isBreak && s.all isInner

theorem isInner_iff {c : Char} : isInner c = true ↔ c ≠ 'R' ∧ c ≠ 'C' := by
  rw [isInner, Bool.and_eq_true, bne_iff_ne, bne_iff_ne]

theorem head?_ne_of_isInner {c : Char} (h : isInner c = true) {w : List Char} (hw : w ∈ keywords) :
    w.head? ≠ some c := by
  have hheads : ∀ w ∈ keywords, w.head? = some 'R' ∨ w.head? = some 'C' := by decide
  intro hc
  rcases hheads w hw with hr | hr
  · exact (isInner_iff.mp h).1 (Option.some.inj (hc.symm.trans hr))
  · exact (isInner_iff.mp h).2 (Option.some.inj (hc.symm.trans hr))

theorem not_mem_of_isBreak {c : Char} (h : isBreak c = true) {w : List Char} (hw : w ∈ keywords) :
    c ∉ w := by
  have hletters : ∀ w ∈ keywords, w ⊆ letters := by decide
  intro hc
  rw [isBreak, List.contains_iff_mem.mpr (hletters w hw hc)] at h
  cases h

theorem isInner_of_isBreak {c : Char} (h : isBreak c = true) : isInner c = true :=
  isInner_iff.mpr ⟨fun hc => absurd (hc ▸ h) (by decide), fun hc => absurd (hc ▸ h) (by decide)⟩

/-! ### Texts put together -/

theorem Plain.of_isInfix {s t : List Char} (h : Plain t) (hs : s <:+: t) : Plain s :=
  fun w hw hws => h w hw (hws.trans hs)

@[simp] theorem plain_nil : Plain [] := by
  intro w hw h
  rw [List.eq_nil_of_infix_nil h] at hw
  exact absurd hw (by decide)

theorem plain_cons {c : Char} (hc : isInner c = true) {s : List Char} :
    Plain (c :: s) ↔ Plain s := by
  refine ⟨fun h => h.of_isInfix (List.suffix_cons c s).isInfix, fun h w hw hws => ?_⟩
  rcases List.infix_cons_iff.mp hws with hprefix | hinfix
  · refine head?_ne_of_isInner hc hw ?_
    cases w with
    | nil => exact absurd hw (by decide)
    | cons d w => rw [(List.cons_prefix_cons.mp hprefix).1, List.head?_cons]
  · exact h w hw hinfix

/-- Nothing reaches over a break. -/
theorem plain_append_cons {c : Char} (hc : isBreak c = true) {t : List Char} :
    ∀ {s : List Char}, Plain (s ++ c :: t) ↔ Plain s ∧ Plain t
  | [] => by simp [plain_cons (isInner_of_isBreak hc)]
  | d :: s => by
      refine ⟨fun h => ⟨h.of_isInfix (List.prefix_append _ _).isInfix,
        h.of_isInfix ((List.suffix_cons c t).trans (List.suffix_append _ _)).isInfix⟩, ?_⟩
      rintro ⟨hs, ht⟩ w hw hws
      rcases List.infix_cons_iff.mp hws with hprefix | hinfix
      · have hprefix' : w <+: (d :: s) ++ c :: t := hprefix
        rcases List.prefix_or_prefix_of_prefix hprefix' (List.prefix_append _ _) with h | h
        · exact hs w hw h.isInfix
        · obtain ⟨u, rfl⟩ := h
          have hu := (List.prefix_append_right_inj _).mp hprefix'
          cases u with
          | nil => exact hs _ hw (List.append_nil _ ▸ List.infix_rfl)
          | cons e u =>
              refine not_mem_of_isBreak hc hw (List.mem_append_right _ ?_)
              rw [← (List.cons_prefix_cons.mp hu).1]
              exact List.mem_cons_self
      · have hs' := hs.of_isInfix (List.suffix_cons d s).isInfix
        exact (plain_append_cons hc).mpr ⟨hs', ht⟩ w hw hinfix

/-- No keyword begins in a fixed text before another text. -/
theorem plain_lead {x s : List Char} (hx : x.all isInner = true) :
    Plain (x ++ s) ↔ Plain s := by
  induction x with
  | nil => rfl
  | cons c x ih =>
      obtain ⟨hc, hx⟩ := Bool.and_eq_true_iff.mp hx
      rw [List.cons_append, plain_cons hc, ih hx]

/-- A fixed text keeps two others apart. -/
theorem plain_gap {s x t : List Char} (hx : isBreaking x = true) :
    Plain (s ++ (x ++ t)) ↔ Plain s ∧ Plain t := by
  obtain ⟨hhead, hall⟩ := Bool.and_eq_true_iff.mp hx
  cases x with
  | nil => cases hhead
  | cons c x =>
      rw [List.cons_append, plain_append_cons hhead, plain_lead (Bool.and_eq_true_iff.mp hall).2]

theorem plain_tail {s x : List Char} (hx : isBreaking x = true) : Plain (s ++ x) ↔ Plain s := by
  have h := plain_gap (s := s) (t := []) hx
  rwa [List.append_nil, and_iff_left plain_nil] at h

theorem plain_of_all {x : List Char} (hx : x.all isInner = true) : Plain x := by
  have h := plain_lead (s := []) hx
  rw [List.append_nil] at h
  exact h.mpr plain_nil

/-- Every keyword has a small letter o. -/
theorem plain_of_not_mem {s : List Char} (h : 'o' ∉ s) : Plain s := by
  intro w hw hws
  have ho : ∀ w ∈ keywords, 'o' ∈ w := by decide
  exact h (hws.subset (ho w hw))

/-! ### Strings put together -/

section strings
variable {a b s t : String}

theorem plain_prepend (ha : a.toList.all isInner = true) :
    Plain (a ++ s).toList ↔ Plain s.toList := by
  rw [String.toList_append, plain_lead ha]

theorem plain_append (hb : isBreaking b.toList = true) :
    Plain (s ++ b).toList ↔ Plain s.toList := by
  rw [String.toList_append, plain_tail hb]

theorem plain_enclose (ha : a.toList.all isInner = true) (hb : isBreaking b.toList = true) :
    Plain (a ++ s ++ b).toList ↔ Plain s.toList := by
  rw [plain_append hb, plain_prepend ha]

theorem plain_join (ha : isBreaking a.toList = true) :
    Plain (s ++ a ++ t).toList ↔ Plain s.toList ∧ Plain t.toList := by
  rw [String.toList_append, String.toList_append, List.append_assoc, plain_gap ha]

end strings

/-- No keyword stands in any of some strings. -/
def AllPlain (strings : List String) : Prop := ∀ s ∈ strings, Plain s.toList

namespace AllPlain
variable {strings more : List String}

theorem append_iff : AllPlain (strings ++ more) ↔ AllPlain strings ∧ AllPlain more :=
  List.forall_mem_append

theorem cons_iff {s : String} : AllPlain (s :: strings) ↔ Plain s.toList ∧ AllPlain strings :=
  List.forall_mem_cons

theorem of_subset (h : AllPlain more) (hs : ∀ s ∈ strings, s ∈ more) : AllPlain strings :=
  fun s hm => h s (hs s hm)

end AllPlain

theorem plain_intercalate {separator : String} (h : isBreaking separator.toList = true) :
    ∀ {texts : List String}, AllPlain texts → Plain (String.intercalate separator texts).toList
  | [], _ => plain_nil
  | [x], hx => by
      rw [String.intercalate_singleton]
      exact hx x List.mem_cons_self
  | x :: y :: texts, hx => by
      rw [String.intercalate_cons_cons, plain_join h]
      exact ⟨hx x List.mem_cons_self,
        plain_intercalate h fun z hz => hx z (List.mem_cons_of_mem x hz)⟩

/-! ### Texts with pieces replaced -/

/-- A text in which pieces of another one are replaced by texts that begin with a break. -/
inductive Edited : List Char → List Char → Prop where
  | nil : Edited [] []
  | keep (c : Char) {s t : List Char} : Edited s t → Edited (c :: s) (c :: t)
  | put (piece : List Char) {x s t : List Char} : isBreaking x = true → Edited s t →
      Edited (piece ++ s) (x ++ t)

namespace Edited

theorem refl : ∀ s : List Char, Edited s s
  | [] => nil
  | c :: s => keep c (refl s)

/-- A beginning that has no break is one of the text before. -/
theorem isPrefix_of_isPrefix {s t : List Char} (h : Edited s t) : ∀ {w : List Char},
    (∀ c ∈ w, isBreak c = false) → w <+: t → w <+: s := by
  induction h with
  | nil => exact fun _ h => h
  | @keep c s t _ ih =>
      rintro (_ | ⟨d, w⟩) hw hwt
      · exact List.nil_prefix
      · obtain ⟨rfl, htail⟩ := List.cons_prefix_cons.mp hwt
        exact List.cons_prefix_cons.mpr
          ⟨rfl, ih (fun c hc => hw c (List.mem_cons_of_mem _ hc)) htail⟩
  | @put piece x s t hx _ _ =>
      rintro (_ | ⟨d, w⟩) hw hwt
      · exact List.nil_prefix
      · cases x with
        | nil => cases hx
        | cons c x =>
            obtain ⟨rfl, _⟩ := List.cons_prefix_cons.mp hwt
            have hc := (Bool.and_eq_true_iff.mp hx).1
            exact absurd (hc.symm.trans (hw d List.mem_cons_self)) (by decide)

theorem isBreak_eq_false {w : List Char} (hw : w ∈ keywords) {c : Char} (hc : c ∈ w) :
    isBreak c = false :=
  Bool.eq_false_iff.mpr fun h => not_mem_of_isBreak h hw hc

/-- Replacing pieces in this way brings no keyword in. -/
theorem plain {s t : List Char} (h : Edited s t) (hs : Plain s) : Plain t := by
  induction h with
  | nil => exact hs
  | @keep c s t hst ih =>
      intro w hw hwt
      rcases List.infix_cons_iff.mp hwt with hprefix | hinfix
      · exact hs w hw ((hst.keep c).isPrefix_of_isPrefix
          (fun _ hc => isBreak_eq_false hw hc) hprefix).isInfix
      · exact ih (hs.of_isInfix (List.suffix_cons c s).isInfix) w hw hinfix
  | put piece hx _ ih =>
      exact (plain_lead (Bool.and_eq_true_iff.mp hx).2).mpr
        (ih (hs.of_isInfix (List.suffix_append _ _).isInfix))

/-- A text with a text for each character, which is the character or begins with a break. -/
theorem flatMap {f : Char → List Char} (hf : ∀ c, f c = [c] ∨ isBreaking (f c) = true) :
    ∀ s : List Char, Edited s (s.flatMap f)
  | [] => nil
  | c :: s => by
      rw [List.flatMap_cons]
      rcases hf c with h | h
      · rw [h]
        exact (flatMap hf s).keep c
      · exact .put [c] h (flatMap hf s)

theorem replaceWithin {pattern replacement : List Char} (hr : isBreaking replacement = true) :
    ∀ (steps : Nat) (s : List Char), Edited s (replaceWithin pattern replacement steps s)
  | 0, s => refl s
  | _ + 1, [] => nil
  | steps + 1, c :: s => by
      rw [Text.replaceWithin]
      split
      · rename_i rest h
        rw [dropPrefix?_eq_some_iff.mp h]
        exact .put pattern hr (replaceWithin hr steps rest)
      · exact (replaceWithin hr steps s).keep c

theorem replaceAll {pattern replacement : List Char} (hr : isBreaking replacement = true)
    (s : List Char) : Edited s (replaceAll pattern replacement s) :=
  replaceWithin hr s.length s

end Edited

/-! ### Repairs -/

/-- A plain text is returned as it is, and no group is found in it. -/
theorem Plain.repair_eq {s : List Char} (hs : Plain s) {groups : List Group}
    (h : ∀ g ∈ groups, g.members.isEmpty = false) :
    repair groups s = .ok (s, ⟨0, [], groups.map Group.name, false⟩) :=
  repair_of_settled h (settled_of_keywords (hs _ (by decide)) (hs _ (by decide)) groups)

end SchemaModels.Repair
