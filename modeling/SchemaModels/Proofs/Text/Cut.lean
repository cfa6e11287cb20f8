import Mathlib.Algebra.BigOperators.Group.List.Basic
import Mathlib.Algebra.GroupWithZero.Nat
import SchemaModels.Text.Cut

/-!
# What is found in a text

A cut text has a span exactly when something is found at a place of the text, and each span is what
a finder took off there. So what is known of a finder at one place is known of all spans.

* `Absent`: a finder finds nothing, at no place of a text.
* `found?_eq_none_iff`: then, and only then, the pieces of the text are its characters.
* `countP_replaceSpans_le`: replacements that each lower a count lower it together.
-/

namespace SchemaModels.Text

variable {α : Type} {find : Finder α}

/-! ### Nothing found -/

/-- Nothing is found at any place of a text, whose first place may be the start of a line. -/
def Absent (find : Finder α) : Bool → List Char → Prop
  | _, [] => True
  | lineStart, c :: s => find lineStart (c :: s) = none ∧ Absent find (c = '\n') s

/-- What is not found in a text is not found in one that ends it. -/
theorem absent_of_suffix {s : List Char}
    (h : ∀ lineStart c t, c :: t <:+ s → find lineStart (c :: t) = none) :
    ∀ (lineStart : Bool), Absent find lineStart s := by
  induction s with
  | nil => exact fun _ => trivial
  | cons c s ih =>
      exact fun lineStart => ⟨h lineStart c s List.suffix_rfl,
        ih (fun ls d t ht => h ls d t (ht.trans (List.suffix_cons c s))) _⟩

theorem cutWithin_of_absent : ∀ {steps : Nat} {lineStart : Bool} {s : List Char},
    Absent find lineStart s → cutWithin find steps lineStart s = s.map .char
  | 0, _, _, _ => rfl
  | _ + 1, _, [], _ => rfl
  | steps + 1, lineStart, c :: s, ⟨hc, hs⟩ => by
      rw [cutWithin, hc]
      exact congrArg _ (cutWithin_of_absent hs)

theorem absent_of_cutWithin : ∀ {steps : Nat} {lineStart : Bool} {s : List Char},
    s.length ≤ steps → (∀ p ∈ cutWithin find steps lineStart s, p.found? = none) →
      Absent find lineStart s
  | _, _, [], _, _ => trivial
  | steps + 1, lineStart, c :: s, hlen, h => by
      rw [cutWithin] at h
      cases hf : find lineStart (c :: s) with
      | some r =>
          rw [hf] at h
          exact absurd (h _ List.mem_cons_self) (by simp [Piece.found?])
      | none =>
          rw [hf] at h
          exact ⟨hf, absent_of_cutWithin (Nat.le_of_succ_le_succ hlen)
            fun p hp => h p (List.mem_cons_of_mem _ hp)⟩

/-- The pieces of a text are its characters exactly when nothing is found in it. -/
theorem found?_eq_none_iff {s : List Char} :
    (∀ p ∈ cut find s, p.found? = none) ↔ Absent find true s := by
  refine ⟨absent_of_cutWithin (Nat.le_refl _), fun h p hp => ?_⟩
  rw [cut, cutWithin_of_absent h] at hp
  obtain ⟨c, _, rfl⟩ := List.mem_map.mp hp
  rfl

theorem replaceSpans_of_absent {replace : List Char → α → List Char} {s : List Char}
    (h : Absent find true s) : replaceSpans replace (cut find s) = s := by
  rw [cut, cutWithin_of_absent h]
  simp [replaceSpans, List.flatMap_map]

/-! ### Spans -/

/-- A span is what the finder took off at some place. -/
theorem exists_of_mem_cutWithin {text : List Char} {a : α} :
    ∀ {steps : Nat} {lineStart : Bool} {s : List Char},
      .span text a ∈ cutWithin find steps lineStart s →
        ∃ ls t rest, find ls t = some (a, rest) ∧ text = t.take (t.length - rest.length)
  | 0, _, s, h => by
      obtain ⟨c, _, hc⟩ := List.mem_map.mp h
      cases hc
  | _ + 1, _, [], h => by cases h
  | steps + 1, lineStart, c :: s, h => by
      rw [cutWithin] at h
      cases hf : find lineStart (c :: s) with
      | none =>
          rw [hf] at h
          rcases List.mem_cons.mp h with h | h
          · cases h
          · exact exists_of_mem_cutWithin h
      | some r =>
          rw [hf] at h
          rcases List.mem_cons.mp h with h | h
          · obtain ⟨rfl, rfl⟩ := Piece.span.inj h
            exact ⟨lineStart, c :: s, r.2, hf, rfl⟩
          · exact exists_of_mem_cutWithin h

/-- A span with the rest of the text after it is where its finder found it, if the finder takes
beginnings off. -/
theorem exists_of_mem_cut (hfind : ∀ ls t a rest, find ls t = some (a, rest) → rest <:+ t)
    {s text : List Char} {a : α} (h : .span text a ∈ cut find s) :
    ∃ ls rest, find ls (text ++ rest) = some (a, rest) := by
  obtain ⟨ls, t, rest, hf, rfl⟩ := exists_of_mem_cutWithin h
  obtain ⟨x, rfl⟩ := hfind ls t a rest hf
  refine ⟨ls, rest, ?_⟩
  rwa [List.length_append, Nat.add_sub_cancel, List.take_left]

theorem isInfix_of_mem_cut {s : List Char} {p : Piece α} (h : p ∈ cut find s) :
    p.source <:+: s := by
  obtain ⟨before, after, hp⟩ := List.append_of_mem h
  refine ⟨before.flatMap Piece.source, after.flatMap Piece.source, ?_⟩
  have hs := flatMap_source_cut find s
  rw [hp, List.flatMap_append, List.flatMap_cons] at hs
  rw [List.append_assoc]
  exact hs

/-! ### Counts -/

section counts
variable (heavy : Char → Bool) (replace : List Char → α → List Char) (gain : α → Nat)

theorem countP_replaceSpans_pieces : ∀ {ps : List (Piece α)},
    (∀ text a, .span text a ∈ ps →
      (replace text a).countP heavy + gain a ≤ text.countP heavy) →
    (replaceSpans replace ps).countP heavy + ((ps.filterMap Piece.found?).map gain).sum ≤
      (ps.flatMap Piece.source).countP heavy
  | [], _ => Nat.le_refl _
  | .char c :: ps, h => by
      have ih := countP_replaceSpans_pieces fun text a ha => h text a (List.mem_cons_of_mem _ ha)
      rw [List.filterMap_cons_none (f := Piece.found?) (a := .char c) rfl]
      simp only [replaceSpans, List.flatMap_cons, List.countP_append, Piece.source] at ih ⊢
      omega
  | .span text a :: ps, h => by
      have ih := countP_replaceSpans_pieces fun text a ha => h text a (List.mem_cons_of_mem _ ha)
      have ha := h text a List.mem_cons_self
      rw [List.filterMap_cons_some (f := Piece.found?) (a := .span text a) (b := a) rfl,
        List.map_cons, List.sum_cons]
      simp only [replaceSpans, List.flatMap_cons, List.countP_append, Piece.source] at ih ⊢
      omega

/-- Replacements that each lower the count of some characters, by at least a given amount for what
was found, lower the count in the text by all the amounts together. -/
theorem countP_replaceSpans_le
    (h : ∀ lineStart s a rest, find lineStart s = some (a, rest) →
      ∃ x, s = x ++ rest ∧ (replace x a).countP heavy + gain a ≤ x.countP heavy)
    (s : List Char) :
    (replaceSpans replace (cut find s)).countP heavy +
      (((cut find s).filterMap Piece.found?).map gain).sum ≤ s.countP heavy := by
  have hspans : ∀ text a, .span text a ∈ cut find s →
      (replace text a).countP heavy + gain a ≤ text.countP heavy := by
    intro text a ha
    obtain ⟨ls, rest, hf⟩ := exists_of_mem_cut
      (fun ls t a rest hf => (h ls t a rest hf).elim fun x hx => ⟨x, hx.1.symm⟩) ha
    obtain ⟨x, hx, hle⟩ := h ls _ a rest hf
    rwa [← List.append_cancel_right hx] at hle
  have hpieces := countP_replaceSpans_pieces heavy replace gain hspans
  rwa [flatMap_source_cut] at hpieces

end counts

end SchemaModels.Text
