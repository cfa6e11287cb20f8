import Mathlib.Algebra.GroupWithZero.Nat
import Mathlib.Data.List.Forall2
import SchemaModels.Text.Pattern

/-!
# What patterns take off a text

A pattern takes a beginning off a text, and with it at least a certain number of the characters of a
class. Patterns in a row take at least the sum, and each of the words among them stands in the text.

* `Spends`: what a pattern takes off.
* `spends_sequence`: patterns in a row.
* `isInfix_of_mem_sequence`: the words among them.
-/

namespace SchemaModels.Text.Pattern

variable {heavy : Char → Bool}

/-- A pattern takes beginnings off texts, with at least some number of heavy characters. -/
def Spends (heavy : Char → Bool) (p : Pattern) (n : Nat) : Prop :=
  ∀ s rest, rest ∈ p s → ∃ x, s = x ++ rest ∧ n ≤ x.countP heavy

namespace Spends

theorem of_suffix {p : Pattern} (h : ∀ s rest, rest ∈ p s → rest <:+ s) : Spends heavy p 0 := by
  intro s rest hr
  obtain ⟨x, rfl⟩ := h s rest hr
  exact ⟨x, rfl, Nat.zero_le _⟩

theorem suffix {p : Pattern} {n : Nat} (h : Spends heavy p n) {s rest : List Char}
    (hr : rest ∈ p s) : rest <:+ s := by
  obtain ⟨x, rfl, _⟩ := h s rest hr
  exact List.suffix_append x rest

theorem mono {p : Pattern} {m n : Nat} (h : Spends heavy p n) (hle : m ≤ n) :
    Spends heavy p m := by
  intro s rest hr
  obtain ⟨x, hx, hn⟩ := h s rest hr
  exact ⟨x, hx, Nat.le_trans hle hn⟩

theorem followedBy {p q : Pattern} {m n : Nat} (hp : Spends heavy p m) (hq : Spends heavy q n) :
    Spends heavy (Pattern.followedBy p q) (m + n) := by
  intro s rest hr
  obtain ⟨t, ht, hrest⟩ := List.mem_flatMap.mp hr
  obtain ⟨x, rfl, hm⟩ := hp s t ht
  obtain ⟨y, rfl, hn⟩ := hq t rest hrest
  exact ⟨x ++ y, (List.append_assoc _ _ _).symm, by rw [List.countP_append]; omega⟩

theorem optional {p : Pattern} {n : Nat} (h : Spends heavy p n) :
    Spends heavy (Pattern.optional p) 0 := by
  refine of_suffix fun s rest hr => ?_
  rcases List.mem_append.mp hr with hr | hr
  · exact h.suffix hr
  · exact List.mem_singleton.mp hr ▸ List.suffix_rfl

end Spends

/-! ### Single patterns -/

theorem mem_word {w s rest : List Char} : rest ∈ word w s ↔ s = w ++ rest := by
  rw [word, Option.mem_toList, dropPrefix?_eq_some_iff]

theorem spends_word (w : List Char) : Spends heavy (word w) (w.countP heavy) :=
  fun _ _ hr => ⟨w, mem_word.mp hr, Nat.le_refl _⟩

@[simp] theorem reads_word (w : List Char) : Spends heavy (word w) 0 :=
  (spends_word w).mono (Nat.zero_le _)

@[simp] theorem reads_oneOf (cs : List Char) : Spends heavy (oneOf cs) 0 := by
  refine Spends.of_suffix fun s rest hr => ?_
  cases s with
  | nil => cases hr
  | cons c s =>
      rw [oneOf] at hr
      split at hr
      · rw [List.mem_singleton.mp hr]
        exact List.suffix_cons c s
      · cases hr

@[simp] theorem reads_blanks : Spends heavy blanks 0 :=
  Spends.of_suffix fun _ _ => suffix_of_mem_blanks

@[simp] theorem reads_someBlanks : Spends heavy someBlanks 0 := by
  refine Spends.of_suffix fun s rest hr => ?_
  cases s with
  | nil => cases hr
  | cons c s =>
      rw [someBlanks] at hr
      split at hr
      · exact (suffix_of_mem_blanks hr).trans (List.suffix_cons c s)
      · cases hr

@[simp] theorem reads_optionalComma : Spends heavy optionalComma 0 :=
  reads_blanks.followedBy ((spends_word [',']).followedBy reads_blanks).optional

theorem suffix_of_mem_quotedBy {quote : Char} {s rest : List Char} (hr : rest ∈ quotedBy quote s) :
    rest <:+ s := by
  cases s with
  | nil => cases hr
  | cons c s =>
      rw [quotedBy] at hr
      split at hr
      · have hdrop := List.dropWhile_suffix (fun d => d != quote) (l := s)
        split at hr
        · cases hr
        · rename_i d t ht
          rw [List.mem_singleton.mp hr]
          rw [ht] at hdrop
          exact ((List.suffix_cons d t).trans hdrop).trans (List.suffix_cons c s)
      · cases hr

@[simp] theorem reads_quotedText : Spends heavy quotedText 0 :=
  Spends.of_suffix fun _ _ hr =>
    (List.mem_append.mp hr).elim suffix_of_mem_quotedBy suffix_of_mem_quotedBy

/-! ### Patterns in a row -/

theorem spends_nil : Spends heavy (sequence []) 0 :=
  Spends.of_suffix fun _ _ hr => List.mem_singleton.mp hr ▸ List.suffix_rfl

/-- Patterns in a row spend at least what some of them do together. -/
theorem spends_sequence {qs ps : List Pattern} {ns : List Nat} (h : qs.Sublist ps)
    (hps : ∀ p ∈ ps, Spends heavy p 0) (hqs : List.Forall₂ (Spends heavy) qs ns) :
    Spends heavy (sequence ps) ns.sum := by
  induction h generalizing ns with
  | slnil =>
      cases hqs
      exact spends_nil
  | cons p _ ih =>
      obtain ⟨hp, hps⟩ := List.forall_mem_cons.mp hps
      exact (hp.followedBy (ih hps hqs)).mono (Nat.le_add_left _ _)
  | cons_cons p _ ih =>
      obtain ⟨_, hps⟩ := List.forall_mem_cons.mp hps
      cases hqs with
      | cons hq hqs => exact hq.followedBy (ih hps hqs)

variable (heavy) in
/-- A word among patterns in a row stands in each text that they recognize. -/
theorem isInfix_of_mem_sequence {w : List Char} : ∀ {ps : List Pattern} {s rest : List Char},
    (∀ p ∈ ps, Spends heavy p 0) → word w ∈ ps → rest ∈ sequence ps s → w <:+: s
  | p :: ps, s, rest, hps, hw, hr => by
      obtain ⟨hp, hps⟩ := List.forall_mem_cons.mp hps
      obtain ⟨t, ht, hrest⟩ := List.mem_flatMap.mp hr
      rcases List.mem_cons.mp hw with rfl | hw
      · exact ⟨[], t, (mem_word.mp ht).symm⟩
      · exact (isInfix_of_mem_sequence hps hw hrest).trans (hp.suffix ht).isInfix

end SchemaModels.Text.Pattern
