import Mathlib.Data.List.TakeWhile
import SchemaModels.Text.Trim

/-!
# Runs of characters of a class

* `dropWhile_append_of_head`, `takeWhile_append_of_head`: a run at the start of a text.
* `dropTrailing_append`: a run at the end of a text.
* `endRun`: how often a character stands at the end of a text.
* `Trimmed`: a text that neither begins nor ends with a character of a class.
* `trim_append`: trimming gives such a text back from between runs of the class.
* `mem_trim`: trimming keeps all other characters.
-/

namespace SchemaModels.Text

variable {p : Char → Bool}

/-! ### Runs of characters -/

/-- What is true of the first character of a text, where that character is known. -/
theorem forall_mem_head? {P : Char → Prop} {s : List Char} {c : Char} (hs : s.head? = some c)
    (hc : P c) : ∀ d ∈ s.head?, P d := fun _ hd =>
  Option.some.inj (hs.symm.trans hd) ▸ hc

section runs
variable {a b : List Char} (ha : ∀ c ∈ a, p c = true)
  (hb : ∀ c ∈ b.head?, p c = false)
include ha hb

/-- A run of characters of a class is dropped up to the first other character. -/
theorem dropWhile_append_of_head : (a ++ b).dropWhile p = b := by
  rw [List.dropWhile_append_of_pos ha]
  cases b with
  | nil => rfl
  | cons c b => exact List.dropWhile_cons_of_neg (by rw [hb c rfl]; exact Bool.false_ne_true)

theorem takeWhile_append_of_head : (a ++ b).takeWhile p = a := by
  have h := List.takeWhile_append_dropWhile (p := p) (l := a ++ b)
  rw [dropWhile_append_of_head ha hb] at h
  exact List.append_cancel_right h

end runs

/-- What is cut from the end of a text stands after its last character that is kept. -/
theorem dropTrailing_append {a : List Char}
    (h : ∀ c ∈ a.getLast?, p c = false) (b : List Char) :
    dropTrailing p (a ++ b) = a ++ dropTrailing p b := by
  have hhead : ∀ c ∈ a.reverse.head?, p c = false := by rwa [List.head?_reverse]
  have ha : a.reverse.dropWhile p = a.reverse :=
    dropWhile_append_of_head (a := []) (List.forall_mem_nil _) hhead
  rw [dropTrailing, dropTrailing, List.reverse_append, List.dropWhile_append]
  split
  · rename_i hnil
    rw [List.isEmpty_iff.mp hnil, ha, List.reverse_reverse, List.reverse_nil, List.append_nil]
  · rw [List.reverse_append, List.reverse_reverse]

/-! ### Runs of one character -/

/-- How often a character stands at the end of a text. -/
def endRun (c : Char) (s : List Char) : Nat := (s.reverse.takeWhile (· == c)).length

/-- A text is one that does not end with a character, and a run of the character. -/
theorem exists_eq_append_replicate (c : Char) (s : List Char) :
    ∃ a, a.getLast? ≠ some c ∧ s = a ++ List.replicate (endRun c s) c := by
  refine ⟨dropTrailing (· == c) s, fun h => ?_, ?_⟩
  · have := not_of_getLast?_dropTrailing _ h
    simp at this
  · have hrun : s.reverse.takeWhile (· == c) = List.replicate (endRun c s) c :=
      List.eq_replicate_of_mem fun d hd => by simpa using List.mem_takeWhile_imp hd
    rw [dropTrailing, ← List.reverse_replicate, ← hrun, ← List.reverse_append,
      List.takeWhile_append_dropWhile, List.reverse_reverse]

/-! ### Trimmed texts -/

/-- A text that neither begins nor ends with a character of a class. -/
def Trimmed (p : Char → Bool) (s : List Char) : Prop :=
  (∀ c ∈ s.head?, p c = false) ∧ ∀ c ∈ s.getLast?, p c = false

instance (s : List Char) : Decidable (Trimmed p s) :=
  @instDecidableAnd _ _ (Option.decidableForallMem s.head?) (Option.decidableForallMem s.getLast?)

theorem trimmed_trim (s : List Char) : Trimmed p (trim p s) := by
  refine ⟨fun c hc => ?_, fun c hc => not_of_getLast?_dropTrailing p hc⟩
  obtain ⟨x, hx⟩ := dropTrailing_isPrefix p (s.dropWhile p)
  have hhead : c ∈ (s.dropWhile p).head? := by
    rw [← hx, List.head?_append, show (dropTrailing p (s.dropWhile p)).head? = some c from hc]
    rfl
  have := List.head?_dropWhile_not p s
  rwa [show (s.dropWhile p).head? = some c from hhead] at this

/-- Trimming gives a text back that stands between runs of a class. -/
theorem trim_append {a s b : List Char} (ha : ∀ c ∈ a, p c = true) (hs : Trimmed p s)
    (hb : ∀ c ∈ b, p c = true) : trim p (a ++ (s ++ b)) = s := by
  rw [trim, List.dropWhile_append_of_pos ha]
  cases s with
  | nil =>
      rw [List.nil_append, List.dropWhile_eq_nil_iff.mpr hb]
      rfl
  | cons c s =>
      have hc : ¬p c = true := by rw [hs.1 c rfl]; exact Bool.false_ne_true
      rw [List.cons_append, List.dropWhile_cons_of_neg hc, dropTrailing,
        ← List.cons_append, List.reverse_append]
      have hb' : ∀ d ∈ b.reverse, p d = true := fun d hd => hb d (List.mem_reverse.mp hd)
      have hs' : ∀ d ∈ (c :: s).reverse.head?, p d = false := fun d hd =>
        hs.2 d (by rwa [List.head?_reverse] at hd)
      rw [dropWhile_append_of_head hb' hs', List.reverse_reverse]

theorem exists_eq_dropTrailing_append (s : List Char) :
    ∃ b, s = dropTrailing p s ++ b ∧ ∀ c ∈ b, p c = true := by
  refine ⟨(s.reverse.takeWhile p).reverse, ?_, fun c hc => ?_⟩
  · rw [dropTrailing, ← List.reverse_append, List.takeWhile_append_dropWhile, List.reverse_reverse]
  · exact List.all_eq_true.mp List.all_takeWhile c (List.mem_reverse.mp hc)

/-- Trimming keeps each character outside of the class. -/
theorem mem_trim {s : List Char} {c : Char} (hc : c ∈ s) (hp : p c = false) : c ∈ trim p s := by
  obtain ⟨b, hb, hblank⟩ := exists_eq_dropTrailing_append (p := p) (s.dropWhile p)
  rw [← List.takeWhile_append_dropWhile (p := p) (l := s), hb] at hc
  rcases List.mem_append.mp hc with hc | hc
  · exact absurd (List.mem_takeWhile_imp hc) (by rw [hp]; exact Bool.false_ne_true)
  rcases List.mem_append.mp hc with hc | hc
  · exact hc
  · exact absurd (hblank c hc) (by rw [hp]; exact Bool.false_ne_true)

theorem trimmed_nil : Trimmed p [] := ⟨by simp, by simp⟩

theorem trim_append_left {a s : List Char} (ha : ∀ c ∈ a, p c = true) (hs : Trimmed p s) :
    trim p (a ++ s) = s := by
  have h : trim p (a ++ (s ++ [])) = s := trim_append ha hs fun c hc => absurd hc List.not_mem_nil
  rwa [List.append_nil] at h

theorem trim_of_forall {a : List Char} (ha : ∀ c ∈ a, p c = true) : trim p a = [] := by
  have h : trim p (a ++ []) = [] := trim_append_left ha trimmed_nil
  rwa [List.append_nil] at h

end SchemaModels.Text
