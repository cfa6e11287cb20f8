/-!
# Sorted sets of strings

A set of strings as a list in code point order without repetitions (`sorted`).
-/

namespace SchemaModels.Text

/-- Put a string into its place, unless it is there. -/
def insertSorted (s : String) : List String → List String
  | [] => [s]
  | t :: rest =>
      if s = t then t :: rest else if s < t then s :: t :: rest else t :: insertSorted s rest

/-- The strings of a list in order, each once. -/
def sorted (strings : List String) : List String := strings.foldr insertSorted []

theorem mem_insertSorted {s t : String} {l : List String} :
    s ∈ insertSorted t l ↔ s = t ∨ s ∈ l := by
  induction l with
  | nil => simp [insertSorted]
  | cons u rest ih =>
      unfold insertSorted
      by_cases h : t = u
      · simp [h]
      · by_cases h' : t < u
        · simp [h, h']
        · simp only [if_neg h, if_neg h', List.mem_cons, ih]
          exact or_left_comm

theorem mem_sorted {s : String} {l : List String} : s ∈ sorted l ↔ s ∈ l := by
  induction l with
  | nil => simp [sorted]
  | cons t rest ih =>
      show s ∈ insertSorted t (sorted rest) ↔ _
      rw [mem_insertSorted, ih, List.mem_cons]

end SchemaModels.Text
