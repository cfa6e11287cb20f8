/-!
# Greedy ordering

Items are taken one after the other: at each turn the least of those that are free, given the
items that are left.

* `order`: the items in the order taken, and those left when none is free. Together they are the
  items (`perm_order`), and none of those left is free (`left_not_free`).
-/

namespace SchemaModels.Greedy

/-- The keys by which items are compared: first by the first part, then by the second. -/
abbrev Key := Nat × Nat

/-- Whether a key comes before another one. -/
def before (a b : Key) : Bool := a.1 < b.1 || (a.1 = b.1 && a.2 < b.2)

variable {α : Type} (key : α → Key)

/-- The least item of a list, the first of several. -/
def least? : List α → Option α
  | [] => none
  | a :: rest =>
      match least? rest with
      | none => some a
      | some b => if before (key b) (key a) then some b else some a

theorem mem_of_least? {items : List α} {a : α} (h : least? key items = some a) : a ∈ items := by
  induction items generalizing a with
  | nil => simp [least?] at h
  | cons b rest ih =>
      simp only [least?] at h
      split at h
      · simp_all
      · rename_i c hc
        have := ih hc
        split at h <;> simp_all

theorem least?_eq_none_iff {items : List α} : least? key items = none ↔ items = [] := by
  cases items with
  | nil => simp [least?]
  | cons b rest =>
      simp only [least?, reduceCtorEq, iff_false]
      split
      · simp
      · split <;> simp

variable [DecidableEq α] (free : List α → α → Bool)

/-- The items taken within a number of turns, and those left. -/
def orderWithin : Nat → List α → List α × List α
  | 0, left => ([], left)
  | turns + 1, left =>
      match least? key (left.filter (free left)) with
      | none => ([], left)
      | some a =>
          let r := orderWithin turns (left.erase a)
          (a :: r.1, r.2)

theorem perm_orderWithin (turns : Nat) (items : List α) :
    ((orderWithin key free turns items).1 ++ (orderWithin key free turns items).2).Perm items := by
  induction turns generalizing items with
  | zero => simp [orderWithin]
  | succ turns ih =>
      simp only [orderWithin]
      split
      · simp
      · rename_i a h
        have ha : a ∈ items := (List.mem_filter.mp (mem_of_least? key h)).1
        exact ((ih _).cons a).trans (List.perm_cons_erase ha).symm

/-- The items in the order taken, and those left when none is free. -/
def order (items : List α) : List α × List α := orderWithin key free items.length items

theorem perm_order (items : List α) :
    ((order key free items).1 ++ (order key free items).2).Perm items :=
  perm_orderWithin key free _ items

theorem filter_left_orderWithin (turns : Nat) (items : List α) (h : items.length ≤ turns) :
    let left := (orderWithin key free turns items).2
    left.filter (free left) = [] := by
  induction turns generalizing items with
  | zero => simp_all [orderWithin]
  | succ turns ih =>
      simp only [orderWithin]
      split
      · rename_i h
        exact (least?_eq_none_iff key).mp h
      · rename_i a ha
        have ha : a ∈ items := (List.mem_filter.mp (mem_of_least? key ha)).1
        exact ih _ (by rw [List.length_erase_of_mem ha]; omega)

/-- None of the items left is free. -/
theorem left_not_free {items : List α} {a : α} (h : a ∈ (order key free items).2) :
    free (order key free items).2 a = false := by
  have := List.filter_eq_nil_iff.mp
    (filter_left_orderWithin key free items.length items (Nat.le_refl _)) a h
  exact Bool.eq_false_iff.mpr this

end SchemaModels.Greedy
