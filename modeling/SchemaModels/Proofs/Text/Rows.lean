import Mathlib.Data.List.Chain
import SchemaModels.Proofs.Text.Lines

/-!
# Rows of a text

A row ends at a line feed, at a carriage return, or at both in this order, while only a line feed
ends a line.

* `rows`: the rows of a text, which are the lines when its breaks are written as line feeds.
* `rows_append`: rows after a line feed.
* `forall_rows_iff`: all rows begin with a character exactly when it follows each break.
-/

namespace SchemaModels.Text

/-- A line feed for a carriage return. -/
def unified (c : Char) : Char := if c = '\r' then '\n' else c

/-- A text with a line feed for each break. -/
def unifyBreaks : List Char → List Char
  | [] => []
  | '\r' :: '\n' :: s => '\n' :: unifyBreaks s
  | c :: s => unified c :: unifyBreaks s

/-- The rows of a text. -/
def rows (s : List Char) : List (List Char) := lines (unifyBreaks s)

theorem unified_of_ne {c : Char} (hc : c ≠ '\r') : unified c = c := if_neg hc

theorem return_ne_unified (c : Char) : '\r' ≠ unified c := by
  unfold unified
  split
  · decide
  · rename_i hc
    exact Ne.symm hc

theorem return_not_mem_unifyBreaks (s : List Char) : '\r' ∉ unifyBreaks s := by
  fun_induction unifyBreaks s with
  | case1 => exact List.not_mem_nil
  | case2 s ih => simpa using ih
  | case3 c s _ ih =>
      rw [List.mem_cons, not_or]
      exact ⟨return_ne_unified c, ih⟩

theorem unifyBreaks_of_not_mem {s : List Char} (h : '\r' ∉ s) : unifyBreaks s = s := by
  fun_induction unifyBreaks s with
  | case1 => rfl
  | case2 s _ => exact absurd List.mem_cons_self h
  | case3 c s _ ih =>
      obtain ⟨hc, hs⟩ := List.ne_and_not_mem_of_not_mem_cons h
      rw [unified_of_ne (Ne.symm hc), ih hs]

/-- A carriage return and what follows it are apart, unless that is a line feed. -/
theorem unifyBreaks_cons {c : Char} {s : List Char} (h : c = '\r' → s.head? ≠ some '\n') :
    unifyBreaks (c :: s) = unified c :: unifyBreaks s := by
  rw [unifyBreaks.eq_def]
  split
  · rename_i heq
    cases heq
  · rename_i heq
    obtain ⟨rfl, rfl⟩ := List.cons.inj heq
    exact absurd rfl (h rfl)
  · rename_i heq
    obtain ⟨rfl, rfl⟩ := List.cons.inj heq
    rfl

theorem unifyBreaks_append {a : List Char} (h : a.getLast? ≠ some '\r') (b : List Char) :
    unifyBreaks (a ++ b) = unifyBreaks a ++ unifyBreaks b := by
  fun_induction unifyBreaks a with
  | case1 => rfl
  | case2 s ih =>
      have hs : s.getLast? ≠ some '\r' := fun hs =>
        h (List.mem_getLast?_cons (List.mem_getLast?_cons hs))
      exact congrArg ('\n' :: ·) (ih hs)
  | case3 c s hne ih =>
      have hs : s.getLast? ≠ some '\r' := fun hs => h (List.mem_getLast?_cons hs)
      rw [List.cons_append, unifyBreaks_cons, ih hs, List.cons_append]
      rintro rfl hhead
      cases s with
      | nil => exact h rfl
      | cons d s =>
          obtain rfl : d = '\n' := Option.some.inj hhead
          exact hne s rfl rfl

/-- A line feed at the end stays there. -/
theorem getLast?_unifyBreaks {s : List Char} (h : s.getLast? = some '\n') :
    (unifyBreaks s).getLast? = some '\n' := by
  fun_induction unifyBreaks s with
  | case1 => exact h
  | case2 s ih =>
      cases s with
      | nil => rfl
      | cons c s => exact List.mem_getLast?_cons (ih h)
  | case3 c s _ ih =>
      cases s with
      | nil =>
          obtain rfl : c = '\n' := Option.some.inj h
          rfl
      | cons d s => exact List.mem_getLast?_cons (ih h)

/-- The rows after a line feed are those of the rest. -/
theorem rows_append {a : List Char} (h : a = [] ∨ a.getLast? = some '\n') (b : List Char) :
    rows (a ++ b) = rows a ++ rows b := by
  rcases h with rfl | h
  · rfl
  · have hlast : a.getLast? ≠ some '\r' := by
      rw [h]
      decide
    obtain ⟨u, hu⟩ := List.getLast?_eq_some_iff.mp (getLast?_unifyBreaks h)
    rw [rows, rows, rows, unifyBreaks_append hlast, hu, List.append_assoc]
    exact lines_append_break u (unifyBreaks b)

/-- A row begins as the text does. -/
theorem exists_rows_eq_cons {a : List Char} (hbreak : '\n' ∉ a) (hreturn : '\r' ∉ a) {c : Char}
    (hc : c ≠ '\n') (hr : c ≠ '\r') (s : List Char) :
    ∃ w rest, rows (a ++ c :: s) = (a ++ c :: w) :: rest := by
  have hlast : a.getLast? ≠ some '\r' := fun h => hreturn (List.mem_of_getLast? h)
  rw [rows, unifyBreaks_append hlast, unifyBreaks_of_not_mem hreturn,
    unifyBreaks_cons fun h => absurd h hr, unified_of_ne hr]
  exact exists_lines_eq_cons hbreak hc hr _

/-! ### Beginnings of rows -/

/-- A character that comes after each line feed. -/
def FollowsFeed (x c d : Char) : Prop := c = '\n' → d = x

/-- A character that comes after each break. The line feed of a break belongs to it. -/
def FollowsBreak (x c d : Char) : Prop := (c = '\n' → d = x) ∧ (c = '\r' → d = x ∨ d = '\n')

instance (x : Char) : DecidableRel (FollowsBreak x) := fun _ _ =>
  inferInstanceAs (Decidable (_ ∧ _))

/-- A carriage return and a line feed are one break. -/
theorem followsBreak_return_feed (x : Char) : FollowsBreak x '\r' '\n' :=
  ⟨fun h => absurd h (by decide), fun _ => .inr rfl⟩

/-- Nothing is asked where no line feed stands. -/
theorem isChain_of_not_mem {x : Char} {s : List Char} (h : '\n' ∉ s) :
    s.IsChain (FollowsFeed x) :=
  List.isChain_iff_forall_rel_of_append_cons_cons.mpr fun _ _ u _ heq hc =>
    absurd (heq ▸ hc ▸ List.mem_append_right u List.mem_cons_self) h

theorem forall_head?_iff {x : Char} (a : List Char) :
    (∀ d ∈ a.head?, FollowsFeed x '\n' d) ↔ a = [] ∨ a.head? = some x := by
  cases a <;> simp [FollowsFeed]

/-- All lines begin with a character when it follows each line feed and one before the text. -/
theorem forall_lines_iff {x : Char} (hx : x ≠ '\n') {s : List Char} (hreturn : '\r' ∉ s) :
    (∀ row ∈ lines s, row.head? = some x) ↔ ('\n' :: s).IsChain (FollowsFeed x) := by
  by_cases hmem : '\n' ∈ s
  · -- The first line feed ends the first line and stands before the rest of the text.
    obtain ⟨a, b, rfl, ha⟩ := List.eq_append_cons_of_mem hmem
    have hreturns : '\r' ∉ a ∧ '\r' ∉ b := by simpa using hreturn
    rw [lines_append ha, withoutReturn_of_not_mem hreturns.1, List.forall_mem_cons,
      forall_lines_iff hx hreturns.2, List.isChain_cons_split, List.isChain_cons, forall_head?_iff]
    refine and_congr_left fun _ => ?_
    cases a with
    | nil => simpa [FollowsFeed] using Ne.symm hx
    | cons c a =>
        have hline : (c :: a ++ ['\n']).IsChain (FollowsFeed x) :=
          (isChain_of_not_mem ha).append (List.isChain_singleton _) fun d hd _ _ hfeed =>
            absurd (hfeed ▸ List.mem_of_getLast? hd) ha
        rw [List.isChain_cons, and_iff_left hline, List.cons_append, forall_head?_iff]
        simp
  · rw [lines_of_not_mem hmem, List.isChain_cons, forall_head?_iff,
      and_iff_left (isChain_of_not_mem hmem)]
    cases s <;> simp
termination_by s.length

theorem head?_unifyBreaks (s : List Char) : (unifyBreaks s).head? = s.head?.map unified := by
  fun_induction unifyBreaks s <;> rfl

theorem followsFeed_unified {x c d : Char} (hx : x ≠ '\n') (hr : x ≠ '\r')
    (h : c = '\r' → d ≠ '\n') : FollowsFeed x (unified c) (unified d) ↔ FollowsBreak x c d := by
  unfold FollowsFeed FollowsBreak unified
  grind

/-- What follows a break in a text follows it when the text is unified. -/
theorem forall_head?_unifyBreaks {x c : Char} (hx : x ≠ '\n') (hr : x ≠ '\r') {s : List Char}
    (h : c = '\r' → s.head? ≠ some '\n') :
    (∀ d ∈ (unifyBreaks s).head?, FollowsFeed x (unified c) d) ↔
      ∀ d ∈ s.head?, FollowsBreak x c d := by
  rw [head?_unifyBreaks]
  cases s with
  | nil => simp
  | cons d s =>
      have hd : c = '\r' → d ≠ '\n' := fun hc hd => h hc (congrArg some hd)
      simpa using followsFeed_unified hx hr hd

theorem isChain_unifyBreaks {x : Char} (hx : x ≠ '\n') (hr : x ≠ '\r') (s : List Char) :
    (unifyBreaks s).IsChain (FollowsFeed x) ↔ s.IsChain (FollowsBreak x) := by
  fun_induction unifyBreaks s with
  | case1 => exact ⟨fun _ => .nil, fun _ => .nil⟩
  | case2 s ih =>
      rw [List.isChain_cons_cons, and_iff_right (followsBreak_return_feed x), List.isChain_cons,
        List.isChain_cons, ih]
      exact and_congr_left fun _ =>
        forall_head?_unifyBreaks (c := '\n') hx hr fun h => absurd h (by decide)
  | case3 c s hne ih =>
      rw [List.isChain_cons, List.isChain_cons, ih]
      refine and_congr_left fun _ => forall_head?_unifyBreaks hx hr fun hc hhead => ?_
      obtain ⟨s, rfl⟩ := List.head?_eq_some_iff.mp hhead
      exact hne s hc rfl

/-- All rows begin with a character when it follows each break and one before the text. -/
theorem forall_rows_iff {x : Char} (hx : x ≠ '\n') (hr : x ≠ '\r') (s : List Char) :
    (∀ row ∈ rows s, row.head? = some x) ↔ ('\n' :: s).IsChain (FollowsBreak x) := by
  rw [rows, forall_lines_iff hx (return_not_mem_unifyBreaks s), ← isChain_unifyBreaks hx hr]
  rfl

end SchemaModels.Text
