import Mathlib.Data.List.Basic
import Mathlib.Data.List.Nodup
import SchemaModels.Plan.Greedy

/-!
# Turns

What holds of each item of a list together with the items before it, and what the greedy order
does at each turn: it takes the least of the items that are free, given those not taken before.

* `InTurn`: a property of items with what stands before them.
* `InTurn.eq_of_done`: a list is told by what is taken at each turn.
* `Greedy.least?_congr`: the least item does not depend on the order of the list.
* `Greedy.inTurn_order`: each item taken is the least free one at its turn.
-/

namespace SchemaModels

variable {α : Type}

/-! ### Items with what stands before -/

/-- A property of each item of a list with the items before it, some of which are given. -/
def InTurn (P : List α → α → Prop) : List α → List α → Prop
  | _, [] => True
  | before, a :: rest => P before a ∧ InTurn P (before ++ [a]) rest

namespace InTurn
variable {P Q : List α → α → Prop}

theorem append_iff : ∀ {before xs ys : List α},
    InTurn P before (xs ++ ys) ↔ InTurn P before xs ∧ InTurn P (before ++ xs) ys
  | before, [], ys => by simp [InTurn]
  | before, a :: xs, ys => by
      simp only [List.cons_append, InTurn]
      rw [append_iff, List.append_assoc, List.singleton_append, and_assoc]

theorem of_forall_mem : ∀ {before xs : List α}, (∀ before, ∀ a ∈ xs, P before a) →
    InTurn P before xs
  | _, [], _ => trivial
  | _, a :: _, h =>
      ⟨h _ a List.mem_cons_self,
        of_forall_mem fun before b hb => h before b (List.mem_cons_of_mem a hb)⟩

theorem mono : ∀ {before before' xs : List α},
    (∀ pre, ∀ a ∈ xs, P (before ++ pre) a → Q (before' ++ pre) a) →
    InTurn P before xs → InTurn Q before' xs
  | _, _, [], _, _ => trivial
  | before, before', a :: xs, h, hp => by
      refine ⟨?_, mono ?_ hp.2⟩
      · simpa using h [] a List.mem_cons_self (by simpa using hp.1)
      · intro pre b hb
        simpa using h (a :: pre) b (List.mem_cons_of_mem a hb)

theorem of_getElem? : ∀ {before xs : List α} {i : Nat} {a : α},
    InTurn P before xs → xs[i]? = some a → P (before ++ xs.take i) a
  | _, [], _, _, _, h => by simp at h
  | before, b :: xs, 0, a, hp, h => by
      rw [List.getElem?_cons_zero, Option.some.injEq] at h
      subst h
      simpa using hp.1
  | before, b :: xs, i + 1, a, hp, h => by
      rw [List.getElem?_cons_succ] at h
      simpa using of_getElem? hp.2 h

theorem iff_forall_append : ∀ {before xs : List α}, InTurn P before xs ↔
    ∀ pre a post, xs = pre ++ a :: post → P (before ++ pre) a
  | before, [] => by simp [InTurn]
  | before, b :: xs => by
      rw [InTurn, iff_forall_append]
      constructor
      · rintro ⟨hb, hxs⟩ pre a post he
        cases pre with
        | nil =>
            obtain ⟨rfl, _⟩ := List.cons.inj he
            rwa [List.append_nil]
        | cons c pre =>
            obtain ⟨rfl, hrest⟩ := List.cons.inj he
            simpa using hxs pre a post hrest
      · intro h
        refine ⟨by simpa using h [] b xs rfl, fun pre a post he => ?_⟩
        simpa using h (b :: pre) a post (by rw [he, List.cons_append])

/-- Turns of items under other names. -/
theorem map {β : Type} {f : α → β} {Q : List β → β → Prop} {before xs : List α}
    (hp : InTurn P before xs)
    (h : ∀ pre a post, xs = pre ++ a :: post → P (before ++ pre) a →
      Q (before.map f ++ pre.map f) (f a)) : InTurn Q (before.map f) (xs.map f) := by
  rw [iff_forall_append] at hp ⊢
  intro pre' b post' he
  obtain ⟨pre, rest, rfl, rfl, hrest⟩ := List.map_eq_append_iff.mp he
  obtain ⟨a, post, rfl, rfl, rfl⟩ := List.map_eq_cons_iff.mp hrest
  exact h pre a post rfl (hp pre a post rfl)

theorem pairwise {R : α → α → Prop} : ∀ {before xs : List α}, InTurn P before xs →
    (∀ pre a post, xs = pre ++ a :: post → P (before ++ pre) a → ∀ b ∈ post, R a b) →
    xs.Pairwise R
  | _, [], _, _ => List.Pairwise.nil
  | before, a :: xs, hp, h => by
      have hhead : ∀ b ∈ xs, R a b := h [] a xs rfl (by simpa using hp.1)
      refine List.pairwise_cons.mpr ⟨hhead, pairwise hp.2 fun pre b post he hb => ?_⟩
      exact h (a :: pre) b post (by rw [he, List.cons_append]) (by simpa using hb)

/-- A list is told by what is taken at each turn, when it goes on until nothing can be taken. -/
theorem eq_of_done (done : List α → Prop) (hP : ∀ before a b, P before a → P before b → a = b)
    (hdone : ∀ before a, P before a → ¬ done before) : ∀ {before xs ys : List α},
    InTurn P before xs → InTurn P before ys → done (before ++ xs) → done (before ++ ys) → xs = ys
  | _, [], [], _, _, _, _ => rfl
  | before, [], b :: _, _, hy, hx, _ => by
      rw [List.append_nil] at hx
      exact absurd hx (hdone before b hy.1)
  | before, a :: _, [], hx, _, _, hy => by
      rw [List.append_nil] at hy
      exact absurd hy (hdone before a hx.1)
  | before, a :: xs, b :: ys, hx, hy, hxd, hyd => by
      obtain rfl := hP before a b hx.1 hy.1
      rw [List.append_cons] at hxd hyd
      rw [eq_of_done done hP hdone hx.2 hy.2 hxd hyd]

end InTurn

/-! ### The least item -/

namespace Greedy

theorem before_self (a : Key) : before a a = false := by simp [before]

theorem before_asymm {a b : Key} (h : before a b = true) : before b a = false := by
  simp only [before, Bool.or_eq_true, Bool.and_eq_true, decide_eq_true_eq, Bool.or_eq_false_iff,
    Bool.and_eq_false_iff, decide_eq_false_iff_not] at h ⊢
  omega

theorem before_trans {a b c : Key} (h : before a b = true) (h' : before b c = true) :
    before a c = true := by
  simp only [before, Bool.or_eq_true, Bool.and_eq_true, decide_eq_true_eq] at h h' ⊢
  omega

theorem before_of_before_of_not {a b c : Key} (h : before a b = true) (h' : before c b = false) :
    before a c = true := by
  simp only [before, Bool.or_eq_true, Bool.and_eq_true, decide_eq_true_eq, Bool.or_eq_false_iff,
    Bool.and_eq_false_iff, decide_eq_false_iff_not] at h h' ⊢
  omega

theorem eq_of_not_before {a b : Key} (h : before a b = false) (h' : before b a = false) :
    a = b := by
  simp only [before, Bool.or_eq_false_iff, Bool.and_eq_false_iff, decide_eq_false_iff_not]
    at h h'
  exact Prod.ext (by omega) (by omega)

variable (key : α → Key)

/-- Nothing comes before the least item. -/
theorem not_before_least? : ∀ {items : List α} {a : α}, least? key items = some a →
    ∀ b ∈ items, before (key b) (key a) = false
  | [], _, h => by simp [least?] at h
  | c :: rest, a, h => by
      simp only [least?] at h
      intro b hb
      cases hr : least? key rest with
      | none =>
          rw [hr, Option.some.injEq] at h
          rw [(least?_eq_none_iff key).mp hr, List.mem_singleton] at hb
          subst h hb
          exact before_self _
      | some m =>
          have ih := not_before_least? hr
          simp only [hr] at h
          by_cases hm : before (key m) (key c) = true
          · rw [if_pos hm, Option.some.injEq] at h
            subst h
            rcases List.mem_cons.mp hb with rfl | hb
            · exact before_asymm hm
            · exact ih b hb
          · rw [if_neg hm, Option.some.injEq] at h
            subst h
            rcases List.mem_cons.mp hb with rfl | hb
            · exact before_self _
            · -- an item before `c` would come before the least of the rest as well
              apply Bool.eq_false_iff.mpr
              intro hbc
              by_cases hcm : before (key c) (key m) = true
              · exact Bool.eq_false_iff.mp (ih b hb) (before_trans hbc hcm)
              · have he := eq_of_not_before (Bool.eq_false_iff.mpr hm) (Bool.eq_false_iff.mpr hcm)
                exact Bool.eq_false_iff.mp (ih b hb) (he ▸ hbc)

/-- With keys that tell the items apart, the least item depends on the members of a list only. -/
theorem least?_congr {xs ys : List α} (h : ∀ a, a ∈ xs ↔ a ∈ ys)
    (hkey : ∀ a ∈ xs, ∀ b ∈ xs, key a = key b → a = b) : least? key xs = least? key ys := by
  cases hx : least? key xs with
  | none =>
      have hnil := (least?_eq_none_iff key).mp hx
      subst hnil
      refine ((least?_eq_none_iff key).mpr ?_).symm
      exact List.eq_nil_iff_forall_not_mem.mpr fun a ha => List.not_mem_nil ((h a).mpr ha)
  | some a =>
      have ha := mem_of_least? key hx
      cases hy : least? key ys with
      | none =>
          have hnil := (least?_eq_none_iff key).mp hy
          subst hnil
          exact absurd ((h a).mp ha) List.not_mem_nil
      | some b =>
          have hb := (h b).mpr (mem_of_least? key hy)
          have hab := not_before_least? key hy a ((h a).mp ha)
          have hba := not_before_least? key hx b hb
          rw [hkey a ha b hb (eq_of_not_before hab hba)]

/-! ### The greedy order -/

variable (free : List α → α → Bool)

/-- An item is free when it is taken. -/
theorem free_of_least? {left : List α} {a : α} (h : least? key (left.filter (free left)) = some a) :
    free left a = true :=
  (List.mem_filter.mp (mem_of_least? key h)).2

variable [DecidableEq α]

theorem inTurn_orderWithin (items : List α) : ∀ (turns : Nat) (taken : List α),
    InTurn (fun taken a =>
        least? key ((items.diff taken).filter (free (items.diff taken))) = some a)
      taken (orderWithin key free turns (items.diff taken)).1
  | 0, _ => trivial
  | turns + 1, taken => by
      simp only [orderWithin]
      cases h : least? key ((items.diff taken).filter (free (items.diff taken))) with
      | none => trivial
      | some a =>
          have he : (items.diff taken).erase a = items.diff (taken ++ [a]) := by
            rw [List.diff_append, List.diff_cons, List.diff_nil]
          refine ⟨h, ?_⟩
          simp only [he]
          exact inTurn_orderWithin items turns (taken ++ [a])

/-- At each turn the least free item is taken, given the items that are left. -/
theorem inTurn_order (items : List α) :
    InTurn (fun taken a =>
        least? key ((items.diff taken).filter (free (items.diff taken))) = some a)
      [] (order key free items).1 :=
  inTurn_orderWithin key free items items.length []

/-- With keys that tell the items apart, the item taken comes before all the others that are
free. -/
theorem inTurn_order_before {items : List α} (hn : items.Nodup)
    (hkey : ∀ a ∈ items, ∀ b ∈ items, key a = key b → a = b) :
    InTurn (fun taken a => (a ∈ items ∧ a ∉ taken ∧ free (items.diff taken) a = true) ∧
        ∀ b ∈ items, b ∉ taken → free (items.diff taken) b = true → b ≠ a →
          before (key a) (key b) = true)
      [] (order key free items).1 := by
  refine InTurn.mono ?_ (inTurn_order key free items)
  intro taken a _ h
  rw [List.nil_append] at h ⊢
  have hleft : ∀ b, b ∈ (items.diff taken).filter (free (items.diff taken)) ↔
      (b ∈ items ∧ b ∉ taken) ∧ free (items.diff taken) b = true := fun b => by
    rw [List.mem_filter, hn.mem_sdiff_iff]
  have ha := (hleft a).mp (mem_of_least? key h)
  refine ⟨⟨ha.1.1, ha.1.2, ha.2⟩, fun b hb hbt hfree hne => ?_⟩
  have hnot := not_before_least? key h b ((hleft b).mpr ⟨⟨hb, hbt⟩, hfree⟩)
  by_contra hab
  exact hne (hkey b hb a ha.1.1 (eq_of_not_before hnot (Bool.eq_false_iff.mpr hab)))

end Greedy

end SchemaModels
