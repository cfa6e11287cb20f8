import Mathlib.Data.List.Infix
import SchemaModels.Proofs.Text.Places
import SchemaModels.Text.Lines

/-!
# Replacing and removing the occurrences of a text

Occurrences are replaced from left to right. Where none reaches over a place, the parts before and
after the place are treated on their own, so removing is followed part by part.

* `replaceAll_induction`: texts taken apart as their occurrences are replaced.
* `replaceAll_append`: the parts before and after a place.
* `replaceAll_eq_self`, `length_remove_lt`: removing changes a text exactly when there is an
  occurrence in it.
* `isInfix_or_of_append`: an occurrence that ends with its only line break reaches over none.
-/

namespace SchemaModels.Text

variable {pattern : List Char}

/-! ### One place -/

section
variable (hne : pattern ≠ [])
include hne

/-- More steps than a text has characters make no difference. -/
theorem replaceWithin_eq (replacement : List Char) : ∀ {steps : Nat} {s : List Char},
    s.length ≤ steps → replaceWithin pattern replacement steps s = replaceAll pattern replacement s
  | 0, s, h => by rw [List.length_eq_zero_iff.mp (Nat.le_zero.mp h)]; rfl
  | _ + 1, [], _ => rfl
  | steps + 1, c :: s, h => by
      have hs : s.length ≤ steps := Nat.le_of_succ_le_succ h
      rw [replaceAll, List.length_cons, replaceWithin, replaceWithin]
      cases hd : dropPrefix? pattern (c :: s) with
      | none =>
          show c :: _ = c :: _
          rw [replaceWithin_eq replacement hs, replaceAll]
      | some rest =>
          have hrest : rest.length ≤ s.length :=
            length_le_of_append_eq_cons hne (dropPrefix?_eq_some_iff.mp hd).symm
          show replacement ++ _ = replacement ++ _
          rw [replaceWithin_eq replacement (Nat.le_trans hrest hs),
            replaceWithin_eq replacement hrest]

theorem replaceAll_append_self (replacement s : List Char) :
    replaceAll pattern replacement (pattern ++ s) =
      replacement ++ replaceAll pattern replacement s := by
  obtain ⟨c, p, rfl⟩ := List.exists_cons_of_ne_nil hne
  have hd : dropPrefix? (c :: p) (c :: (p ++ s)) = some s := dropPrefix?_eq_some_iff.mpr rfl
  rw [List.cons_append, replaceAll, List.length_cons, replaceWithin, hd]
  show replacement ++ _ = _
  rw [replaceWithin_eq hne replacement (by rw [List.length_append]; omega)]

end

theorem replaceAll_cons_of_not {c : Char} {s : List Char} (h : ¬pattern <+: c :: s)
    (replacement : List Char) :
    replaceAll pattern replacement (c :: s) = c :: replaceAll pattern replacement s := by
  have hd : dropPrefix? pattern (c :: s) = none :=
    Option.eq_none_iff_forall_ne_some.mpr fun rest hr =>
      h ⟨rest, (dropPrefix?_eq_some_iff.mp hr).symm⟩
  rw [replaceAll, List.length_cons, replaceWithin, hd]
  rfl

/-- A text is taken apart as its occurrences are replaced: an occurrence at its front, else one
character. -/
theorem replaceAll_induction (hne : pattern ≠ []) {P : List Char → Prop} (nil : P [])
    (occurrence : ∀ s, P s → P (pattern ++ s))
    (cons : ∀ c s, ¬pattern <+: c :: s → P s → P (c :: s)) : ∀ s, P s
  | [] => nil
  | c :: s => by
      by_cases hp : pattern <+: c :: s
      · obtain ⟨t, ht⟩ := hp
        have hlen : t.length ≤ s.length := length_le_of_append_eq_cons hne ht
        rw [← ht]
        exact occurrence t (replaceAll_induction hne nil occurrence cons t)
      · exact cons c s hp (replaceAll_induction hne nil occurrence cons s)
termination_by s => s.length

/-- Replacing a character treats each character on its own. -/
theorem replaceAll_singleton (c : Char) (replacement : List Char) : ∀ s : List Char,
    replaceAll [c] replacement s = s.flatMap fun d => if d = c then replacement else [d]
  | [] => rfl
  | d :: s => by
      rw [List.flatMap_cons, ← replaceAll_singleton c replacement s]
      split
      · rename_i h
        rw [h]
        exact replaceAll_append_self (List.cons_ne_nil c []) replacement s
      · rename_i h
        refine replaceAll_cons_of_not (fun hp => h ?_) replacement
        exact (List.cons_prefix_cons.mp hp).1.symm

/-! ### Parts of a text -/

/-- The parts before and after a place that no occurrence reaches over. -/
theorem replaceAll_append (hne : pattern ≠ []) (replacement : List Char) {b : List Char}
    {a : List Char} (h : ∀ u v, a = u ++ v → v ≠ [] → pattern <+: v ++ b → pattern <+: v) :
    replaceAll pattern replacement (a ++ b) =
      replaceAll pattern replacement a ++ replaceAll pattern replacement b := by
  match a with
  | [] => rfl
  | c :: a =>
      by_cases hp : pattern <+: c :: (a ++ b)
      · obtain ⟨t, ht⟩ := h [] (c :: a) rfl (List.cons_ne_nil c a) hp
        have hlen : t.length ≤ a.length := length_le_of_append_eq_cons hne ht
        have hrec : replaceAll pattern replacement (t ++ b) = _ :=
          replaceAll_append hne replacement fun u v hu =>
            h (pattern ++ u) v (by rw [← ht, hu, List.append_assoc])
        rw [← ht, List.append_assoc, replaceAll_append_self hne, replaceAll_append_self hne, hrec,
          List.append_assoc]
      · have ha : ¬pattern <+: c :: a := fun hpa =>
          hp (hpa.trans (List.prefix_append (c :: a) b))
        have hrec : replaceAll pattern replacement (a ++ b) = _ :=
          replaceAll_append hne replacement fun u v hu => h (c :: u) v (congrArg (c :: ·) hu)
        rw [List.cons_append, replaceAll_cons_of_not hp, replaceAll_cons_of_not ha, hrec,
          List.cons_append]
termination_by a.length

/-- No occurrence reaches over its own first character, if it does not have it elsewhere. -/
theorem replaceAll_append_cons {f : Char} {p : List Char} (hf : f ∉ p)
    (replacement a t : List Char) :
    replaceAll (f :: p) replacement (a ++ f :: t) =
      replaceAll (f :: p) replacement a ++ replaceAll (f :: p) replacement (f :: t) := by
  refine replaceAll_append (List.cons_ne_nil f p) replacement fun u v _ hv hp => ?_
  obtain ⟨x, hx⟩ := hp
  rcases List.append_eq_append_iff.mp hx with ⟨y, rfl, -⟩ | ⟨y, hp, hy⟩
  · exact List.prefix_append _ y
  · cases y with
    | nil => rw [hp, List.append_nil]
    | cons e y =>
        obtain ⟨d, v, rfl⟩ := List.exists_cons_of_ne_nil hv
        obtain ⟨-, rfl⟩ := List.cons.inj hp
        obtain ⟨rfl, -⟩ := List.cons.inj hy
        exact absurd (List.mem_append_right v List.mem_cons_self) hf

/-- A part without the first character of a text has no occurrence of it that begins there. -/
theorem replaceAll_append_of_not_mem {f : Char} {p a : List Char} (ha : f ∉ a)
    (replacement b : List Char) :
    replaceAll (f :: p) replacement (a ++ b) = a ++ replaceAll (f :: p) replacement b := by
  induction a with
  | nil => rfl
  | cons c a ih =>
      obtain ⟨hc, ha⟩ := List.ne_and_not_mem_of_not_mem_cons ha
      have hp : ¬f :: p <+: c :: (a ++ b) := fun h => hc (List.cons_prefix_cons.mp h).1
      rw [List.cons_append, replaceAll_cons_of_not hp, ih ha, List.cons_append]

/-! ### Removing -/

theorem replaceAll_eq_self (replacement : List Char) : ∀ {s : List Char},
    ¬pattern <:+: s → replaceAll pattern replacement s = s
  | [], _ => rfl
  | c :: s, h => by
      rw [List.infix_cons_iff, not_or] at h
      rw [replaceAll_cons_of_not h.1, replaceAll_eq_self replacement h.2]

section
variable (hne : pattern ≠ [])
include hne

theorem length_remove_le (s : List Char) : (replaceAll pattern [] s).length ≤ s.length := by
  induction s using replaceAll_induction hne with
  | nil => exact Nat.le_refl 0
  | occurrence s ih =>
      rw [replaceAll_append_self hne, List.nil_append, List.length_append]
      omega
  | cons c s hp ih =>
      rw [replaceAll_cons_of_not hp]
      exact Nat.succ_le_succ ih

/-- Removing makes a text shorter when there is an occurrence in it. -/
theorem length_remove_lt {s : List Char} (h : pattern <:+: s) :
    (replaceAll pattern [] s).length < s.length := by
  induction s using replaceAll_induction hne with
  | nil => exact absurd (List.infix_nil.mp h) hne
  | occurrence s _ =>
      have hle := length_remove_le hne s
      have hpos : 0 < pattern.length := List.length_pos_iff.mpr hne
      rw [replaceAll_append_self hne, List.nil_append, List.length_append]
      omega
  | cons c s hp ih =>
      rw [replaceAll_cons_of_not hp]
      exact Nat.succ_lt_succ (ih ((List.infix_cons_iff.mp h).resolve_left hp))

end

/-! ### Occurrences -/

/-- An occurrence of a text that ends with its only line break, or another such character, does not
reach over one. -/
theorem isInfix_or_of_append {p a b : List Char} {l : Char} (hl : l ∉ p)
    (ha : a = [] ∨ a.getLast? = some l) (h : p ++ [l] <:+: a ++ b) :
    p ++ [l] <:+: a ∨ p ++ [l] <:+: b := by
  obtain h | h | ⟨x, y, hxy, hx, hy⟩ := List.infix_append_iff.mp h
  · exact Or.inl h
  · exact Or.inr h
  rcases List.eq_nil_or_concat x with rfl | ⟨x, d, rfl⟩
  · exact Or.inr (hxy ▸ hy.isInfix)
  rcases List.eq_nil_or_concat y with rfl | ⟨y, e, rfl⟩
  · exact Or.inl (by rw [hxy, List.append_nil]; exact hx.isInfix)
  · have hd : d = l := by
      obtain ⟨z, rfl⟩ := hx
      rcases ha with ha | ha
      · simp at ha
      · simpa using ha
    rw [@List.concat_eq_append _ y e, ← List.append_assoc] at hxy
    have hp := (List.append_inj' hxy rfl).1
    exact absurd (by rw [hp, hd]; simp) hl

end SchemaModels.Text
