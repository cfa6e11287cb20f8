/-!
# Lists with one item a key

* `upsert`: an item takes the place of the one with its key, or goes to the end.
* `nodup_upsert`: the keys stay different.
* `find?_upsert`: the item put in is found under its key, the others under theirs.
* `lookup_eq_some_iff`: among pairs with different keys, the pairs are what is looked up.
* `lookup_upsert`: the same for pairs that are looked up.
-/

namespace SchemaModels.Keyed

variable {α κ : Type} [DecidableEq κ] (key : α → κ)

/-- Put an item in the place of the one with its key, or at the end. -/
def upsert (a : α) : List α → List α
  | [] => [a]
  | b :: rest => if key b = key a then a :: rest else b :: upsert a rest

/-- The item with a key. -/
def find? (k : κ) (items : List α) : Option α := items.find? fun a => key a = k

/-- The keys of a list after an item was put into it. -/
theorem map_upsert (a : α) (items : List α) :
    (upsert key a items).map key =
      if key a ∈ items.map key then items.map key else items.map key ++ [key a] := by
  induction items with
  | nil => simp [upsert]
  | cons b rest ih =>
      unfold upsert
      by_cases h : key b = key a
      · simp [h]
      · have h' : ¬key a = key b := fun e => h e.symm
        simp only [if_neg h, List.map_cons, ih, List.mem_cons, h', false_or]
        split <;> simp

theorem find?_upsert (a : α) (k : κ) (items : List α) :
    find? key k (upsert key a items) = if key a = k then some a else find? key k items := by
  induction items with
  | nil => by_cases h : key a = k <;> simp [upsert, find?, h]
  | cons b rest ih =>
      simp only [find?] at ih ⊢
      by_cases h : key b = key a <;> by_cases hk : key a = k <;> by_cases hb : key b = k <;>
        simp_all [upsert]

theorem mem_of_mem_upsert {a b : α} : ∀ {items : List α},
    b ∈ upsert key a items → b = a ∨ b ∈ items
  | [], h => .inl (List.mem_singleton.mp h)
  | c :: rest, h => by
      unfold upsert at h
      split at h
      · exact (List.mem_cons.mp h).imp_right (List.mem_cons_of_mem c)
      · rcases List.mem_cons.mp h with rfl | h
        · exact .inr List.mem_cons_self
        · exact (mem_of_mem_upsert h).imp_right (List.mem_cons_of_mem c)

theorem nodup_upsert (a : α) (items : List α) (h : (items.map key).Nodup) :
    ((upsert key a items).map key).Nodup := by
  rw [map_upsert]
  split
  · exact h
  · rename_i ha
    rw [List.nodup_append]
    refine ⟨h, by simp, ?_⟩
    intro x hx y hy
    simp only [List.mem_singleton] at hy
    subst hy
    exact fun e => ha (e ▸ hx)

/-! ### Pairs -/

section lookup
variable {α κ : Type} [BEq κ] [LawfulBEq κ] {k : κ} {a : α} {pairs : List (κ × α)}

theorem mem_of_lookup (h : pairs.lookup k = some a) : (k, a) ∈ pairs := by
  obtain ⟨before, after, rfl, _⟩ := List.lookup_eq_some_iff.mp h
  simp

theorem lookup_eq_none_iff : pairs.lookup k = none ↔ k ∉ pairs.map Prod.fst := by
  rw [List.lookup_eq_none_iff, List.mem_map]
  simp only [bne_iff_ne, ne_eq, not_exists, not_and]
  exact forall₂_congr fun _ _ => not_congr eq_comm

/-- What stands before a pair does not matter when the keys are different. -/
theorem lookup_eq_some_iff (hn : (pairs.map Prod.fst).Nodup) :
    pairs.lookup k = some a ↔ (k, a) ∈ pairs := by
  refine ⟨mem_of_lookup, fun h => ?_⟩
  obtain ⟨before, after, rfl⟩ := List.append_of_mem h
  refine List.lookup_eq_some_iff.mpr ⟨before, after, rfl, fun p hp => ?_⟩
  rw [List.map_append, List.map_cons, List.nodup_append] at hn
  exact bne_iff_ne.mpr (hn.2.2 p.1 (List.mem_map_of_mem hp) k List.mem_cons_self).symm

/-- After an item was put into a list, it is found under its key, the others under theirs. -/
theorem lookup_upsert [DecidableEq κ] (name key : κ) (a : α) :
    ∀ pairs : List (κ × α), (upsert Prod.fst (name, a) pairs).lookup key =
      if key = name then some a else pairs.lookup key
  | [] => by
      rw [upsert, List.lookup_cons]
      by_cases h : key = name
      · simp [h]
      · simp [h, beq_eq_false_iff_ne.mpr h]
  | (other, b) :: rest => by
      rw [upsert]
      by_cases hother : other = name
      · subst hother
        by_cases h : key = other
        · simp [h]
        · simp [h, List.lookup_cons, beq_eq_false_iff_ne.mpr h]
      · rw [if_neg hother, List.lookup_cons, List.lookup_cons, lookup_upsert name key a rest]
        by_cases h : key = other
        · subst h
          simp [hother]
        · simp [beq_eq_false_iff_ne.mpr h]

end lookup

end SchemaModels.Keyed
