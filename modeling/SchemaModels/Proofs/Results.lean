/-!
# Results

Computations that may fail, in a row.

* `bind_eq_ok_iff`, `map_eq_ok_iff`: when a step after another one succeeds.
* `mapM_cons_eq_ok`, `exists_error_of_mapM`: the same for one computation an item of a list.
* `exists_of_mem_mapM`, `exists_mem_of_mapM`: each result is that of an item, and each item has one.
-/

namespace SchemaModels

variable {ε α β : Type}

theorem bind_eq_ok_iff {x : Except ε α} {f : α → Except ε β} {b : β} :
    x >>= f = .ok b ↔ ∃ a, x = .ok a ∧ f a = .ok b := by
  cases x <;> simp [bind, Except.bind]

theorem map_eq_ok_iff {x : Except ε α} {f : α → β} {b : β} :
    x.map f = .ok b ↔ ∃ a, x = .ok a ∧ f a = b := by
  cases x <;> simp [Except.map]

variable {f : α → Except ε β}

theorem mapM_cons_eq_ok {a : α} {as : List α} {bs : List β} :
    (a :: as).mapM f = .ok bs ↔ ∃ b rest, f a = .ok b ∧ as.mapM f = .ok rest ∧ bs = b :: rest := by
  rw [List.mapM_cons]
  cases f a with
  | error e => simp [bind, Except.bind]
  | ok b => cases as.mapM f <;> simp [bind, Except.bind, pure, Except.pure, eq_comm]

theorem mapM_singleton (a : α) : [a].mapM f = (f a).map fun b => [b] := by
  rw [List.mapM_cons, List.mapM_nil]
  cases f a <;> rfl

theorem mapM_eq_ok_nil {as : List α} (h : as.mapM f = .ok []) : as = [] := by
  cases as with
  | nil => rfl
  | cons a as =>
      obtain ⟨b, rest, -, -, hcons⟩ := mapM_cons_eq_ok.mp h
      exact absurd hcons (List.cons_ne_nil b rest).symm

theorem mapM_eq_ok_singleton {as : List α} {b : β} (h : as.mapM f = .ok [b]) :
    ∃ a, as = [a] ∧ f a = .ok b := by
  cases as with
  | nil => simp [pure, Except.pure] at h
  | cons a as =>
      obtain ⟨b', rest, hf, hrest, hcons⟩ := mapM_cons_eq_ok.mp h
      obtain ⟨rfl, rfl⟩ := List.cons.inj hcons
      exact ⟨a, by rw [mapM_eq_ok_nil hrest], hf⟩

/-- The items are the same whether or not it is kept that they are in the list. -/
theorem mapM_attach (as : List α) (f : α → Except ε β) :
    (as.attach.mapM fun a => f a.1) = as.mapM f := by
  change as.attach.mapM (f ∘ Subtype.val) = as.mapM f
  rw [← List.mapM_map, List.attach_map_subtype_val]

theorem exists_of_mem_mapM : ∀ {as : List α} {bs : List β} {b : β}, as.mapM f = .ok bs → b ∈ bs →
    ∃ a ∈ as, f a = .ok b
  | [], bs, b, h, hb => by
      obtain rfl : [] = bs := by simpa [pure, Except.pure] using h
      exact absurd hb List.not_mem_nil
  | a :: as, bs, b, h, hb => by
      obtain ⟨b', rest, hf, hrest, rfl⟩ := mapM_cons_eq_ok.mp h
      rcases List.mem_cons.mp hb with rfl | hb
      · exact ⟨a, List.mem_cons_self, hf⟩
      · obtain ⟨a', ha', hf'⟩ := exists_of_mem_mapM hrest hb
        exact ⟨a', List.mem_cons_of_mem a ha', hf'⟩

theorem exists_mem_of_mapM : ∀ {as : List α} {bs : List β} {a : α}, as.mapM f = .ok bs → a ∈ as →
    ∃ b ∈ bs, f a = .ok b
  | a' :: as, bs, a, h, ha => by
      obtain ⟨b, rest, hf, hrest, rfl⟩ := mapM_cons_eq_ok.mp h
      rcases List.mem_cons.mp ha with rfl | ha
      · exact ⟨b, List.mem_cons_self, hf⟩
      · obtain ⟨b', hb', hf'⟩ := exists_mem_of_mapM hrest ha
        exact ⟨b', List.mem_cons_of_mem b hb', hf'⟩

theorem exists_error_of_mapM : ∀ {as : List α} {e : ε}, as.mapM f = .error e →
    ∃ a ∈ as, f a = .error e
  | [], e, h => by simp [pure, Except.pure] at h
  | a :: as, e, h => by
      rw [List.mapM_cons] at h
      cases hf : f a with
      | error e' =>
          rw [hf] at h
          exact ⟨a, List.mem_cons_self, hf.trans (by simpa [bind, Except.bind] using h)⟩
      | ok b =>
          cases hm : as.mapM f with
          | error e' =>
              rw [hf, hm] at h
              obtain ⟨a', ha', he'⟩ := exists_error_of_mapM hm
              refine ⟨a', List.mem_cons_of_mem a ha', he'.trans ?_⟩
              simpa [bind, Except.bind] using h
          | ok bs =>
              rw [hf, hm] at h
              simp [bind, Except.bind, pure, Except.pure] at h

end SchemaModels
