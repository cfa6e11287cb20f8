import Mathlib.Data.Finset.Prod
import Mathlib.Order.Monotone.Basic
import SchemaModels.Proofs.Canonical.Outcome
import SchemaModels.Proofs.Spec.Extent

/-!
# How long readings take

A reading only asks for readings of parts of the value, or of values stored in the table, at places
of the table. There are finitely many such pairs. With every further step some pair gets its
answer, unless no pair does from then on; so the bound of `Table.readingBound` loses nothing.

* `outcome_readWithin_of_le`: more steps than the bound change nothing.
* `outcome_reading`: a bounded reading is one step from bounded readings, so the bound is not
  seen from outside.
* `reading_eq_endless_iff`: a bounded reading does not end only when no number of steps suffices.
-/

namespace SchemaModels

open Canonical

namespace Table
variable {t : Table}

/-! ### Calls stay in the table -/

/-- Whether a place is one of the table. The name of no definition counts, since nothing is asked
for there. -/
def Has (t : Table) : Place → Prop
  | .definition _ => True
  | .spec s => s ∈ t.specs

theorem has_definition (t : Table) (name : String) : t.Has (.definition name) := trivial

/-- The parts of a value, and those of the values in the table. -/
def partsWith (t : Table) (v : Json) : List Json := v.parts ++ t.stored

theorem mem_partsWith_self (t : Table) (v : Json) : v ∈ t.partsWith v :=
  List.mem_append_left _ v.mem_parts_self

theorem mem_partsWith_of_mem_parts {root v w : Json} (hw : w ∈ v.parts)
    (h : v ∈ t.partsWith root) : w ∈ t.partsWith root := by
  rcases List.mem_append.mp h with h | h
  · exact List.mem_append_left _ (Json.mem_parts_trans hw h)
  · obtain ⟨s, hs, u, hu, hv⟩ := Spec.mem_storedParts.mp h
    exact List.mem_append_right _
      (Spec.mem_storedParts.mpr ⟨s, hs, u, hu, Json.mem_parts_trans hw hv⟩)

theorem mem_stored {s : Spec} (hs : s ∈ t.specs) {v : Json} (hv : v ∈ s.values) : v ∈ t.stored :=
  Spec.mem_storedParts.mpr ⟨s, hs, v, hv, v.mem_parts_self⟩

theorem mem_values_of_impliedValue {s : Spec} {required : Bool} {v : Json}
    (h : impliedValue s required = some v) : v ∈ s.values := by
  unfold impliedValue at h
  split at h
  · rename_i value hd
    obtain rfl : value = v := by split at h <;> simp_all
    simp [Spec.values, hd]
  · rename_i value hd hs
    obtain rfl : value = v := by split at h <;> simp_all
    simp [Spec.values, hs, Shape.asConst?]
  · cases h

/-- The value of a field is given or stored. -/
theorem mem_of_fieldValue {given : Entries} {f : String} {s : Spec} {required : Bool} {v : Json}
    (h : fieldValue (Entries.get? given f) s required = some v) :
    (Entries.get? given f = some v ∧ v.isNull = false) ∨ v ∈ s.values := by
  rcases Option.or_eq_some_iff.mp h with h | ⟨_, h⟩
  · obtain ⟨hg, hn⟩ := Option.filter_eq_some_iff.mp h
    exact .inl ⟨hg, by simpa using hn⟩
  · exact .inr (mem_values_of_impliedValue h)

theorem has_of_calls {place place' : Place} {v w : Json} (h : Calls t place v place' w)
    (hp : t.Has place) : t.Has place' := by
  cases h with
  | field hd hk hf _ => exact mem_specs_of_field hd hk hf
  | member => trivial
  | typeAlias hd hk => exact mem_specs_of_typeAlias hd hk
  | item hs _ => exact mem_specs_of_inner hp (by simp [hs, Shape.inner])
  | element hs hv =>
      exact mem_specs_of_inner hp (by simpa [hs, Shape.inner] using (List.of_mem_zip hv).1)
  | entry hs _ => exact mem_specs_of_inner hp (by simp [hs, Shape.inner])
  | reference => trivial
  | tagged => trivial
  | alternative hs hc => exact mem_specs_of_inner hp (by simpa [hs, Shape.inner] using hc)

theorem mem_partsWith_of_calls {place place' : Place} {v w root : Json}
    (h : Calls t place v place' w) (hv : v ∈ t.partsWith root) : w ∈ t.partsWith root := by
  cases h with
  | field hd hk hf hw =>
      rcases mem_of_fieldValue hw with ⟨hg, _⟩ | hs
      · exact mem_partsWith_of_mem_parts
          (Json.mem_parts_of_entry (Keyed.mem_of_lookup hg)) hv
      · exact List.mem_append_right _ (mem_stored (mem_specs_of_field hd hk hf) hs)
  | item _ hw => exact mem_partsWith_of_mem_parts (Json.mem_parts_of_mem hw) hv
  | element _ hw =>
      exact mem_partsWith_of_mem_parts (Json.mem_parts_of_mem (List.of_mem_zip hw).2) hv
  | entry _ he => exact mem_partsWith_of_mem_parts (Json.mem_parts_of_entry he) hv
  | _ => exact hv

/-! ### The bound -/

/-- Nothing is asked for at the name of no definition. -/
theorem outcome_readWithin_unknown {name : String} (h : t.get? name = none) (n : Nat) (v : Json)
    (p : Path) : outcome (readWithin t (n + 1) (.definition name) v p) = .refused := by
  rw [readWithin, readPlace, readDefinition, h]
  rfl

section bound
open Classical
variable (t) (root : Json)

/-- The places of a table that hold something. -/
def readingPlaces : List Place := t.names.map Place.definition ++ t.specs.map Place.spec

/-- What readings of a value, and of its parts, can ask for. -/
noncomputable def pairs : Finset (Place × Json) :=
  t.readingPlaces.toFinset ×ˢ (t.partsWith root).toFinset

theorem card_pairs_le : (t.pairs root).card ≤ t.extent.specs * (root.size + t.extent.values) := by
  have hplaces : t.readingPlaces.toFinset.card ≤ t.extent.specs := by
    refine (List.toFinset_card_le _).trans ?_
    simp [readingPlaces, names, extent_eq]
  have hparts : (t.partsWith root).toFinset.card ≤ root.size + t.extent.values := by
    refine (List.toFinset_card_le _).trans ?_
    simp [partsWith, Json.length_parts, extent_eq]
  rw [pairs, Finset.card_product]
  exact Nat.mul_le_mul hplaces hparts

/-- The pairs that are answered within a number of steps. -/
noncomputable def answered (n : Nat) : Finset (Place × Json) :=
  (t.pairs root).filter fun s => outcome (readWithin t n s.1 s.2 []) ≠ .endless

variable {t root}

theorem mem_pairs {place : Place} {v : Json} :
    (place, v) ∈ t.pairs root ↔ place ∈ t.readingPlaces ∧ v ∈ t.partsWith root := by
  simp [pairs]

theorem mem_answered {n : Nat} {place : Place} {v : Json} :
    (place, v) ∈ t.answered root n ↔
      (place, v) ∈ t.pairs root ∧ outcome (readWithin t n place v []) ≠ .endless :=
  Finset.mem_filter

theorem mem_readingPlaces {place : Place} (h : t.Has place) :
    place ∈ t.readingPlaces ∨ ∃ name, place = .definition name ∧ t.get? name = none := by
  cases place with
  | definition name =>
      cases hd : t.get? name with
      | none => exact .inr ⟨name, rfl, hd⟩
      | some d =>
          refine .inl (List.mem_append_left _ (List.mem_map_of_mem (mem_names.mpr ⟨d, ?_⟩)))
          exact get?_eq_some_iff.mp hd
  | spec s => exact .inl (List.mem_append_right _ (List.mem_map_of_mem h))

theorem has_of_mem_readingPlaces {place : Place} (h : place ∈ t.readingPlaces) : t.Has place := by
  rcases List.mem_append.mp h with h | h
  · obtain ⟨name, _, rfl⟩ := List.mem_map.mp h
    trivial
  · obtain ⟨s, hs, rfl⟩ := List.mem_map.mp h
    exact hs

theorem answered_subset {n m : Nat} (h : n ≤ m) : t.answered root n ⊆ t.answered root m := by
  rintro ⟨place, v⟩ hs
  obtain ⟨hmem, hne⟩ := mem_answered.mp hs
  refine mem_answered.mpr ⟨hmem, ?_⟩
  rwa [Outcome.eq_of_le (outcome_readWithin_mono h place v [] []) hne]

/-- When the same pairs are answered, the outcomes are the same. -/
theorem outcome_eq_of_answered_eq {n : Nat} (h : t.answered root n = t.answered root (n + 1))
    {place : Place} {v : Json} (hs : (place, v) ∈ t.pairs root) (p p' : Path) :
    outcome (readWithin t n place v p) = outcome (readWithin t (n + 1) place v p') := by
  rw [outcome_readWithin_path n place v p [], outcome_readWithin_path (n + 1) place v p' []]
  by_cases hend : outcome (readWithin t n place v []) = .endless
  · have hnot : (place, v) ∉ t.answered root (n + 1) := by
      rw [← h]
      exact fun hmem => (mem_answered.mp hmem).2 hend
    have hend' : outcome (readWithin t (n + 1) place v []) = .endless := by
      by_contra hne
      exact hnot (mem_answered.mpr ⟨hs, hne⟩)
    rw [hend, hend']
  · exact (Outcome.eq_of_le (outcome_readWithin_succ n place v [] []) hend).symm

/-- A step that answers no pair is followed by one that answers none. -/
theorem answered_succ_eq {n : Nat} (h : t.answered root (n + 1) = t.answered root (n + 2)) :
    t.answered root (n + 2) = t.answered root (n + 3) := by
  refine Finset.filter_congr fun s hs => ?_
  obtain ⟨place, v⟩ := s
  obtain ⟨hplace, hv⟩ := mem_pairs.mp hs
  have heq : outcome (readWithin t (n + 2) place v []) =
      outcome (readWithin t (n + 3) place v []) := by
    refine outcome_readPlace_congr (fun place' w hc p p' => ?_) [] []
    rcases mem_readingPlaces (has_of_calls hc (has_of_mem_readingPlaces hplace)) with
      hp | ⟨name, rfl, hd⟩
    · exact outcome_eq_of_answered_eq h (mem_pairs.mpr ⟨hp, mem_partsWith_of_calls hc hv⟩) p p'
    · rw [outcome_readWithin_unknown hd, outcome_readWithin_unknown hd]
  rw [heq]

/-- All pairs that are ever answered are so within the bound. -/
theorem answered_eq {n : Nat} (h : t.readingBound root ≤ n) :
    t.answered root n = t.answered root (t.readingBound root) := by
  have hbound : t.readingBound root = t.extent.specs * (root.size + t.extent.values) + 1 := rfl
  have hcard := Nat.stabilises_of_monotone (f := fun n => (t.answered root (n + 1)).card)
    (b := t.extent.specs * (root.size + t.extent.values)) (n := n - 1)
    (fun _ _ hle => Finset.card_le_card (answered_subset (by omega)))
    (fun m => (Finset.card_filter_le _ _).trans (card_pairs_le t root))
    (fun m hm => by
      have heq := Finset.eq_of_subset_of_card_le (answered_subset (by omega)) hm.ge
      exact congrArg Finset.card (answered_succ_eq heq))
    (by omega)
  have hn : n - 1 + 1 = n := by omega
  simp only [hn, ← hbound] at hcard
  exact (Finset.eq_of_subset_of_card_le (answered_subset h) hcard.le).symm

end bound

/-- More steps than the bound change nothing. -/
theorem outcome_readWithin_of_le {root : Json} {place : Place} {v : Json} {n : Nat}
    (hp : t.Has place) (hv : v ∈ t.partsWith root) (hn : t.readingBound root ≤ n) (p p' : Path) :
    outcome (readWithin t n place v p) =
      outcome (readWithin t (t.readingBound root) place v p') := by
  rcases mem_readingPlaces hp with hplace | ⟨name, rfl, hd⟩
  · rw [outcome_readWithin_path n place v p []]
    have hle := outcome_readWithin_mono (t := t) hn place v p' []
    by_cases hend : outcome (readWithin t n place v []) = .endless
    · rw [hend] at hle ⊢
      exact (hle.elim id id).symm
    · have hmem : (place, v) ∈ t.answered root (t.readingBound root) := by
        rw [← answered_eq hn]
        exact mem_answered.mpr ⟨mem_pairs.mpr ⟨hplace, hv⟩, hend⟩
      refine Outcome.eq_of_le hle ?_
      rw [outcome_readWithin_path _ place v p' []]
      exact (mem_answered.mp hmem).2
  · obtain ⟨m, rfl⟩ : ∃ m, n = m + 1 := ⟨n - 1, by rw [readingBound] at hn; omega⟩
    rw [outcome_readWithin_unknown hd, readingBound, outcome_readWithin_unknown hd]

/-! ### Bounded readings -/

/-- The reading of a value at a place, within the bound. -/
def reading (t : Table) (place : Place) (v : Json) (path : Path) : Reading :=
  readWithin t (t.readingBound v) place v path

/-- Whatever is asked for on the way is read as it is on its own. -/
theorem outcome_readWithin_eq_reading {root : Json} {place : Place} {v : Json} {n : Nat}
    (hp : t.Has place) (hv : v ∈ t.partsWith root) (hn : t.readingBound root ≤ n) (p p' : Path) :
    outcome (readWithin t n place v p) = outcome (t.reading place v p') := by
  have hself := t.mem_partsWith_self v
  rw [outcome_readWithin_of_le hp hv hn p p',
    ← outcome_readWithin_of_le hp hv (le_max_left _ (t.readingBound v)) p p',
    outcome_readWithin_of_le hp hself (le_max_right (t.readingBound root) _) p p']
  rfl

/-- A reading that ends within any number of steps ends within the bound. -/
theorem outcome_reading_of_readWithin {place : Place} {v : Json} {n : Nat} {p p' : Path}
    (hp : t.Has place) (h : outcome (readWithin t n place v p) ≠ .endless) :
    outcome (t.reading place v p') = outcome (readWithin t n place v p) := by
  have hmax := outcome_readWithin_eq_reading hp (t.mem_partsWith_self v)
    (le_max_right n (t.readingBound v)) p p'
  rw [← hmax]
  exact Outcome.eq_of_le (outcome_readWithin_mono (le_max_left n (t.readingBound v)) place v p p) h

/-- A bounded reading is one step from bounded readings. -/
theorem outcome_reading {place : Place} {v : Json} (hp : t.Has place) (p p' : Path) :
    outcome (t.reading place v p) = outcome (readPlace t t.reading place v p') := by
  have hself := t.mem_partsWith_self v
  rw [← outcome_readWithin_eq_reading hp hself (Nat.le_succ _) p p]
  refine outcome_readPlace_congr (fun place' w hc q q' => ?_) p p'
  exact outcome_readWithin_eq_reading (has_of_calls hc hp) (mem_partsWith_of_calls hc hself) le_rfl
    q q'

/-- A bounded reading does not end only when no number of steps suffices. -/
theorem reading_eq_endless_iff {place : Place} {v : Json} {p : Path} (hp : t.Has place) :
    t.reading place v p = .error .endless ↔ ∀ n, readWithin t n place v p = .error .endless := by
  simp only [← outcome_eq_endless]
  constructor
  · intro h n
    by_contra hne
    exact hne ((outcome_reading_of_readWithin hp hne).symm.trans h)
  · exact fun h => h _

end Table

end SchemaModels
