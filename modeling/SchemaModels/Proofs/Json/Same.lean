import Mathlib.Data.List.Perm.Subperm
import SchemaModels.Proofs.Json.Parts

/-!
# Equality of values

Two values are the same when they are equal up to the order of keys and the sign of a zero. The
entries of the first object decide, so that a repeated key could make the order of the two matter.

* `Matches`, `matches_of_same`: values that are the same are of one kind, with parts that are.
* `same_trans`: two values that are the same as a third are linked by it, in this order.
* `same_symm`: the order of two values does not matter if the first repeats no key.
-/

namespace SchemaModels

namespace Binary64

theorem same_symm {x y : Binary64} (h : x.same y = true) : y.same x = true := by
  simp only [same, Bool.or_eq_true, beq_iff_eq, Bool.and_eq_true] at h ⊢
  exact h.imp Eq.symm And.symm

theorem same_trans {x y z : Binary64} (h : x.same y = true) (h' : y.same z = true) :
    x.same z = true := by
  simp only [same, Bool.or_eq_true, beq_iff_eq, Bool.and_eq_true] at h h' ⊢
  rcases h with rfl | ⟨hx, hy⟩
  · exact h'
  · rcases h' with rfl | ⟨_, hz⟩
    · exact .inr ⟨hx, hy⟩
    · exact .inr ⟨hx, hz⟩

end Binary64

namespace Number

theorem same_symm {m n : Number} (h : m.same n = true) : n.same m = true := by
  cases m <;> cases n <;> simp only [same, beq_iff_eq, Bool.false_eq_true] at h ⊢
  · exact h.symm
  · exact Binary64.same_symm h

theorem same_trans {k m n : Number} (h : k.same m = true) (h' : m.same n = true) :
    k.same n = true := by
  cases k <;> cases m <;> cases n <;> simp only [same, beq_iff_eq, Bool.false_eq_true] at h h' ⊢
  · exact h.trans h'
  · exact Binary64.same_trans h h'

end Number

namespace Json

/-! ### Items and entries -/

theorem sameItems_iff {xs ys : List Json} :
    sameItems xs ys = true ↔ List.Forall₂ (fun x y => x.same y = true) xs ys := by
  induction xs generalizing ys with
  | nil => cases ys <;> simp [sameItems]
  | cons x xs ih =>
      cases ys with
      | nil => simp [sameItems]
      | cons y ys => rw [sameItems, Bool.and_eq_true, ih, List.forall₂_cons]

theorem sameEntries_iff {es fs : Entries} :
    sameEntries es fs = true ↔
      ∀ e ∈ es, ∃ w, Entries.get? fs e.1 = some w ∧ e.2.same w = true := by
  induction es with
  | nil => simp [sameEntries]
  | cons e es ih =>
      rw [sameEntries, Bool.and_eq_true, ih, List.forall_mem_cons]
      refine and_congr_left fun _ => ?_
      cases Entries.get? fs e.1 <;> simp

theorem same_array {xs ys : List Json} :
    (array xs).same (array ys) = true ↔ List.Forall₂ (fun x y => x.same y = true) xs ys := by
  rw [same, sameItems_iff]

theorem same_object {es fs : Entries} :
    (object es).same (object fs) = true ↔ es.length = fs.length ∧
      ∀ e ∈ es, ∃ w, Entries.get? fs e.1 = some w ∧ e.2.same w = true := by
  rw [same, Bool.and_eq_true, beq_iff_eq, sameEntries_iff]

/-! ### Kinds of values -/

/-- Two values of one kind: scalars that are the same, lists whose items are the same place by
place, or objects that are the same. -/
inductive Matches : Json → Json → Prop
  | null : Matches null null
  | bool (b : Bool) : Matches (bool b) (bool b)
  | number {m n : Number} (h : m.same n = true) : Matches (number m) (number n)
  | string (s : String) : Matches (string s) (string s)
  | array {xs ys : List Json} (h : List.Forall₂ (fun x y => x.same y = true) xs ys) :
      Matches (array xs) (array ys)
  | object {es fs : Entries} (h : (object es).same (object fs) = true) :
      Matches (object es) (object fs)

theorem matches_of_same {v w : Json} (h : v.same w = true) : Matches v w := by
  cases v with
  | null =>
      cases w with
      | null => exact .null
      | _ => cases h
  | bool a =>
      cases w with
      | bool b =>
          obtain rfl : a = b := beq_iff_eq.mp h
          exact .bool a
      | _ => cases h
  | number m =>
      cases w with
      | number n => exact .number h
      | _ => cases h
  | string s =>
      cases w with
      | string t =>
          obtain rfl : s = t := beq_iff_eq.mp h
          exact .string s
      | _ => cases h
  | array xs =>
      cases w with
      | array ys => exact .array (same_array.mp h)
      | _ => simp [same] at h
  | object es =>
      cases w with
      | object fs => exact .object h
      | _ => simp [same] at h

theorem isNull_of_same {v w : Json} (h : v.same w = true) : v.isNull = w.isNull := by
  cases matches_of_same h <;> rfl

/-! ### Reflexivity -/

theorem same_self {v : Json} (hv : v.Distinct) : v.same v = true := by
  induction v using induct with
  | null => rfl
  | bool b => exact beq_self_eq_true b
  | string s => exact beq_self_eq_true s
  | number n => cases n <;> simp [same, Number.same, Binary64.same]
  | array items ih =>
      rw [same_array, List.forall₂_same]
      exact fun v hmem => ih v hmem (hv.of_mem_parts (mem_parts_of_mem hmem))
  | object entries ih =>
      rw [same_object]
      refine ⟨rfl, fun e he => ⟨e.2, ?_, ih e he (hv.of_mem_parts (mem_parts_of_entry he))⟩⟩
      exact (Keyed.lookup_eq_some_iff hv.nodup).mpr he

/-! ### Transitivity -/

theorem same_trans {u v w : Json} (h : u.same v = true) (h' : v.same w = true) :
    u.same w = true := by
  induction u using induct generalizing v w with
  | null =>
      cases matches_of_same h
      exact h'
  | bool a =>
      cases matches_of_same h
      exact h'
  | string s =>
      cases matches_of_same h
      exact h'
  | number k =>
      cases matches_of_same h with
      | number hkm =>
          cases matches_of_same h' with
          | number hmn => exact Number.same_trans hkm hmn
  | array xs ih =>
      cases matches_of_same h with
      | array hxy =>
          cases matches_of_same h' with
          | @array _ zs hyz =>
              clear h h'
              rw [same_array]
              induction hxy generalizing zs with
              | nil => exact hyz
              | cons hxy _ ihr =>
                  cases hyz with
                  | cons hyz hrest =>
                      obtain ⟨ihx, ihxs⟩ := List.forall_mem_cons.mp ih
                      exact .cons (ihx hxy hyz) (ihr ihxs hrest)
  | object es ih =>
      cases matches_of_same h with
      | object =>
          cases matches_of_same h' with
          | object =>
              rw [same_object] at h h' ⊢
              refine ⟨h.1.trans h'.1, fun e he => ?_⟩
              obtain ⟨x, hx, hex⟩ := h.2 e he
              obtain ⟨y, hy, hxy⟩ := h'.2 _ (Keyed.mem_of_lookup hx)
              exact ⟨y, hy, ih e he hex hxy⟩

/-! ### Symmetry -/

/-- When the entries of one object are among those of another of the same length, the keys of both
are those of either. -/
theorem perm_keys {es fs : Entries} (hn : (es.map Prod.fst).Nodup) (hlen : es.length = fs.length)
    (h : ∀ e ∈ es, e.1 ∈ fs.map Prod.fst) : (es.map Prod.fst).Perm (fs.map Prod.fst) := by
  have hsub : es.map Prod.fst ⊆ fs.map Prod.fst := by
    intro k hk
    obtain ⟨e, he, rfl⟩ := List.mem_map.mp hk
    exact h e he
  exact (hn.subperm hsub).perm_of_length_le (by simp [hlen])

theorem same_symm {u v : Json} (hu : u.Distinct) (h : u.same v = true) : v.same u = true := by
  induction u using induct generalizing v with
  | null =>
      cases matches_of_same h
      exact h
  | bool a =>
      cases matches_of_same h
      exact h
  | string s =>
      cases matches_of_same h
      exact h
  | number m =>
      cases matches_of_same h with
      | number hmn => exact Number.same_symm hmn
  | array xs ih =>
      cases matches_of_same h with
      | array hxy =>
          have hx : ∀ x ∈ xs, x.Distinct := fun x hx => hu.of_mem_parts (mem_parts_of_mem hx)
          rw [same_array]
          clear hu h
          induction hxy with
          | nil => exact .nil
          | cons hxy _ ihr =>
              obtain ⟨ihx, ihxs⟩ := List.forall_mem_cons.mp ih
              obtain ⟨dx, dxs⟩ := List.forall_mem_cons.mp hx
              exact .cons (ihx dx hxy) (ihr ihxs dxs)
  | object es ih =>
      cases matches_of_same h with
      | @object _ fs =>
          rw [same_object] at h ⊢
          refine ⟨h.1.symm, fun f hf => ?_⟩
          have hfound : ∀ e ∈ es, e.1 ∈ fs.map Prod.fst := fun e he => by
            obtain ⟨w, hw, _⟩ := h.2 e he
            exact List.mem_map.mpr ⟨_, Keyed.mem_of_lookup hw, rfl⟩
          have hperm := perm_keys hu.nodup h.1 hfound
          have hnfs : (fs.map Prod.fst).Nodup := hperm.nodup_iff.mp hu.nodup
          obtain ⟨e, he, hkey⟩ := List.mem_map.mp (hperm.mem_iff.mpr (List.mem_map_of_mem hf))
          obtain ⟨w, hw, hew⟩ := h.2 e he
          -- the value found under the key is the one of the entry, since keys are different
          have hfw : Entries.get? fs f.1 = some f.2 := (Keyed.lookup_eq_some_iff hnfs).mpr hf
          obtain rfl : f.2 = w := Option.some.inj (hfw.symm.trans (hkey ▸ hw))
          refine ⟨e.2, ?_, ih e he (hu.of_mem_parts (mem_parts_of_entry he)) hew⟩
          exact (Keyed.lookup_eq_some_iff hu.nodup).mpr (hkey ▸ he)

end Json

end SchemaModels
