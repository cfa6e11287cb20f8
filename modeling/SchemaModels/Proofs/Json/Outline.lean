import SchemaModels.Proofs.Json.Same

/-!
# Which keys stand where

The outline of a value is the value without its scalars: the lists, and the keys of the objects in
their order. Values that are the same may differ in it, but not in anything that equality sees.

* `same_congr_left`, `same_congr_right`: values that are the same are the same as the same values.
* `exists_left_of_same`, `exists_right_of_same`, `rel_get?`: the entries of objects that are the same.
* `same_object_of_exists`, `same_object_of_forall₂`: entries that make objects the same.
* `outline_eq_of_same`: values that are the same and hold no object have one outline.
-/

namespace SchemaModels.Json

/-! ### Outlines -/

mutual

/-- A value without its scalars: what is left are the lists, and the keys of the objects. -/
def outline : Json → Json
  | .array items => .array (outlines items)
  | .object entries => .object (outlinesUnder entries)
  | .null => .null
  | .bool _ => .null
  | .number _ => .null
  | .string _ => .null

def outlines : List Json → List Json
  | [] => []
  | v :: rest => v.outline :: outlines rest

def outlinesUnder : Entries → Entries
  | [] => []
  | (key, v) :: rest => (key, v.outline) :: outlinesUnder rest

end

theorem outlines_congr {xs ys : List Json}
    (h : List.Forall₂ (fun x y => outline x = outline y) xs ys) : outlines xs = outlines ys := by
  induction h with
  | nil => rfl
  | cons hxy _ ih => rw [outlines, outlines, hxy, ih]

theorem outlinesUnder_congr {es fs : Entries}
    (h : List.Forall₂ (fun e f => e.1 = f.1 ∧ outline e.2 = outline f.2) es fs) :
    outlinesUnder es = outlinesUnder fs := by
  induction h with
  | nil => rfl
  | cons hef _ ih => rw [outlinesUnder, outlinesUnder, hef.1, hef.2, ih]

/-! ### What equality sees -/

section congr
variable {u v w : Json}

theorem same_congr_left (hv : v.Distinct) (h : v.same w = true) : v.same u = w.same u :=
  Bool.eq_iff_iff.mpr ⟨same_trans (same_symm hv h), same_trans h⟩

theorem same_congr_right (hv : v.Distinct) (h : v.same w = true) : u.same v = u.same w :=
  Bool.eq_iff_iff.mpr ⟨fun hu => same_trans hu h, fun hu => same_trans hu (same_symm hv h)⟩

theorem among_congr (hv : v.Distinct) (h : v.same w = true) (values : List Json) :
    v.among values = w.among values := by
  unfold among
  exact congrArg values.any (funext fun u => same_congr_left hv h)

end congr

/-! ### Objects that are the same -/

section entries
variable {es fs : Entries}

theorem perm_keys_of_same (hn : (es.map Prod.fst).Nodup)
    (h : (object es).same (object fs) = true) : (es.map Prod.fst).Perm (fs.map Prod.fst) := by
  rw [same_object] at h
  refine perm_keys hn h.1 fun e he => ?_
  obtain ⟨w, hw, _⟩ := h.2 e he
  exact List.mem_map.mpr ⟨_, Keyed.mem_of_lookup hw, rfl⟩

theorem nodup_of_same (hn : (es.map Prod.fst).Nodup) (h : (object es).same (object fs) = true) :
    (fs.map Prod.fst).Nodup :=
  (perm_keys_of_same hn h).nodup_iff.mp hn

/-- Each entry of the first object has one of the second under its key. -/
theorem exists_right_of_same (h : (object es).same (object fs) = true) {e : String × Json}
    (he : e ∈ es) : ∃ f ∈ fs, e.1 = f.1 ∧ e.2.same f.2 = true := by
  obtain ⟨w, hw, hsame⟩ := (same_object.mp h).2 e he
  exact ⟨(e.1, w), Keyed.mem_of_lookup hw, rfl, hsame⟩

/-- Each entry of the second object has one of the first under its key. -/
theorem exists_left_of_same (hn : (es.map Prod.fst).Nodup)
    (h : (object es).same (object fs) = true) {f : String × Json} (hf : f ∈ fs) :
    ∃ e ∈ es, e.1 = f.1 ∧ e.2.same f.2 = true := by
  have hkey : f.1 ∈ es.map Prod.fst :=
    (perm_keys_of_same hn h).mem_iff.mpr (List.mem_map_of_mem hf)
  obtain ⟨e, he, hef⟩ := List.mem_map.mp hkey
  obtain ⟨w, hw, hsame⟩ := (same_object.mp h).2 e he
  have hfw : Entries.get? fs e.1 = some f.2 :=
    (Keyed.lookup_eq_some_iff (nodup_of_same hn h)).mpr (hef ▸ hf)
  obtain rfl : f.2 = w := Option.some.inj (hfw.symm.trans hw)
  exact ⟨e, he, hef, hsame⟩

/-- Objects that are the same have values that are the same under every key. -/
theorem rel_get?_entries (hn : (es.map Prod.fst).Nodup) (h : (object es).same (object fs) = true)
    (key : String) : Option.Rel (fun v w => v.same w = true) (Entries.get? es key)
      (Entries.get? fs key) := by
  cases hv : Entries.get? es key with
  | some v =>
      obtain ⟨w, hw, hsame⟩ := (same_object.mp h).2 _ (Keyed.mem_of_lookup hv)
      rw [hw]
      exact .some hsame
  | none =>
      have hnone : Entries.get? fs key = none := Keyed.lookup_eq_none_iff.mpr fun hmem =>
        Keyed.lookup_eq_none_iff.mp hv ((perm_keys_of_same hn h).mem_iff.mpr hmem)
      rw [hnone]
      exact .none

/-- Objects with the same keys, and values that are the same under them, are the same. -/
theorem same_object_of_exists (hes : (es.map Prod.fst).Nodup) (hfs : (fs.map Prod.fst).Nodup)
    (h : ∀ e ∈ es, ∃ f ∈ fs, e.1 = f.1 ∧ e.2.same f.2 = true)
    (hkeys : fs.map Prod.fst ⊆ es.map Prod.fst) : (object es).same (object fs) = true := by
  have hsub : es.map Prod.fst ⊆ fs.map Prod.fst := by
    intro k hk
    obtain ⟨e, he, rfl⟩ := List.mem_map.mp hk
    obtain ⟨f, hf, hef, _⟩ := h e he
    exact List.mem_map.mpr ⟨f, hf, hef.symm⟩
  have hle := (hes.subperm hsub).length_le
  have hge := (hfs.subperm hkeys).length_le
  simp only [List.length_map] at hle hge
  rw [same_object]
  refine ⟨Nat.le_antisymm hle hge, fun e he => ?_⟩
  obtain ⟨f, hf, hef, hsame⟩ := h e he
  exact ⟨f.2, (Keyed.lookup_eq_some_iff hfs).mpr (hef ▸ hf), hsame⟩

/-- Entries that are the same place by place make objects the same. -/
theorem same_object_of_forall₂ (hn : (fs.map Prod.fst).Nodup)
    (h : List.Forall₂ (fun e f => e.1 = f.1 ∧ e.2.same f.2 = true) es fs) :
    (object es).same (object fs) = true := by
  rw [same_object]
  refine ⟨h.length_eq, fun e he => ?_⟩
  obtain ⟨i, hi, rfl⟩ := List.getElem_of_mem he
  have hi' : i < fs.length := h.length_eq ▸ hi
  obtain ⟨hkey, hsame⟩ := h.get hi hi'
  refine ⟨fs[i].2, ?_, hsame⟩
  exact (Keyed.lookup_eq_some_iff hn).mpr (hkey ▸ List.getElem_mem hi')

end entries

theorem rel_get? {v w : Json} (hv : v.Distinct) (h : v.same w = true) (key : String) :
    Option.Rel (fun a b => a.same b = true) (v.get? key) (w.get? key) := by
  cases matches_of_same h with
  | object => exact rel_get?_entries hv.nodup h key
  | _ => exact .none

/-! ### Values without objects -/

/-- What is the same as a value without objects has no object either. -/
theorem holdsObject_of_same {v w : Json} (h : v.same w = true) :
    v.holdsObject = true → w.holdsObject = true := by
  induction v using induct generalizing w with
  | array xs ih =>
      cases matches_of_same h with
      | @array _ ys hitems =>
          intro hx
          obtain ⟨u, hu, hobj⟩ := List.any_eq_true.mp hx
          rcases mem_parts_array.mp hu with rfl | ⟨x, hmem, hu⟩
          · cases hobj
          · obtain ⟨i, hi, rfl⟩ := List.getElem_of_mem hmem
            have hi' : i < ys.length := hitems.length_eq ▸ hi
            have hy := ih _ hmem (hitems.get hi hi') (List.any_eq_true.mpr ⟨u, hu, hobj⟩)
            exact holdsObject_of_mem_parts (mem_parts_of_mem (List.getElem_mem hi')) hy
  | object es _ =>
      cases matches_of_same h
      exact fun _ => List.any_eq_true.mpr ⟨_, mem_parts_self _, rfl⟩
  | _ => exact fun hv => by simp [holdsObject, parts, isObject] at hv

/-- Values that are the same and hold no object have one outline. -/
theorem outline_eq_of_same {v w : Json} (hv : v.holdsObject = false) (h : v.same w = true) :
    v.outline = w.outline := by
  induction v using induct generalizing w with
  | array xs ih =>
      cases matches_of_same h with
      | array hitems =>
          rw [outline, outline]
          refine congrArg array (outlines_congr (List.forall₂_iff_get.mpr ⟨hitems.length_eq, ?_⟩))
          intro i hi hi'
          have hmem := List.getElem_mem hi
          refine ih _ hmem ?_ (hitems.get hi hi')
          rw [← Bool.not_eq_true] at hv ⊢
          exact fun hx => hv (holdsObject_of_mem_parts (mem_parts_of_mem hmem) hx)
  | object es _ => simp [holdsObject, parts, isObject] at hv
  | _ =>
      cases matches_of_same h
      rfl

/-- Values that are the same as one without objects have one outline. -/
theorem outline_eq_of_same_plain {u v w : Json} (hu : u.holdsObject = false)
    (hvu : v.same u = true) (h : v.same w = true) : v.outline = w.outline := by
  refine outline_eq_of_same ?_ h
  rw [← Bool.not_eq_true] at hu ⊢
  exact fun hv => hu (holdsObject_of_same hvu hv)

end SchemaModels.Json
