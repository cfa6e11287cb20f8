import SchemaModels.Proofs.Json.Parts
import SchemaModels.Proofs.Plan.Reference

/-!
# The specifications in a table

A specification holds others at any depth, and a table holds the specifications of its fields and
aliases with those inside them. Each may store values: a default and a constant.

* `Spec.induct`: induction on a specification, with those directly inside it in one hypothesis.
* `Table.specs`, `Table.stored`: the specifications in a table, and the parts of the values in it.
* `Table.extent_eq`: the extent of a table counts both.
-/

namespace SchemaModels

/-! ### Specifications inside specifications -/

/-- The specifications directly inside a shape. -/
def Shape.inner : Shape → List Spec
  | .array item => [item]
  | .tuple items => items
  | .map (some value) => [value]
  | .union members _ => members
  | _ => []

mutual

/-- The specifications inside a shape, at any depth. -/
def Shape.specs : Shape → List Spec
  | .array item => item.specs
  | .tuple items => Spec.specsAll items
  | .map (some value) => value.specs
  | .map none => []
  | .union members _ => Spec.specsAll members
  | .primitive _ => []
  | .literal _ => []
  | .const _ => []
  | .reference _ => []
  | .any => []

/-- A specification and those inside it. -/
def Spec.specs : Spec → List Spec
  | ⟨shape, bounds, default, nullable, description⟩ =>
      ⟨shape, bounds, default, nullable, description⟩ :: shape.specs

def Spec.specsAll : List Spec → List Spec
  | [] => []
  | s :: rest => s.specs ++ Spec.specsAll rest

end

theorem Spec.specsAll_eq_flatMap (ss : List Spec) : specsAll ss = ss.flatMap specs := by
  induction ss with
  | nil => rfl
  | cons s rest ih => rw [specsAll, ih, List.flatMap_cons]

theorem Shape.specs_eq_flatMap (shape : Shape) : shape.specs = shape.inner.flatMap Spec.specs := by
  cases shape with
  | map value => cases value <;> simp [specs, inner]
  | _ => simp [specs, inner, Spec.specsAll_eq_flatMap]

theorem Shape.asReference?_eq_some_iff {shape : Shape} {name : String} :
    shape.asReference? = some name ↔ shape = .reference name := by
  cases shape <;> simp [asReference?]

namespace Spec

theorem specs_eq (s : Spec) : s.specs = s :: s.shape.inner.flatMap specs := by
  cases s
  rw [specs, Shape.specs_eq_flatMap]

theorem mem_specs_self (s : Spec) : s ∈ s.specs := by
  rw [specs_eq]
  exact List.mem_cons_self

theorem sizeOf_lt_of_mem_inner {s c : Spec} (h : c ∈ s.shape.inner) : sizeOf c < sizeOf s := by
  have hlt : sizeOf c < sizeOf s.shape := by
    cases hs : s.shape with
    | array item =>
        obtain rfl : c = item := by simpa [hs, Shape.inner] using h
        simp only [Shape.array.sizeOf_spec]
        omega
    | tuple items =>
        have := List.sizeOf_lt_of_mem (show c ∈ items by simpa [hs, Shape.inner] using h)
        simp only [Shape.tuple.sizeOf_spec]
        omega
    | map value =>
        cases value with
        | none => simp [hs, Shape.inner] at h
        | some value =>
            obtain rfl : c = value := by simpa [hs, Shape.inner] using h
            simp only [Shape.map.sizeOf_spec, Option.some.sizeOf_spec]
            omega
    | union members tag =>
        have := List.sizeOf_lt_of_mem (show c ∈ members by simpa [hs, Shape.inner] using h)
        simp only [Shape.union.sizeOf_spec]
        omega
    | _ => simp [hs, Shape.inner] at h
  obtain ⟨shape, bounds, default, nullable, description⟩ := s
  simp only [mk.sizeOf_spec] at hlt ⊢
  omega

theorem length_specs_lt_of_mem_inner {s c : Spec} (h : c ∈ s.shape.inner) :
    c.specs.length < s.specs.length := by
  obtain ⟨before, after, hinner⟩ := List.append_of_mem h
  rw [specs_eq s, hinner, List.length_cons, List.flatMap_append, List.flatMap_cons,
    List.length_append, List.length_append]
  omega

/-- Induction on a specification, with those directly inside it in one hypothesis. -/
@[elab_as_elim]
theorem induct {motive : Spec → Prop} (h : ∀ s, (∀ c ∈ s.shape.inner, motive c) → motive s)
    (s : Spec) : motive s :=
  h s fun c _ => induct h c
termination_by sizeOf s
decreasing_by exact sizeOf_lt_of_mem_inner ‹_›

/-- What is directly inside a specification of another one is inside that as well. -/
theorem mem_specs_of_inner {u s c : Spec} (hc : c ∈ s.shape.inner) : s ∈ u.specs → c ∈ u.specs := by
  induction u using induct with
  | h u ih =>
      rw [specs_eq, List.mem_cons, List.mem_cons, List.mem_flatMap, List.mem_flatMap]
      rintro (rfl | ⟨d, hd, hs⟩)
      · exact .inr ⟨c, hc, c.mem_specs_self⟩
      · exact .inr ⟨d, hd, ih d hd hs⟩

/-! ### Stored values -/

/-- The values in a specification, but for those inside it: its default and its constant. -/
def values (s : Spec) : List Json := s.default.toList ++ s.shape.asConst?.toList

/-- The parts of the values in some specifications. -/
def storedParts (ss : List Spec) : List Json := (ss.flatMap values).flatMap Json.parts

theorem storedParts_append (ss ts : List Spec) :
    storedParts (ss ++ ts) = storedParts ss ++ storedParts ts := by
  simp [storedParts]

theorem length_storedParts_singleton (s : Spec) : (storedParts [s]).length =
    (s.default.map Json.size).getD 0 + (s.shape.asConst?.map Json.size).getD 0 := by
  cases hd : s.default <;> cases hc : s.shape.asConst? <;>
    simp [storedParts, values, hd, hc, Json.length_parts]

theorem mem_storedParts {ss : List Spec} {w : Json} :
    w ∈ storedParts ss ↔ ∃ s ∈ ss, ∃ v ∈ s.values, w ∈ v.parts := by
  simp only [storedParts, List.mem_flatMap]
  constructor
  · rintro ⟨v, ⟨s, hs, hv⟩, hw⟩
    exact ⟨s, hs, v, hv, hw⟩
  · rintro ⟨s, hs, v, hv, hw⟩
    exact ⟨v, ⟨s, hs, hv⟩, hw⟩

end Spec

/-! ### Extents -/

theorem Extent.add_mk (a b c d : Nat) : Extent.add ⟨a, b⟩ ⟨c, d⟩ = ⟨a + c, b + d⟩ := rfl

mutual

theorem Shape.extent_eq : ∀ shape : Shape, shape.extent =
    ⟨shape.specs.length,
      (Spec.storedParts shape.specs).length + (shape.asConst?.map Json.size).getD 0⟩
  | .const value => by simp [Shape.extent, Shape.specs, Shape.asConst?, Spec.storedParts]
  | .array item => by rw [Shape.extent, Spec.extent_eq item]; rfl
  | .tuple items => by rw [Shape.extent, Spec.extentAll_eq items]; rfl
  | .map none => rfl
  | .map (some value) => by rw [Shape.extent, Spec.extent_eq value]; rfl
  | .union members _ => by rw [Shape.extent, Spec.extentAll_eq members]; rfl
  | .primitive _ => rfl
  | .literal _ => rfl
  | .reference _ => rfl
  | .any => rfl

/-- The extent of a specification counts the specifications in it, and the parts of their
values. -/
theorem Spec.extent_eq : ∀ s : Spec,
    s.extent = ⟨s.specs.length, (Spec.storedParts s.specs).length⟩
  | ⟨shape, bounds, default, nullable, description⟩ => by
      rw [Spec.extent, Shape.extent_eq shape, Spec.specs, List.length_cons,
        ← List.singleton_append, Spec.storedParts_append, List.length_append,
        Spec.length_storedParts_singleton, Extent.add_mk, Extent.mk.injEq]
      dsimp only
      omega

theorem Spec.extentAll_eq : ∀ ss : List Spec,
    Spec.extentAll ss = ⟨(Spec.specsAll ss).length, (Spec.storedParts (Spec.specsAll ss)).length⟩
  | [] => rfl
  | s :: rest => by
      rw [Spec.extentAll, Spec.extent_eq s, Spec.extentAll_eq rest, Extent.add_mk, Spec.specsAll,
        List.length_append, Spec.storedParts_append, List.length_append]

end

/-- The specifications in a definition. -/
def Definition.specs (d : Definition) : List Spec :=
  match d.kind with
  | .object record => Spec.specsAll (record.fields.map Prod.snd)
  | .typeAlias spec => spec.specs
  | _ => []

theorem Definition.extent_eq (d : Definition) :
    d.extent = ⟨1 + d.specs.length, (Spec.storedParts d.specs).length⟩ := by
  unfold extent specs
  cases d.kind with
  | object record => simp [Extent.add, Spec.extentAll_eq]
  | typeAlias spec => simp [Extent.add, Spec.extent_eq]
  | _ => rfl

namespace Table

/-- The specifications in a table. -/
def specs (t : Table) : List Spec := t.definitions.flatMap Definition.specs

/-- The parts of the values in a table. -/
def stored (t : Table) : List Json := Spec.storedParts t.specs

theorem extent_eq (t : Table) :
    t.extent = ⟨t.definitions.length + t.specs.length, t.stored.length⟩ := by
  have h : ∀ ds : List Definition, ds.foldr (fun d e => d.extent.add e) .zero =
      ⟨ds.length + (ds.flatMap Definition.specs).length,
        (Spec.storedParts (ds.flatMap Definition.specs)).length⟩ := by
    intro ds
    induction ds with
    | nil => rfl
    | cons d rest ih =>
        rw [List.foldr_cons, ih, Definition.extent_eq, Extent.add_mk, List.flatMap_cons,
          Spec.storedParts_append, List.length_append, List.length_append, List.length_cons,
          Extent.mk.injEq]
        omega
  exact h t.definitions

variable {t : Table}

theorem mem_specs_of_field {name : String} {d : Definition} {record : Record}
    (hd : t.get? name = some d) (hk : d.kind = .object record) {f : String × Spec}
    (hf : f ∈ record.fields) : f.2 ∈ t.specs := by
  refine List.mem_flatMap.mpr ⟨d, (get?_eq_some_iff.mp hd).1, ?_⟩
  rw [Definition.specs, hk]
  dsimp only
  rw [Spec.specsAll_eq_flatMap]
  exact List.mem_flatMap.mpr ⟨f.2, List.mem_map_of_mem hf, f.2.mem_specs_self⟩

theorem mem_specs_of_typeAlias {name : String} {d : Definition} {s : Spec}
    (hd : t.get? name = some d) (hk : d.kind = .typeAlias s) : s ∈ t.specs := by
  refine List.mem_flatMap.mpr ⟨d, (get?_eq_some_iff.mp hd).1, ?_⟩
  rw [Definition.specs, hk]
  exact s.mem_specs_self

theorem mem_specs_of_inner {s c : Spec} (h : s ∈ t.specs) (hc : c ∈ s.shape.inner) :
    c ∈ t.specs := by
  obtain ⟨d, hd, hs⟩ := List.mem_flatMap.mp h
  refine List.mem_flatMap.mpr ⟨d, hd, ?_⟩
  unfold Definition.specs at hs ⊢
  cases hk : d.kind with
  | object record =>
      simp only [hk, Spec.specsAll_eq_flatMap, List.mem_flatMap] at hs ⊢
      obtain ⟨u, hu, hs⟩ := hs
      exact ⟨u, hu, Spec.mem_specs_of_inner hc hs⟩
  | typeAlias u =>
      simp only [hk] at hs ⊢
      exact Spec.mem_specs_of_inner hc hs
  | _ => simp [hk] at hs

end Table

end SchemaModels
