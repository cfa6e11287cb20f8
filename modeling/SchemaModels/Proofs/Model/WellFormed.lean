import SchemaModels.Proofs.Model.Hint
import SchemaModels.Proofs.Spec.Extent

/-!
# Well-formed type hints

A hint is well formed when everything that is subscripted has an argument and nothing is made
optional twice. A type is written so by construction, with one exception: literals are written as
they are, also when there are none.

* `Hint.IsSound`, `Hint.WellFormed`: what is asked of each part of a hint, and of all.
* `Hint.faulty_subscript_iff`: a fault is one of the hint's own, or one of an argument.
* `Spec.HoldsEmptyLiteral`: literals without values, at any depth of a specification.
* `TypeExpr.faulty_ofShape_iff`: the type of a shape adds no fault to those of what is inside.
* `TypeExpr.faulty_ofSpec_iff`: the faults in the type of a specification are these literals.
-/

namespace SchemaModels

namespace Model

namespace Hint

/-- A part of a hint is sound: if it is subscripted, it has an argument, and what is made optional
is not optional or any type already. -/
def IsSound : Hint → Prop
  | subscript head arguments => arguments ≠ [] ∧ (head = typing "Optional" →
      ∀ a ∈ arguments, a.head? ≠ some (typing "Optional") ∧ a.head? ≠ some (typing "Any"))
  | _ => True

/-- All parts of a hint are sound. -/
def WellFormed (h : Hint) : Prop := ∀ p ∈ h.parts, p.IsSound

/-- A part of a hint is not sound. -/
def Faulty (h p : Hint) : Prop := p ∈ h.parts ∧ ¬p.IsSound

/-- Literals without values. -/
def emptyLiteral : Hint := .subscript (typing "Literal") []

theorem not_isSound_emptyLiteral : ¬emptyLiteral.IsSound := fun h => h.1 rfl

theorem faulty_emptyLiteral_iff {p : Hint} : emptyLiteral.Faulty p ↔ p = emptyLiteral := by
  constructor
  · exact fun h => List.mem_singleton.mp h.1
  · rintro rfl
    exact ⟨List.mem_singleton.mpr rfl, not_isSound_emptyLiteral⟩

theorem wellFormed_iff {h : Hint} : h.WellFormed ↔ ∀ p, ¬h.Faulty p := by
  simp [WellFormed, Faulty]

/-- What has no parts but itself is faulty only by itself. -/
theorem not_faulty_of_parts {h p : Hint} (hparts : h.parts = [h]) (hsound : h.IsSound) :
    ¬h.Faulty p := by
  rintro ⟨hp, hfault⟩
  rw [hparts] at hp
  exact hfault (List.mem_singleton.mp hp ▸ hsound)

/-- The faults of what is sound itself are those of its arguments. -/
theorem faulty_subscript_iff {head : Import} {arguments : List Hint} {p : Hint}
    (hsound : (subscript head arguments).IsSound) :
    (subscript head arguments).Faulty p ↔ ∃ a ∈ arguments, a.Faulty p := by
  unfold Faulty
  rw [mem_parts_subscript]
  constructor
  · rintro ⟨rfl | ⟨a, ha, hpa⟩, hp⟩
    · exact absurd hsound hp
    · exact ⟨a, ha, hpa, hp⟩
  · rintro ⟨a, ha, hpa, hp⟩
    exact ⟨.inr ⟨a, ha, hpa⟩, hp⟩

/-- What takes any arguments has the faults of these, if there is one. -/
theorem faulty_typing_iff {name : String} {arguments : List Hint} {p : Hint}
    (hname : name ≠ "Optional") (hne : arguments ≠ []) :
    (subscript (typing name) arguments).Faulty p ↔ ∃ a ∈ arguments, a.Faulty p :=
  faulty_subscript_iff ⟨hne, fun hhead => absurd (congrArg Import.name hhead) hname⟩

end Hint

end Model

/-! ### Literals without values -/

/-- There are literals without values in a specification. -/
def Spec.HoldsEmptyLiteral (s : Spec) : Prop := ∃ c ∈ s.specs, c.shape = .literal []

theorem Spec.holdsEmptyLiteral_iff {s : Spec} : s.HoldsEmptyLiteral ↔
    s.shape = .literal [] ∨ ∃ c ∈ s.shape.inner, c.HoldsEmptyLiteral := by
  unfold HoldsEmptyLiteral
  rw [specs_eq, List.exists_mem_cons_iff]
  refine or_congr_right ?_
  simp only [List.mem_flatMap]
  constructor
  · rintro ⟨e, ⟨c, hc, he⟩, hempty⟩
    exact ⟨c, hc, e, he, hempty⟩
  · rintro ⟨c, hc, e, he, hempty⟩
    exact ⟨e, ⟨c, hc, he⟩, hempty⟩

namespace Model

namespace TypeExpr

/-! ### Optional types -/

/-- A type is made optional unless it is optional or any type already. -/
theorem toOptional_cases (t : TypeExpr) : t.toOptional = t ∨ t.toOptional = optional t ∧
    t.hint.head? ≠ some (typing "Optional") ∧ t.hint.head? ≠ some (typing "Any") := by
  cases t with
  | any => exact .inl rfl
  | optional inner => exact .inl rfl
  | _ => exact .inr ⟨rfl, by simp [hint, Hint.head?, typing]⟩

theorem faulty_toOptional_iff {t : TypeExpr} {p : Hint} :
    t.toOptional.hint.Faulty p ↔ t.hint.Faulty p := by
  rcases t.toOptional_cases with ht | ⟨ht, hoptional, hany⟩
  · rw [ht]
  have hsound : (Hint.subscript (typing "Optional") [t.hint]).IsSound := by
    refine ⟨List.cons_ne_nil _ _, fun _ a ha => ?_⟩
    rw [List.mem_singleton.mp ha]
    exact ⟨hoptional, hany⟩
  rw [ht, hint, Hint.faulty_subscript_iff hsound]
  simp only [List.mem_singleton, exists_eq_left]

/-! ### Types of specifications -/

section ofSpec
variable {isForward : String → Bool} {p : Hint}

theorem faulty_ofSpec_iff_ofShape {s : Spec} :
    (ofSpec isForward s).hint.Faulty p ↔ (ofShape isForward s.shape).hint.Faulty p := by
  obtain ⟨shape, bounds, default, nullable, description⟩ := s
  cases nullable with
  | true => exact faulty_toOptional_iff
  | false => exact Iff.rfl

theorem faulty_hints_iff {specs : List Spec} :
    (∃ a ∈ hints (specs.map (ofSpec isForward)), a.Faulty p) ↔
      ∃ c ∈ specs, (ofSpec isForward c).hint.Faulty p := by
  rw [hints_eq_map]
  simp only [List.mem_map, exists_exists_and_eq_and]

/-- A union has the faults of its members, however it is written. -/
theorem faulty_ofShape_union_iff {members : List Spec} {tag : Option String} :
    (ofShape isForward (.union members tag)).hint.Faulty p ↔
      ∃ c ∈ members, (ofSpec isForward c).hint.Faulty p := by
  by_cases hempty : members = []
  · subst hempty
    have hany : ofShape isForward (.union [] tag) = any := by cases tag <;> rfl
    rw [hany]
    exact iff_of_false (Hint.not_faulty_of_parts rfl trivial) (by simp)
  by_cases hone : ∃ c, members = [c]
  · obtain ⟨c, rfl⟩ := hone
    have hmember : ofShape isForward (.union [c] tag) = ofSpec isForward c := by
      cases tag <;> rfl
    simp [hmember]
  have hne : hints (members.map (ofSpec isForward)) ≠ [] := by simpa [hints_eq_map] using hempty
  have hunion : (Hint.subscript (typing "Union") (hints (members.map (ofSpec isForward)))).Faulty p
      ↔ ∃ c ∈ members, (ofSpec isForward c).hint.Faulty p := by
    rw [Hint.faulty_typing_iff (by decide) hne, faulty_hints_iff]
  rcases ofShape_union tag fun c hc => hone ⟨c, hc⟩ with ⟨hnil, -⟩ | htype | ⟨field, htype⟩
  · exact absurd hnil hempty
  · rwa [htype, hint]
  · -- the union stands beside the call that names its field
    have hcall : ∀ arguments, ¬(Hint.call (pydantic "Field") arguments).Faulty p :=
      fun _ => Hint.not_faulty_of_parts rfl trivial
    rw [htype, hint, Hint.faulty_typing_iff (by decide) (by simp),
      ← hunion]
    simp only [List.mem_cons, List.not_mem_nil, or_false, exists_eq_or_imp, exists_eq_left, hcall]

/-- The type of a shape, other than of literals without values, adds no fault to those of what is
inside. -/
theorem faulty_ofShape_iff {shape : Shape} (hshape : shape ≠ .literal []) :
    (ofShape isForward shape).hint.Faulty p ↔
      ∃ c ∈ shape.inner, (ofSpec isForward c).hint.Faulty p := by
  have hvalue : ∀ v, ¬(Hint.value v).Faulty p := fun _ => Hint.not_faulty_of_parts rfl trivial
  have hunit : ¬Hint.unit.Faulty p := Hint.not_faulty_of_parts rfl trivial
  have hany : ¬(Hint.construct (typing "Any")).Faulty p := Hint.not_faulty_of_parts rfl trivial
  have hkey : ¬(Hint.builtin .string).Faulty p := Hint.not_faulty_of_parts rfl trivial
  cases shape with
  | primitive kind =>
      exact iff_of_false (Hint.not_faulty_of_parts rfl trivial) (by simp [Shape.inner])
  | any => exact iff_of_false hany (by simp [Shape.inner])
  | reference n =>
      rw [ofShape, ofReference]
      split <;> exact iff_of_false (Hint.not_faulty_of_parts rfl trivial) (by simp [Shape.inner])
  | literal values =>
      have hne : values.map Hint.value ≠ [] := by
        rw [Ne, List.map_eq_nil_iff]
        exact fun h => hshape (congrArg Shape.literal h)
      rw [ofShape, hint, Hint.faulty_typing_iff (by decide) hne]
      simp [Shape.inner, hvalue]
  | const value =>
      rw [ofShape, hint, Hint.faulty_typing_iff (by decide) (by simp)]
      simp [Shape.inner, hvalue]
  | array item =>
      rw [ofShape, hint, Hint.faulty_typing_iff (by decide) (by simp)]
      simp [Shape.inner]
  | map value =>
      cases value with
      | none =>
          rw [ofShape, hint, Hint.faulty_typing_iff (by decide) (by simp)]
          simp [Shape.inner, hint, hkey, hany]
      | some value =>
          rw [ofShape, hint, Hint.faulty_typing_iff (by decide) (by simp)]
          simp [Shape.inner, hkey]
  | tuple items =>
      rw [ofShape, ofSpecs_eq_map, hint, List.isEmpty_map]
      split
      · rename_i hempty
        rw [Hint.faulty_typing_iff (by decide) (by simp)]
        simp [Shape.inner, hunit, List.isEmpty_iff.mp hempty]
      · rename_i hempty
        rw [Hint.faulty_typing_iff (by decide) ?_, faulty_hints_iff]
        · rfl
        · simpa [hints_eq_map] using hempty
  | union members tag => exact faulty_ofShape_union_iff

/-- The faults in the type of a specification are the literals without values inside. -/
theorem faulty_ofSpec_iff {s : Spec} :
    (ofSpec isForward s).hint.Faulty p ↔ p = Hint.emptyLiteral ∧ s.HoldsEmptyLiteral := by
  induction s using Spec.induct with
  | h s ih =>
      rw [faulty_ofSpec_iff_ofShape, Spec.holdsEmptyLiteral_iff]
      by_cases hs : s.shape = .literal []
      · have htype : (ofShape isForward s.shape).hint = Hint.emptyLiteral := by
          rw [hs]
          rfl
        rw [htype, Hint.faulty_emptyLiteral_iff]
        simp [hs]
      · rw [faulty_ofShape_iff hs, or_iff_right hs]
        constructor
        · rintro ⟨c, hc, hfault⟩
          obtain ⟨hp, hempty⟩ := (ih c hc).mp hfault
          exact ⟨hp, c, hc, hempty⟩
        · rintro ⟨hp, c, hc, hempty⟩
          exact ⟨c, hc, (ih c hc).mpr ⟨hp, hempty⟩⟩

theorem wellFormed_ofSpec_iff {s : Spec} :
    (ofSpec isForward s).hint.WellFormed ↔ ¬s.HoldsEmptyLiteral := by
  rw [Hint.wellFormed_iff]
  simp only [faulty_ofSpec_iff]
  exact ⟨fun h hempty => h _ ⟨rfl, hempty⟩, fun h _ hfault => h hfault.2⟩

end ofSpec

end TypeExpr

end Model

end SchemaModels
