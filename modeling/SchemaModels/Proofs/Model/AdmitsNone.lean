import SchemaModels.Proofs.Model.Declaration
import SchemaModels.Proofs.Plan.Forward
import SchemaModels.Proofs.Spec.Extent

/-!
# Types that admit `None`

A type of a model admits `None` by its own form, through a member of a union, or through what is
declared under a name. The same is said of specifications, without types and without an order of
declarations.

* `AdmitsNone`: a type admits `None`, where names stand for the bodies declared under them.
* `Plan.Declares`: the bodies that a plan declares under names.
* `Table.LetsNull`: a specification lets a null through, by itself or somewhere behind it.
* `admitsNone_ofSpec_iff`: the type of a specification admits `None` exactly when the
  specification lets a null through.
-/

namespace SchemaModels

open Model

/-! ### Types -/

namespace Model

namespace TypeExpr

/-- The members of a union. -/
def alternatives : TypeExpr → List TypeExpr
  | union members => members
  | tagged members _ => members
  | _ => []

/-- The definition that a type is the name of. -/
def named? : TypeExpr → Option String
  | name n => some n
  | quotedName n => some n
  | _ => none

end TypeExpr

/-- A type admits `None`: as an optional type, as any type, as a literal, through a member of a
union, or through the alias or union declared under a name. -/
inductive AdmitsNone (declared : String → Body → Prop) : TypeExpr → Prop
  | any : AdmitsNone declared .any
  | optional {inner : TypeExpr} : AdmitsNone declared (.optional inner)
  | literal {values : List Json} {v : Json} (hv : v ∈ values) (hnull : v.isNull = true) :
      AdmitsNone declared (.literal values)
  | member {type m : TypeExpr} (hm : m ∈ type.alternatives) (h : AdmitsNone declared m) :
      AdmitsNone declared type
  | typeAlias {type target : TypeExpr} {n : String} {arguments : List Argument}
      (hn : type.named? = some n) (hd : declared n (.typeAlias target arguments))
      (h : AdmitsNone declared target) : AdmitsNone declared type
  | union {type m : TypeExpr} {n : String} {tag : Option String} {members : List TypeExpr}
      (hn : type.named? = some n) (hd : declared n (.union tag members)) (hm : m ∈ members)
      (h : AdmitsNone declared m) : AdmitsNone declared type

theorem TypeExpr.named?_ofReference (isForward : String → Bool) (n : String) :
    (ofReference isForward n).named? = some n := by
  unfold ofReference
  split <;> rfl

end Model

/-- The bodies that a plan declares under names. -/
def Plan.Declares (settings : Settings) (t : Table) (plan : Plan) (n : String) (body : Body) :
    Prop :=
  ∃ p ∈ plan, p.name = n ∧ ∃ d, t.get? n = some d ∧
    Body.ofDefinition settings t p.isForward d = .ok body

/-! ### Specifications -/

/-- A specification lets a null through: it is nullable or unrestricted, its literals have a null,
it is a union without members or of one that lets a null through, or a reference to an alias or a
union that does. -/
inductive Table.LetsNull (t : Table) : Spec → Prop
  | nullable {s : Spec} (h : s.nullable = true) : LetsNull t s
  | any {s : Spec} (hs : s.shape = .any) : LetsNull t s
  | literal {s : Spec} {values : List Json} {v : Json} (hs : s.shape = .literal values)
      (hv : v ∈ values) (hnull : v.isNull = true) : LetsNull t s
  | const {s : Spec} {value : Json} (hs : s.shape = .const value) (hnull : value.isNull = true) :
      LetsNull t s
  | empty {s : Spec} {tag : Option String} (hs : s.shape = .union [] tag) : LetsNull t s
  | alternative {s c : Spec} {members : List Spec} {tag : Option String}
      (hs : s.shape = .union members tag) (hc : c ∈ members) (h : LetsNull t c) : LetsNull t s
  | typeAlias {s u : Spec} {n : String} {d : Definition} (hs : s.shape = .reference n)
      (hd : t.get? n = some d) (hk : d.kind = .typeAlias u) (h : LetsNull t u) : LetsNull t s
  | member {s : Spec} {n m : String} {d : Definition} {members : List String} {tag : Option String}
      (hs : s.shape = .reference n) (hd : t.get? n = some d) (hk : d.kind = .union members tag)
      (hm : m ∈ members) (h : LetsNull t { shape := .reference m }) : LetsNull t s

namespace Model

/-! ### Types of specifications -/

section ofSpec
variable {declared : String → Body → Prop} {isForward : String → Bool}

theorem TypeExpr.ofSpecs_eq_map (specs : List Spec) :
    ofSpecs isForward specs = specs.map (ofSpec isForward) := by
  induction specs with
  | nil => rfl
  | cons s rest ih => rw [ofSpecs, ih, List.map_cons]

theorem admitsNone_toOptional (type : TypeExpr) : AdmitsNone declared type.toOptional := by
  cases type with
  | any => exact .any
  | _ => exact .optional

theorem admitsNone_of_nullable {s : Spec} (h : s.nullable = true) :
    AdmitsNone declared (TypeExpr.ofSpec isForward s) := by
  obtain ⟨shape, bounds, default, nullable, description⟩ := s
  obtain rfl : nullable = true := h
  exact admitsNone_toOptional _

theorem ofSpec_eq_ofShape {s : Spec} (h : s.nullable = false) :
    TypeExpr.ofSpec isForward s = TypeExpr.ofShape isForward s.shape := by
  obtain ⟨shape, bounds, default, nullable, description⟩ := s
  obtain rfl : nullable = false := h
  rfl

theorem admitsNone_of_ofShape {s : Spec}
    (h : AdmitsNone declared (TypeExpr.ofShape isForward s.shape)) :
    AdmitsNone declared (TypeExpr.ofSpec isForward s) := by
  cases hn : s.nullable with
  | true => exact admitsNone_of_nullable hn
  | false => rwa [ofSpec_eq_ofShape hn]

/-- A union admits `None` when it has no member, or a member that does. -/
theorem admitsNone_ofMembers {members : List TypeExpr} {m : TypeExpr} (tag : Option String)
    (hm : m ∈ members) (h : AdmitsNone declared m) :
    AdmitsNone declared (TypeExpr.ofMembers members tag) := by
  unfold TypeExpr.ofMembers
  split
  · cases hm
  · obtain rfl := List.mem_singleton.mp hm
    exact h
  · split
    · exact AdmitsNone.member hm h
    · exact AdmitsNone.member hm h
  · exact AdmitsNone.member hm h

/-- A type is built from a specification as it is, unless from a union of one member, which is
that member. What is shown for the others holds for all. -/
theorem letsNull_of_ofSpec_eq {t : Table} {type : TypeExpr}
    (h : ∀ s : Spec, s.nullable = false → (∀ c tag, s.shape ≠ .union [c] tag) →
      TypeExpr.ofShape isForward s.shape = type → t.LetsNull s) :
    ∀ s : Spec, TypeExpr.ofSpec isForward s = type → t.LetsNull s := by
  intro s
  induction s using Spec.induct with
  | h s ih =>
      intro he
      cases hn : s.nullable with
      | true => exact .nullable hn
      | false =>
          rw [ofSpec_eq_ofShape hn] at he
          by_cases hs : ∃ c tag, s.shape = .union [c] tag
          · obtain ⟨c, tag, hs⟩ := hs
            rw [hs] at he
            have hc : c ∈ s.shape.inner := by simp [hs, Shape.inner]
            exact .alternative hs (List.mem_singleton.mpr rfl) (ih c hc he)
          · exact h s hn (fun c tag hs' => hs ⟨c, tag, hs'⟩) he

/-! ### Shapes behind types -/

/-- The type of a union of other than one member is any type, if there is none, or a union of the
types of its members. -/
theorem ofShape_union {members : List Spec} (tag : Option String) (hs : ∀ c, members ≠ [c]) :
    members = [] ∧ TypeExpr.ofShape isForward (.union members tag) = .any ∨
      TypeExpr.ofShape isForward (.union members tag) =
        .union (members.map (TypeExpr.ofSpec isForward)) ∨
      ∃ field, TypeExpr.ofShape isForward (.union members tag) =
        .tagged (members.map (TypeExpr.ofSpec isForward)) field := by
  rw [TypeExpr.ofShape, TypeExpr.ofSpecs_eq_map]
  match members, hs with
  | [], _ => exact .inl ⟨rfl, rfl⟩
  | [c], hs => exact absurd rfl (hs c)
  | c :: d :: rest, _ =>
      rw [List.map_cons, List.map_cons]
      cases tag with
      | none => exact .inr (.inl rfl)
      | some field =>
          rw [TypeExpr.ofMembers]
          · split
            · exact .inr (.inr ⟨field, rfl⟩)
            · exact .inr (.inl rfl)
          · exact fun he => by cases he
          · exact fun only he => by cases he

section ofShape
variable {shape : Shape} (hs : ∀ c tag, shape ≠ .union [c] tag)
include hs

theorem eq_of_ofShape_eq_any (h : TypeExpr.ofShape isForward shape = .any) :
    shape = .any ∨ ∃ tag, shape = .union [] tag := by
  cases shape with
  | any => exact .inl rfl
  | union members tag =>
      rcases ofShape_union tag fun c hc => hs c tag (hc ▸ rfl) with ⟨rfl, _⟩ | h' | ⟨field, h'⟩
      · exact .inr ⟨tag, rfl⟩
      all_goals rw [h'] at h; cases h
  | reference n =>
      rw [TypeExpr.ofShape, TypeExpr.ofReference] at h
      split at h <;> cases h
  | map value => cases value <;> cases h
  | _ => cases h

/-- No shape but that of a union of one member has an optional type of its own. -/
theorem ofShape_ne_optional (inner : TypeExpr) :
    TypeExpr.ofShape isForward shape ≠ .optional inner := by
  intro h
  cases shape with
  | union members tag =>
      rcases ofShape_union tag fun c hc => hs c tag (hc ▸ rfl) with ⟨_, h'⟩ | h' | ⟨field, h'⟩ <;>
        rw [h'] at h <;> cases h
  | reference n =>
      rw [TypeExpr.ofShape, TypeExpr.ofReference] at h
      split at h <;> cases h
  | map value => cases value <;> cases h
  | _ => cases h

/-- Literals come from literals and constants. -/
theorem eq_of_ofShape_eq_literal {values : List Json}
    (h : TypeExpr.ofShape isForward shape = .literal values) :
    shape = .literal values ∨ ∃ v, shape = .const v ∧ values = [v] := by
  cases shape with
  | literal vs => exact .inl (congrArg _ (TypeExpr.literal.inj h))
  | const v => exact .inr ⟨v, rfl, (TypeExpr.literal.inj h).symm⟩
  | union members tag =>
      rcases ofShape_union tag fun c hc => hs c tag (hc ▸ rfl) with ⟨_, h'⟩ | h' | ⟨field, h'⟩ <;>
        rw [h'] at h <;> cases h
  | reference n =>
      rw [TypeExpr.ofShape, TypeExpr.ofReference] at h
      split at h <;> cases h
  | map value => cases value <;> cases h
  | _ => cases h

/-- Types with alternatives come from unions. -/
theorem exists_of_mem_alternatives {m : TypeExpr}
    (hm : m ∈ (TypeExpr.ofShape isForward shape).alternatives) :
    ∃ members tag, shape = .union members tag ∧ ∃ c ∈ members, TypeExpr.ofSpec isForward c = m := by
  cases shape with
  | union members tag =>
      refine ⟨members, tag, rfl, List.mem_map.mp ?_⟩
      rcases ofShape_union tag fun c hc => hs c tag (hc ▸ rfl) with ⟨_, h⟩ | h | ⟨field, h⟩
      · rw [h] at hm
        cases hm
      all_goals rw [h] at hm; exact hm
  | reference n =>
      rw [TypeExpr.ofShape, TypeExpr.ofReference] at hm
      split at hm <;> cases hm
  | map value => cases value <;> cases hm
  | _ => cases hm

/-- Names come from references. -/
theorem eq_reference_of_named? {n : String}
    (hn : (TypeExpr.ofShape isForward shape).named? = some n) : shape = .reference n := by
  cases shape with
  | reference m =>
      rw [TypeExpr.ofShape, TypeExpr.named?_ofReference, Option.some.injEq] at hn
      rw [hn]
  | union members tag =>
      rcases ofShape_union tag fun c hc => hs c tag (hc ▸ rfl) with ⟨_, h⟩ | h | ⟨field, h⟩ <;>
        rw [h] at hn <;> cases hn
  | map value => cases value <;> cases hn
  | _ => cases hn

end ofShape

end ofSpec

end Model

/-! ### Specifications and their types -/

section planned
variable {settings : Settings} {t : Table} {blocks : List (List Nat)} {order : SectionOrder}
  {plan : Plan} {isForward : String → Bool}

/-- What is declared as an alias is the type of an alias. -/
theorem Plan.Declares.exists_typeAlias {n : String} {target : TypeExpr}
    {arguments : List Argument}
    (h : plan.Declares settings t n (.typeAlias target arguments)) :
    ∃ d u isForward, t.get? n = some d ∧ d.kind = .typeAlias u ∧
      TypeExpr.ofSpec isForward u = target := by
  obtain ⟨p, _, rfl, d, hd, hbody⟩ := h
  rcases ofDefinition_eq_ok hbody with ⟨_, _, _, _, hb⟩ | ⟨_, _, hb⟩ | ⟨_, _, _, _, hb⟩ |
    ⟨u, hk, hb⟩
  · cases hb
  · cases hb
  · cases hb
  · exact ⟨d, u, p.isForward, hd, hk, (Body.typeAlias.inj hb).1.symm⟩

/-- What is declared as a union has the names of a union. -/
theorem Plan.Declares.exists_union {n : String} {types : List TypeExpr} {tag : Option String}
    (h : plan.Declares settings t n (.union tag types)) :
    ∃ d members isForward, t.get? n = some d ∧ d.kind = .union members tag ∧
      members.map (TypeExpr.ofReference isForward) = types := by
  obtain ⟨p, _, rfl, d, hd, hbody⟩ := h
  rcases ofDefinition_eq_ok hbody with ⟨_, _, _, _, hb⟩ | ⟨_, _, hb⟩ | ⟨members, tag', hk, _, hb⟩ |
    ⟨_, _, hb⟩
  · cases hb
  · cases hb
  · obtain ⟨rfl, rfl⟩ := Body.union.inj hb
    exact ⟨d, members, p.isForward, hd, hk, rfl⟩
  · cases hb

/-- A specification whose type admits `None` lets a null through. -/
theorem letsNull_of_admitsNone {type : TypeExpr}
    (h : AdmitsNone (plan.Declares settings t) type) :
    ∀ {isForward : String → Bool} {s : Spec}, TypeExpr.ofSpec isForward s = type →
      t.LetsNull s := by
  induction h with
  | any =>
      intro isForward s
      refine letsNull_of_ofSpec_eq (fun s _ hone he => ?_) s
      rcases eq_of_ofShape_eq_any hone he with hs | ⟨tag, hs⟩
      · exact .any hs
      · exact .empty hs
  | optional =>
      intro isForward s
      exact letsNull_of_ofSpec_eq (fun s _ hone he => absurd he (ofShape_ne_optional hone _)) s
  | literal hv hnull =>
      intro isForward s
      refine letsNull_of_ofSpec_eq (fun s _ hone he => ?_) s
      rcases eq_of_ofShape_eq_literal hone he with hs | ⟨v, hs, rfl⟩
      · exact .literal hs hv hnull
      · obtain rfl := List.mem_singleton.mp hv
        exact .const hs hnull
  | member hm _ ih =>
      intro isForward s
      refine letsNull_of_ofSpec_eq (fun s _ hone he => ?_) s
      rw [← he] at hm
      obtain ⟨members, tag, hs, c, hc, hcm⟩ := exists_of_mem_alternatives hone hm
      exact .alternative hs hc (ih hcm)
  | typeAlias hn hd _ ih =>
      intro isForward s
      refine letsNull_of_ofSpec_eq (fun s _ hone he => ?_) s
      rw [← he] at hn
      obtain ⟨d, u, isForward', hget, hk, hu⟩ := hd.exists_typeAlias
      exact .typeAlias (eq_reference_of_named? hone hn) hget hk (ih hu)
  | union hn hd hm _ ih =>
      intro isForward s
      refine letsNull_of_ofSpec_eq (fun s _ hone he => ?_) s
      rw [← he] at hn
      obtain ⟨d, members, isForward', hget, hk, rfl⟩ := hd.exists_union
      obtain ⟨m, hm, he⟩ := List.mem_map.mp hm
      have hmember := @ih isForward' { shape := .reference m } he
      exact .member (eq_reference_of_named? hone hn) hget hk hm hmember

variable (hb : t.graph.IsComponents blocks) (h : t.planWith blocks order = .ok plan)
include hb h

theorem exists_planned_of_get? {n : String} {d : Definition} (hd : t.get? n = some d) :
    ∃ p ∈ plan, p.name = n := by
  have hmem : n ∈ plan.map Planned.name :=
    (Table.perm_names_plan hb h).mem_iff.mpr
      (Table.mem_names.mpr ⟨d, Table.get?_eq_some_iff.mp hd⟩)
  exact List.mem_map.mp hmem

/-- The type of a specification that lets a null through admits `None`. -/
theorem admitsNone_of_letsNull {s : Spec} (hs : t.LetsNull s) : ∀ isForward : String → Bool,
    AdmitsNone (plan.Declares settings t) (TypeExpr.ofSpec isForward s) := by
  induction hs with
  | nullable hn => exact fun _ => admitsNone_of_nullable hn
  | any hs =>
      intro isForward
      apply admitsNone_of_ofShape
      rw [hs]
      exact .any
  | literal hs hv hnull =>
      intro isForward
      apply admitsNone_of_ofShape
      rw [hs]
      exact .literal hv hnull
  | const hs hnull =>
      intro isForward
      apply admitsNone_of_ofShape
      rw [hs]
      exact .literal (List.mem_singleton.mpr rfl) hnull
  | empty hs =>
      intro isForward
      apply admitsNone_of_ofShape
      rw [hs]
      exact .any
  | alternative hs hc _ ih =>
      intro isForward
      apply admitsNone_of_ofShape
      rw [hs, TypeExpr.ofShape, TypeExpr.ofSpecs_eq_map]
      exact admitsNone_ofMembers _ (List.mem_map_of_mem hc) (ih isForward)
  | @typeAlias s u n d hs hd hk _ ih =>
      intro isForward
      obtain ⟨p, hp, hname⟩ := exists_planned_of_get? hb h hd
      have hbody : plan.Declares settings t n
          (.typeAlias (TypeExpr.ofSpec p.isForward u) (boundArguments u)) :=
        ⟨p, hp, hname, d, hd, by simp only [Body.ofDefinition, hk]⟩
      apply admitsNone_of_ofShape
      rw [hs]
      exact .typeAlias (TypeExpr.named?_ofReference isForward n) hbody (ih p.isForward)
  | @member s n m d members tag hs hd hk hm _ ih =>
      intro isForward
      obtain ⟨p, hp, hname⟩ := exists_planned_of_get? hb h hd
      have hne : members.isEmpty = false := by
        cases members with
        | nil => cases hm
        | cons _ _ => rfl
      have hbody : plan.Declares settings t n
          (.union tag (members.map (TypeExpr.ofReference p.isForward))) :=
        ⟨p, hp, hname, d, hd, by simp [Body.ofDefinition, hk, hne]⟩
      apply admitsNone_of_ofShape
      rw [hs]
      exact .union (TypeExpr.named?_ofReference isForward n) hbody (List.mem_map_of_mem hm)
        (ih p.isForward)

/-- The type of a specification admits `None` exactly when the specification lets a null
through. -/
theorem admitsNone_ofSpec_iff {s : Spec} :
    AdmitsNone (plan.Declares settings t) (TypeExpr.ofSpec isForward s) ↔ t.LetsNull s :=
  ⟨fun hs => letsNull_of_admitsNone hs rfl, fun hs => admitsNone_of_letsNull hb h hs isForward⟩

end planned

end SchemaModels
