import SchemaModels.Proofs.Validator.Declaration

/-!
# Tagged unions in declarations of validators

Tagged unions come from two places, a union definition and a union inside a schema, with a test of
their own each. Both only pass for members that are written as bare names.

* `SchemaExpr.choices`, `Body.choices`: the members of each tagged union.
* `SchemaExpr.exists_names_of_choices`: the tagged unions in the schema of a specification.
* `Body.exists_names_of_choices`: those of a declaration.
* `Body.union_of_tag`: what is tested for a union definition.
-/

namespace SchemaModels.Validator

namespace SchemaExpr

/-! ### The tagged unions in a schema -/

mutual

/-- The members of the tagged unions in a schema. -/
def choices : SchemaExpr → List (List SchemaExpr)
  | primitive _ => []
  | any => []
  | never => []
  | null => []
  | literal _ => []
  | enum _ => []
  | array item => item.choices
  | tuple items => choicesAll items
  | record value => value.choices
  | name _ => []
  | lazyName _ => []
  | union members => choicesAll members
  | tagged _ members => members :: choicesAll members
  | checked base _ => base.choices
  | nullable base => base.choices

def choicesAll : List SchemaExpr → List (List SchemaExpr)
  | [] => []
  | e :: rest => e.choices ++ choicesAll rest

end

variable {members : List SchemaExpr}

theorem mem_choicesAll {schemas : List SchemaExpr} :
    members ∈ choicesAll schemas ↔ ∃ e ∈ schemas, members ∈ e.choices := by
  induction schemas with
  | nil => simp [choicesAll]
  | cons e rest ih => simp [choicesAll, ih]

theorem mentionsAll_names (names : List String) :
    mentionsAll (names.map name) = names.map fun n => ⟨n, false⟩ := by
  rw [mentionsAll_eq_flatMap, List.flatMap_map]
  exact List.map_eq_flatMap.symm

theorem choicesAll_names : ∀ names : List String, choicesAll (names.map name) = []
  | [] => rfl
  | _ :: rest => choicesAll_names rest

mutual

/-- What the members of a tagged union name is named by the schema. -/
theorem mentionsAll_subset : ∀ e : SchemaExpr, members ∈ e.choices →
    mentionsAll members ⊆ e.mentions
  | array item, h => mentionsAll_subset item h
  | tuple items, h => mentionsAll_subset_all items h
  | record value, h => mentionsAll_subset value h
  | union ms, h => mentionsAll_subset_all ms h
  | tagged _ ms, h => by
      rcases List.mem_cons.mp h with rfl | h
      · exact fun _ hm => hm
      · exact mentionsAll_subset_all ms h
  | checked base _, h => mentionsAll_subset base h
  | nullable base, h => mentionsAll_subset base h

theorem mentionsAll_subset_all : ∀ schemas : List SchemaExpr, members ∈ choicesAll schemas →
    mentionsAll members ⊆ mentionsAll schemas
  | e :: rest, h => by
      rcases List.mem_append.mp h with h | h
      · exact fun _ hm => List.mem_append_left _ (mentionsAll_subset e h hm)
      · exact fun _ hm => List.mem_append_right _ (mentionsAll_subset_all rest h hm)

end

/-! ### The schema of a specification -/

theorem choices_ofValue (value : Json) : (ofValue value).choices = [] := by
  cases value <;> rfl

/-- A choice among values has no tag. -/
theorem choices_ofValues (values : List Json) : (ofValues values).choices = [] := by
  unfold ofValues
  split
  · rfl
  · rfl
  · exact choices_ofValue _
  · rw [List.eq_nil_iff_forall_not_mem]
    intro members h
    obtain ⟨e, he, hmem⟩ := mem_choicesAll.mp h
    obtain ⟨value, -, rfl⟩ := List.mem_map.mp he
    rw [choices_ofValue] at hmem
    exact absurd hmem List.not_mem_nil

theorem choices_withChecks (base : SchemaExpr) (checks : List Check) :
    (withChecks base checks).choices = base.choices := by
  unfold withChecks
  split <;> rfl

theorem choices_orNull (isNullable : Bool) (shape : Shape) (e : SchemaExpr) :
    (orNull isNullable shape e).choices = e.choices := by
  unfold orNull
  split <;> rfl

section ofSpec
variable {isForward : String → Bool}

theorem choices_ofReference (n : String) : (ofReference isForward n).choices = [] := by
  unfold ofReference
  split <;> rfl

/-- What is tested of a member of a union inside a schema makes its schema a bare name. -/
theorem exists_name_of_isEager : ∀ {s : Spec}, isEager isForward s = true →
    ∃ n, ofSpec isForward s = name n
  | ⟨shape, bounds, default, isNullable, description⟩, h => by
      cases shape with
      | reference n =>
          simp only [isEager, Bool.and_eq_true, Bool.not_eq_true'] at h
          obtain ⟨rfl, hforward⟩ := h
          refine ⟨n, ?_⟩
          simp [ofSpec, orNull, withChecks, checksFor, ofShape, ofReference, hforward]
      | _ => cases h

theorem exists_names_of_all_isEager : ∀ {specs : List Spec},
    specs.all (isEager isForward) = true →
      ∃ names : List String, ofSpecs isForward specs = names.map name
  | [], _ => ⟨[], rfl⟩
  | s :: rest, h => by
      obtain ⟨hs, hrest⟩ := Bool.and_eq_true_iff.mp (List.all_cons ▸ h)
      obtain ⟨n, hn⟩ := exists_name_of_isEager hs
      obtain ⟨names, hnames⟩ := exists_names_of_all_isEager hrest
      exact ⟨n :: names, by rw [ofSpecs, hn, hnames, List.map_cons]⟩

/-- A tagged union that is made of members is the one of these members, or is inside one. -/
theorem mem_choices_ofMembers {specs : List Spec} {discriminator : Option String}
    (h : members ∈ (ofMembers isForward specs (ofSpecs isForward specs) discriminator).choices) :
    (∃ names : List String, members = names.map name) ∨
      members ∈ choicesAll (ofSpecs isForward specs) := by
  revert h
  unfold ofMembers
  split
  · exact fun h => absurd h List.not_mem_nil
  · rename_i only _ honly
    rw [honly]
    exact fun h => .inr (List.mem_append_left _ h)
  · split
    · rename_i hall
      obtain ⟨names, hnames⟩ := exists_names_of_all_isEager hall
      rw [hnames, choices, choicesAll_names, List.mem_singleton]
      exact fun h => .inl ⟨names, h⟩
    · exact .inr
  · exact .inr

mutual

theorem exists_names_of_choices_ofShape : ∀ shape : Shape,
    members ∈ (ofShape isForward shape).choices →
      ∃ names : List String, members = names.map name
  | .literal values, h => absurd (choices_ofValues values ▸ h) List.not_mem_nil
  | .const value, h => absurd (choices_ofValue value ▸ h) List.not_mem_nil
  | .array item, h => exists_names_of_choices item h
  | .tuple items, h => exists_names_of_choicesAll items h
  | .map (some value), h => exists_names_of_choices value h
  | .reference n, h => absurd (choices_ofReference n ▸ h) List.not_mem_nil
  | .union specs _, h => (mem_choices_ofMembers h).elim id (exists_names_of_choicesAll specs)

/-- The members of a tagged union in the schema of a specification are bare names. -/
theorem exists_names_of_choices : ∀ s : Spec, members ∈ (ofSpec isForward s).choices →
    ∃ names : List String, members = names.map name
  | ⟨shape, _, _, _, _⟩, h => by
      rw [ofSpec, choices_orNull, choices_withChecks] at h
      exact exists_names_of_choices_ofShape shape h

theorem exists_names_of_choicesAll : ∀ specs : List Spec,
    members ∈ choicesAll (ofSpecs isForward specs) →
      ∃ names : List String, members = names.map name
  | s :: rest, h => (List.mem_append.mp h).elim (exists_names_of_choices s)
      (exists_names_of_choicesAll rest)

end

end ofSpec

end SchemaExpr

/-! ### The tagged unions of a declaration -/

namespace Body

/-- The members of the tagged unions in a declaration. -/
def choices : Body → List (List SchemaExpr)
  | enum _ => []
  | object fields _ => fields.flatMap fun f => f.schema.choices
  | single member => member.choices
  | union tag members => (tag.map fun _ => members).toList ++ SchemaExpr.choicesAll members
  | typeAlias schema => schema.choices

theorem mentionsAll_subset {body : Body} {members : List SchemaExpr}
    (h : members ∈ body.choices) : SchemaExpr.mentionsAll members ⊆ body.mentions := by
  cases body with
  | enum _ => exact absurd h List.not_mem_nil
  | object fields _ =>
      obtain ⟨f, hf, hmem⟩ := List.mem_flatMap.mp h
      exact fun m hm => List.mem_flatMap.mpr ⟨f, hf, SchemaExpr.mentionsAll_subset _ hmem hm⟩
  | single member => exact SchemaExpr.mentionsAll_subset _ h
  | union tag ms =>
      rcases List.mem_append.mp h with h | h
      · cases tag with
        | none => exact absurd h List.not_mem_nil
        | some field =>
            obtain rfl := List.mem_singleton.mp h
            exact fun m hm => hm
      · exact SchemaExpr.mentionsAll_subset_all _ h
  | typeAlias schema => exact SchemaExpr.mentionsAll_subset _ h

section ofDefinition
variable {settings : Settings} {t : Table} {plan : Plan} {isForward : String → Bool}
  {d : Definition} {body : Body} {members : List SchemaExpr}

theorem choicesAll_ofReferences : ∀ names : List String,
    SchemaExpr.choicesAll (names.map (SchemaExpr.ofReference isForward)) = []
  | [] => rfl
  | n :: rest => by
      rw [List.map_cons, SchemaExpr.choicesAll, SchemaExpr.choices_ofReference,
        choicesAll_ofReferences rest]
      rfl

theorem isForward_eq_false_of_isSettled {n : String} (h : isSettled t plan isForward n = true) :
    isForward n = false := by
  simp only [isSettled, Bool.and_eq_true, Bool.not_eq_true'] at h
  exact h.1.1

/-- A declaration that is a tagged union has the members of its definition, which are settled. -/
theorem union_of_tag {tag : String}
    (h : ofDefinition settings t plan isForward d = .ok (.union (some tag) members)) :
    ∃ names : List String, members = names.map SchemaExpr.name ∧
      ∀ n ∈ names, isSettled t plan isForward n = true := by
  unfold ofDefinition at h
  split at h
  · cases h
  · cases h
  · cases h
  · cases h
  · rename_i names discriminator _ _ _
    simp only [Except.ok.injEq, union.injEq] at h
    obtain ⟨htag, rfl⟩ := h
    split at htag
    · rename_i hall
      have hsettled := List.all_eq_true.mp hall
      refine ⟨names, List.map_congr_left fun n hn => ?_, hsettled⟩
      rw [SchemaExpr.ofReference, isForward_eq_false_of_isSettled (hsettled n hn)]
      rfl
    · cases htag
  · cases h

/-- The members of a union definition that is tagged are settled. -/
theorem isSettled_of_choices {tag : Option String} {names : List String}
    (h : ofDefinition settings t plan isForward d =
      .ok (.union tag (names.map SchemaExpr.name)))
    (hm : names.map SchemaExpr.name ∈ (union tag (names.map SchemaExpr.name)).choices) :
    ∀ n ∈ names, isSettled t plan isForward n = true := by
  rw [choices, SchemaExpr.choicesAll_names, List.append_nil] at hm
  cases tag with
  | none => exact absurd hm List.not_mem_nil
  | some tag =>
      obtain ⟨names', heq, hsettled⟩ := union_of_tag h
      rwa [(List.map_inj_right fun _ _ => SchemaExpr.name.inj).mp heq]

/-- The members of each tagged union in a declaration are bare names. -/
theorem exists_names_of_choices (h : ofDefinition settings t plan isForward d = .ok body)
    (hm : members ∈ body.choices) :
    ∃ names : List String, members = names.map SchemaExpr.name := by
  cases body with
  | enum _ => exact absurd hm List.not_mem_nil
  | object fields _ =>
      obtain ⟨f, hf, hmem⟩ := List.mem_flatMap.mp hm
      unfold ofDefinition at h
      split at h <;> simp only [Except.ok.injEq, reduceCtorEq, object.injEq] at h
      obtain ⟨rfl, -⟩ := h
      obtain ⟨entry, -, rfl⟩ := List.mem_map.mp hf
      exact SchemaExpr.exists_names_of_choices _ hmem
  | single member =>
      unfold ofDefinition at h
      split at h <;> simp only [Except.ok.injEq, reduceCtorEq, single.injEq] at h
      subst h
      rw [choices, SchemaExpr.choices_ofReference] at hm
      exact absurd hm List.not_mem_nil
  | union tag ms =>
      rcases List.mem_append.mp hm with hm | hm
      · cases tag with
        | none => exact absurd hm List.not_mem_nil
        | some field =>
            obtain rfl := List.mem_singleton.mp hm
            obtain ⟨names, rfl, -⟩ := union_of_tag h
            exact ⟨names, rfl⟩
      · unfold ofDefinition at h
        split at h <;> simp only [Except.ok.injEq, reduceCtorEq, union.injEq] at h
        obtain ⟨-, rfl⟩ := h
        rw [choicesAll_ofReferences] at hm
        exact absurd hm List.not_mem_nil
  | typeAlias schema =>
      unfold ofDefinition at h
      split at h <;> simp only [Except.ok.injEq, reduceCtorEq, typeAlias.injEq] at h
      subst h
      exact SchemaExpr.exists_names_of_choices _ hm

end ofDefinition

end Body

end SchemaModels.Validator
