import Mathlib.Data.List.Flatten
import SchemaModels.Proofs.Model.Declaration
import SchemaModels.Proofs.Spec.Bounds
import SchemaModels.Proofs.Spec.Extent

/-!
# Tagged unions in declarations of models

A union of names with a discriminator is written with its field. Such unions stand inside types
only: the assignment of a union definition is not tagged.

* `TypeExpr.tags`, `Body.tags`: the tagged unions of a type and of a declaration.
* `TypeExpr.ownTags`: the tagged union that a specification is itself.
* `TypeExpr.tags_ofSpec_eq`, `Body.tags_ofDefinition`: they are those of the specifications inside.
* `TypeExpr.holds_tag`, `Body.holds_tag`: they are written in the code.
-/

namespace SchemaModels.Model

namespace TypeExpr

/-! ### The tagged unions in a type -/

mutual

/-- The tagged unions in a type, each with its members and its field. -/
def tags : TypeExpr → List (List TypeExpr × String)
  | builtin _ => []
  | any => []
  | list item => item.tags
  | dict value => value.tags
  | tuple items => tagsAll items
  | literal _ => []
  | name _ => []
  | quotedName _ => []
  | optional inner => inner.tags
  | union members => tagsAll members
  | tagged members field => (members, field) :: tagsAll members

def tagsAll : List TypeExpr → List (List TypeExpr × String)
  | [] => []
  | t :: rest => t.tags ++ tagsAll rest

end

variable {tag : List TypeExpr × String}

theorem tags_toOptional (t : TypeExpr) : t.toOptional.tags = t.tags := by
  cases t <;> rfl

theorem tags_orNone (nullable : Bool) (t : TypeExpr) : (orNone nullable t).tags = t.tags := by
  unfold orNone
  split
  · exact tags_toOptional t
  · rfl

/-! ### Text -/

theorem texts_eq_map (types : List TypeExpr) : texts types = types.map text := by
  induction types with
  | nil => rfl
  | cons t rest ih => rw [texts, ih, List.map_cons]

mutual

/-- A tagged union is written in the text of its type. -/
theorem holds_tag : ∀ t : TypeExpr, tag ∈ t.tags → Holds t.text (tagged tag.1 tag.2).text
  | list item, h => by
      show Holds ("List[" ++ item.text ++ "]") _
      exact ((holds_tag item h).append_left _).append_right _
  | dict value, h => by
      show Holds ("Dict[str, " ++ value.text ++ "]") _
      exact ((holds_tag value h).append_left _).append_right _
  | tuple items, h => by
      show Holds (if items.isEmpty then "Tuple[()]"
        else "Tuple[" ++ String.intercalate ", " (texts items) ++ "]") _
      split
      · rename_i hempty
        rw [List.isEmpty_iff.mp hempty] at h
        exact absurd h List.not_mem_nil
      · exact ((holds_tagAll items h).append_left _).append_right _
  | optional inner, h => by
      show Holds ("Optional[" ++ inner.text ++ "]") _
      exact ((holds_tag inner h).append_left _).append_right _
  | union members, h => by
      show Holds ("Union[" ++ String.intercalate ", " (texts members) ++ "]") _
      exact ((holds_tagAll members h).append_left _).append_right _
  | tagged members field, h => by
      rcases List.mem_cons.mp h with rfl | h
      · exact .refl _
      · show Holds ("Annotated[Union[" ++ String.intercalate ", " (texts members) ++
          "], Field(discriminator=" ++ Text.quoted field ++ ")]") _
        have hmembers := (holds_tagAll members h).append_left "Annotated[Union["
        exact ((hmembers.append_right _).append_right _).append_right _

theorem holds_tagAll : ∀ types : List TypeExpr, tag ∈ tagsAll types →
    Holds (String.intercalate ", " (texts types)) (tagged tag.1 tag.2).text
  | t :: rest, h => by
      rcases List.mem_append.mp h with h | h
      · exact (Holds.of_mem List.mem_cons_self).trans (holds_tag t h)
      · cases rest with
        | nil => exact absurd h List.not_mem_nil
        | cons next rest =>
            show Holds (String.intercalate ", " (t.text :: next.text :: texts rest)) _
            rw [String.intercalate_cons_cons]
            exact (holds_tagAll (next :: rest) h).append_left _

end

/-! ### The type of a specification -/

section ofSpec
variable {isForward : String → Bool}

theorem tags_ofReference (n : String) : (ofReference isForward n).tags = [] := by
  unfold ofReference
  split <;> rfl

theorem tagsAll_ofReferences : ∀ names : List String,
    tagsAll (names.map (ofReference isForward)) = []
  | [] => rfl
  | n :: rest => by
      rw [List.map_cons, tagsAll, tags_ofReference, tagsAll_ofReferences rest]
      rfl

/-- A type that is a name is that of a reference, which is what its mentions say. -/
theorem exists_name_of_isName {s : Spec} (h : (ofSpec isForward s).isName = true) :
    ∃ n, ofSpec isForward s = ofReference isForward n := by
  have hmentions := mentions_ofSpec isForward s
  cases htype : ofSpec isForward s with
  | name n =>
      rw [htype] at hmentions
      obtain ⟨n', -, hn⟩ := List.map_eq_singleton_iff.mp hmentions.symm
      obtain ⟨rfl, hforward⟩ := Mention.mk.inj hn
      exact ⟨n', by rw [ofReference, hforward]; rfl⟩
  | quotedName n =>
      rw [htype] at hmentions
      obtain ⟨n', -, hn⟩ := List.map_eq_singleton_iff.mp hmentions.symm
      obtain ⟨rfl, hforward⟩ := Mention.mk.inj hn
      exact ⟨n', by rw [ofReference, hforward]; rfl⟩
  | _ =>
      rw [htype] at h
      cases h

theorem exists_names_of_all_isName : ∀ {specs : List Spec},
    (ofSpecs isForward specs).all isName = true →
      ∃ names : List String, ofSpecs isForward specs = names.map (ofReference isForward)
  | [], _ => ⟨[], rfl⟩
  | s :: rest, h => by
      rw [ofSpecs, List.all_cons, Bool.and_eq_true] at h
      obtain ⟨n, hn⟩ := exists_name_of_isName h.1
      obtain ⟨names, hnames⟩ := exists_names_of_all_isName h.2
      exact ⟨n :: names, by rw [ofSpecs, hn, hnames, List.map_cons]⟩

/-- The tagged union that a specification is itself, apart from those inside it. -/
def ownTags (isForward : String → Bool) (s : Spec) : List (List TypeExpr × String) :=
  match s.shape with
  | .union members (some field) =>
      let types := ofSpecs isForward members
      if 2 ≤ types.length ∧ types.all isName = true then [(types, field)] else []
  | _ => []

theorem tagsAll_ofSpecs (specs : List Spec) :
    tagsAll (ofSpecs isForward specs) = specs.flatMap fun s => (ofSpec isForward s).tags := by
  induction specs with
  | nil => rfl
  | cons s rest ih => rw [ofSpecs, tagsAll, ih, List.flatMap_cons]

/-- A union is tagged when it has a field and at least two members, all of them names. -/
theorem tags_ofMembers (members : List TypeExpr) (discriminator : Option String) :
    (ofMembers members discriminator).tags =
      (discriminator.toList.flatMap fun field =>
        if 2 ≤ members.length ∧ members.all isName = true then [(members, field)] else []) ++
        tagsAll members := by
  unfold ofMembers
  split
  · cases discriminator <;> rfl
  · rename_i only
    cases discriminator <;> simp [tagsAll]
  · rename_i field hnil hone
    have htwo : 2 ≤ members.length := by
      match members, hnil, hone with
      | [], hnil, _ => exact absurd rfl hnil
      | [only], _, hone => exact absurd rfl (hone only)
      | _ :: _ :: rest, _, _ => exact Nat.le_add_left 2 rest.length
    cases hall : members.all isName with
    | true => simp [tags, htwo]
    | false => simp [tags]
  · rfl

/-- The tagged unions in the type of a specification are its own and those of what is directly
inside it. -/
theorem tags_ofSpec (s : Spec) : (ofSpec isForward s).tags =
    ownTags isForward s ++ s.shape.inner.flatMap fun c => (ofSpec isForward c).tags := by
  obtain ⟨shape, bounds, default, nullable, description⟩ := s
  rw [ofSpec, tags_orNone]
  cases shape with
  | array item => exact (List.append_nil _).symm
  | tuple items => exact tagsAll_ofSpecs items
  | map value =>
      cases value with
      | none => rfl
      | some value => exact (List.append_nil _).symm
  | reference n => exact tags_ofReference n
  | union members discriminator =>
      rw [ofShape, tags_ofMembers, tagsAll_ofSpecs]
      cases discriminator with
      | none => rfl
      | some field => rw [Option.toList_some, List.flatMap_singleton]; rfl
  | _ => rfl

/-- The tagged unions in the type of a specification, by the specifications inside it. -/
theorem tags_ofSpec_eq (s : Spec) :
    (ofSpec isForward s).tags = s.specs.flatMap (ownTags isForward) := by
  induction s using Spec.induct with
  | h s ih =>
      rw [tags_ofSpec, Spec.specs_eq, List.flatMap_cons, List.flatMap_assoc]
      congr 1
      exact List.flatMap_congr ih

/-- A tagged union is a union of the schema with its field, between at least two references. -/
theorem mem_ownTags {c : Spec} (h : tag ∈ ownTags isForward c) :
    ∃ (members : List Spec) (names : List String), c.shape = .union members (some tag.2) ∧
      tag.1 = ofSpecs isForward members ∧ tag.1 = names.map (ofReference isForward) ∧
      2 ≤ names.length := by
  unfold ownTags at h
  split at h
  · rename_i members field hshape
    dsimp only at h
    split at h
    · rename_i htagged
      obtain rfl := List.mem_singleton.mp h
      obtain ⟨names, hnames⟩ := exists_names_of_all_isName htagged.2
      refine ⟨members, names, hshape, rfl, hnames, ?_⟩
      rw [← List.length_map (ofReference isForward), ← hnames]
      exact htagged.1
    · exact absurd h List.not_mem_nil
  · exact absurd h List.not_mem_nil

end ofSpec

end TypeExpr

/-! ### The tagged unions of a declaration -/

namespace Body

/-- The tagged unions in a declaration, each with its members and its field. -/
def tags : Body → List (List TypeExpr × String)
  | enum _ => []
  | model _ fields => fields.flatMap fun f => f.type.tags
  | union _ members => TypeExpr.tagsAll members
  | typeAlias type _ => type.tags

section ofDefinition
variable {settings : Settings} {t : Table} {isForward : String → Bool} {d : Definition}
  {body : Body} {tag : List TypeExpr × String}

theorem tags_fieldOf (record : Record) (f : String × Spec) :
    (fieldOf isForward t record f).type.tags = (TypeExpr.ofSpec isForward f.2).tags := by
  show (if _ then TypeExpr.ofSpec isForward f.2
    else (TypeExpr.ofSpec isForward f.2).toOptional).tags = _
  split
  · rfl
  · exact TypeExpr.tags_toOptional _

/-- The tagged unions in a declaration, by the specifications in its definition. -/
theorem tags_ofDefinition (h : ofDefinition settings t isForward d = .ok body) :
    body.tags = d.properties.flatMap fun s => s.specs.flatMap (TypeExpr.ownTags isForward) := by
  unfold Definition.properties
  rcases ofDefinition_eq_ok h with ⟨_, _, hk, _, rfl⟩ | ⟨record, hk, rfl⟩ |
    ⟨members, _, hk, _, rfl⟩ | ⟨spec, hk, rfl⟩
  · rw [hk]
    rfl
  · rw [hk, tags, List.flatMap_map, List.flatMap_map]
    exact List.flatMap_congr fun f _ => by rw [tags_fieldOf, TypeExpr.tags_ofSpec_eq]
  · rw [hk]
    exact TypeExpr.tagsAll_ofReferences members
  · rw [hk, tags, TypeExpr.tags_ofSpec_eq]
    exact (List.append_nil _).symm

/-- A tagged union in a declaration is written in its code. -/
theorem holds_tag (h : ofDefinition settings t isForward d = .ok body) (htag : tag ∈ body.tags)
    (indent name : String) (description : Option String) :
    Holds (body.text indent name description) (TypeExpr.tagged tag.1 tag.2).text := by
  rcases ofDefinition_eq_ok h with ⟨_, _, _, _, rfl⟩ | ⟨record, _, rfl⟩ |
    ⟨members, _, _, _, rfl⟩ | ⟨spec, _, rfl⟩
  · exact absurd htag List.not_mem_nil
  · obtain ⟨line, hline, htag⟩ := List.mem_flatMap.mp htag
    have htype := line.holds_type.trans (TypeExpr.holds_tag line.type htag)
    exact (holds_line hline indent name description _).trans htype
  · rw [tags, TypeExpr.tagsAll_ofReferences] at htag
    exact absurd htag List.not_mem_nil
  · refine (Holds.of_mem (List.mem_append_right _ (List.mem_singleton_self _))).trans ?_
    apply Holds.append_left
    split
    · exact TypeExpr.holds_tag _ htag
    · exact (holds_annotated _ _).trans (TypeExpr.holds_tag _ htag)

end ofDefinition

end Body

end SchemaModels.Model
