import SchemaModels.Proofs.Unit.Declarations
import SchemaModels.Proofs.Validator.Tagged

/-!
# Tagged unions in units of validators

A tagged union takes the schemas of its members apart when it is made, so that each member has to be
the plain constant of a record that is there already. The tests for this look at what the members
refer to, and a constant is also annotated for what refers to it.

* `isRecursive_iff`, `Reaches.of_isRecursive`: which constants are annotated.
* `GeneratedUnit.Ready`: what a tagged union needs of a member.
* `tags_ofTable`: members are always bare names of constants that are declared before. Those of a
  union definition are ready exactly when nothing that is declared before refers to them, those of a
  union inside a schema when they are records besides, and are not annotated.
-/

namespace SchemaModels

/-! ### Annotated constants -/

theorem Plan.find_eq_some_iff {plan : Plan} (hn : (plan.map Planned.name).Nodup) {name : String}
    {p : Planned} : plan.find name = some p ↔ p ∈ plan ∧ p.name = name :=
  Keyed.find?_eq_some_iff hn

namespace Validator
variable {plan : Plan} {n : String}

/-- A constant is annotated for its own forward references and for those that name it. -/
theorem isRecursive_iff : isRecursive plan n = true ↔
    (∃ p ∈ plan, p.name = n ∧ p.forwardRefs ≠ []) ∨ ∃ p ∈ plan, n ∈ p.forwardRefs := by
  simp only [isRecursive, Planned.isForward, List.any_eq_true, Bool.or_eq_true, Bool.and_eq_true,
    decide_eq_true_eq, Bool.not_eq_true', List.contains_iff_mem, and_or_left, exists_or,
    List.isEmpty_eq_false_iff]

/-- A member that is settled is a record without forward references. -/
theorem isSettled_iff {t : Table} {isForward : String → Bool}
    (hn : (plan.map Planned.name).Nodup) : Body.isSettled t plan isForward n = true ↔
      isForward n = false ∧ (∀ p ∈ plan, p.name = n → p.forwardRefs = []) ∧
        ∃ d, t.get? n = some d ∧ d.isObject = true := by
  have hfind : ((plan.find n).any fun p => !p.forwardRefs.isEmpty) = false ↔
      ∀ p ∈ plan, p.name = n → p.forwardRefs = [] := by
    rw [Option.any_eq_false]
    constructor
    · intro h p hp hname
      simpa using h p ((Plan.find_eq_some_iff hn).mpr ⟨hp, hname⟩)
    · intro h p hfind
      obtain ⟨hp, hname⟩ := (Plan.find_eq_some_iff hn).mp hfind
      simp [h p hp hname]
  simp only [Body.isSettled, Bool.and_eq_true, Bool.not_eq_true', hfind, Option.any_eq_true,
    and_assoc]

end Validator

section planWith
variable {t : Table} {blocks : List (List Nat)} {order : SectionOrder} {plan : Plan}
  (hb : t.graph.IsComponents blocks) (h : t.planWith blocks order = .ok plan)
include hb h

/-- A definition whose constant is annotated leads back to itself. -/
theorem Table.Reaches.of_isRecursive {n : String} (hr : Validator.isRecursive plan n = true) :
    t.Reaches n n := by
  have hrefers : ∀ p ∈ plan, ∀ r ∈ p.forwardRefs, t.Refers p.name r := fun p hp r hr => by
    obtain ⟨d, hd, hdep⟩ := Table.exists_definition hb h hp
    obtain ⟨hmem, hname⟩ := Table.get?_eq_some_iff.mp hd
    have hdepends := Table.forwardRefs_subset hb h hp hr
    exact ⟨d, hmem, hname, Definition.mem_references.mp (hdep ▸ hdepends)⟩
  rcases Validator.isRecursive_iff.mp hr with ⟨p, hp, rfl, hne⟩ | ⟨p, hp, hmem⟩
  · obtain ⟨r, hr⟩ := List.exists_mem_of_ne_nil _ hne
    exact .head (hrefers p hp r hr) (Table.reaches_of_mem_forwardRefs hb h hp hr)
  · exact .tail (Table.reaches_of_mem_forwardRefs hb h hp hmem) (hrefers p hp n hmem)

end planWith

/-! ### Tagged unions -/

namespace GeneratedUnit

/-- A place of a unit declares the constant of a definition: its code is a body, printed, under an
annotation if the constant takes part in a cycle. -/
def Declares (u : GeneratedUnit) (settings : Settings) (t : Table) (j : Nat) (n : String)
    (body : Validator.Body) : Prop :=
  let settled := Target.zod.backend.settle settings
  ∃ p d decl, u.plan[j]? = some p ∧ p.name = n ∧ (t.bound settings).get? n = some d ∧
    Validator.Body.ofDefinition settled (t.bound settings) u.plan p.isForward d = .ok body ∧
    u.declarations[j]? = some decl ∧ decl.name = n ∧
    decl.code = Validator.exportBlock n (Validator.describedText settled d body)
      (settled.described d.description) (Validator.isRecursive u.plan n)

/-- What a tagged union in the declaration at a place needs of a member: the constant of a record
that is declared before and has no annotation. -/
structure Ready (u : GeneratedUnit) (settings : Settings) (t : Table) (i : Nat) (n : String) :
    Prop where
  isObject : ∃ d, (t.bound settings).get? n = some d ∧ d.isObject = true
  declared : ∃ j body, j < i ∧ u.Declares settings t j n body
  plain : Validator.isRecursive u.plan n = false

/-- The members of a tagged union in the declaration at a place, by name, with what is known of them
and when they are ready. -/
structure TagsInOrder (u : GeneratedUnit) (settings : Settings) (t : Table) (i : Nat)
    (body : Validator.Body) (members : List Validator.SchemaExpr) (names : List String) : Prop where
  bare : members = names.map Validator.SchemaExpr.name
  declared : ∀ n ∈ names, ∃ j body, j < i ∧ u.Declares settings t j n body
  ready_iff : (∀ n ∈ names, u.Ready settings t i n) ↔ ∀ n ∈ names,
    (∃ d, (t.bound settings).get? n = some d ∧ d.isObject = true) ∧
      Validator.isRecursive u.plan n = false
  ready_iff_of_union : ∀ tag, body = .union tag members →
    ((∀ n ∈ names, u.Ready settings t i n) ↔ ∀ n ∈ names, ∀ p ∈ u.plan, n ∉ p.forwardRefs)
  reaches : ∀ n ∈ names, Validator.isRecursive u.plan n = true → (t.bound settings).Reaches n n

section ofTable
variable {settings : Settings} {t : Table} {u : GeneratedUnit}
  (h : ofTable Target.zod.backend settings t = .ok u)
include h

theorem nodup_names_plan : (u.plan.map Planned.name).Nodup :=
  (perm_names h).nodup_iff.mpr (t.bound settings).names_nodup

/-- What is planned at a place is declared there. -/
theorem exists_declares {j : Nat} {p : Planned} (hp : u.plan[j]? = some p) :
    ∃ body, u.Declares settings t j p.name body := by
  obtain ⟨d, decl, hd, hdecl, hcode⟩ := getElem?_declarations h hp
  obtain ⟨body, hbody, rfl⟩ := Validator.declaration_eq_ok_iff.mp hcode
  obtain ⟨_, hname⟩ := Table.get?_eq_some_iff.mp hd
  exact ⟨body, p, d, _, hp, rfl, hd, hbody, hdecl, rfl, by rw [Declaration.ofPlanned, hname]⟩

/-- What a declaration names without delay is declared before it. -/
theorem exists_declares_before {i : Nat} {m n : String} {body : Validator.Body}
    (hbody : u.Declares settings t i m body) (hn : (⟨n, false⟩ : Mention) ∈ body.mentions) :
    ∃ j body', j < i ∧ u.Declares settings t j n body' := by
  obtain ⟨p, d, _, hp, rfl, hd, hbody, _⟩ := hbody
  rw [Validator.mentions_ofDefinition hbody, List.mem_map] at hn
  obtain ⟨r, hr, heq⟩ := hn
  obtain ⟨rfl, hforward⟩ := Mention.mk.inj heq
  rw [Planned.isForward, List.contains_eq_mem, decide_eq_false_iff_not] at hforward
  obtain ⟨j, q, hj, hq, rfl⟩ := exists_planned_before h hp hd hr hforward
  obtain ⟨body', hdeclares⟩ := exists_declares h hq
  exact ⟨j, body', hj, hdeclares⟩

/-- The tagged unions in a declaration. -/
theorem exists_tagsInOrder {i : Nat} {m : String} {body : Validator.Body}
    (hbody : u.Declares settings t i m body) {members : List Validator.SchemaExpr}
    (hm : members ∈ body.choices) : ∃ names, u.TagsInOrder settings t i body members names := by
  have hsource := hbody
  obtain ⟨p, d, decl, hp, _, hd, hof, _⟩ := hsource
  obtain ⟨names, rfl⟩ := Validator.Body.exists_names_of_choices hof hm
  have hdeclared : ∀ n ∈ names, ∃ j body', j < i ∧ u.Declares settings t j n body' := by
    refine fun n hn => exists_declares_before h hbody (Validator.Body.mentionsAll_subset hm ?_)
    rw [Validator.SchemaExpr.mentionsAll_names]
    exact List.mem_map_of_mem hn
  have hready : (∀ n ∈ names, u.Ready settings t i n) ↔ ∀ n ∈ names,
      (∃ d, (t.bound settings).get? n = some d ∧ d.isObject = true) ∧
        Validator.isRecursive u.plan n = false :=
    forall₂_congr fun n hn => ⟨fun hr => ⟨hr.isObject, hr.plain⟩,
      fun hr => ⟨hr.1, hdeclared n hn, hr.2⟩⟩
  refine ⟨names, rfl, hdeclared, hready, fun tag hunion => ?_, fun n _ hr =>
    .of_isRecursive Table.isComponents_blocks (exists_declare h).1 hr⟩
  subst hunion
  rw [hready]
  refine forall₂_congr fun n hn => ?_
  have hsettled := Validator.Body.isSettled_of_choices hof hm n hn
  obtain ⟨_, hown, hobject⟩ := (Validator.isSettled_iff (nodup_names_plan h)).mp hsettled
  rw [← Bool.not_eq_true, Validator.isRecursive_iff, not_or]
  constructor
  · rintro ⟨_, _, hnone⟩ q hq hmem
    exact hnone ⟨q, hq, hmem⟩
  · refine fun hnone => ⟨hobject, ?_, ?_⟩
    · rintro ⟨q, hq, hname, hne⟩
      exact hne (hown q hq hname)
    · rintro ⟨q, hq, hmem⟩
      exact hnone q hq hmem

/-- Each tagged union in a unit, in a declaration of a union or inside another one, is among bare
names of constants that are declared before. They are records without an annotation exactly under
the conditions of `TagsInOrder`; and an annotated one leads back to itself. -/
theorem tags_ofTable : ∀ (i : Nat) (p : Planned), u.plan[i]? = some p → ∃ body,
    u.Declares settings t i p.name body ∧ ∀ members ∈ body.choices,
      ∃ names, u.TagsInOrder settings t i body members names := by
  intro i p hp
  obtain ⟨body, hbody⟩ := exists_declares h hp
  exact ⟨body, hbody, fun members hm => exists_tagsInOrder h hbody hm⟩

end ofTable

end GeneratedUnit

/-- Panels have a group as header and items that are groups or texts; a group refers to its panel,
and a text has a color or a group as style. -/
def Table.panels : Table where
  root := { metadataType := "Text", rootType := "Panel" }
  definitions :=
    [⟨"Color", none, .enum ["red", "blue"]⟩,
     ⟨"Panel", none, .object
       ((Record.empty.insert "header" { shape := .reference "Group" }).insert "items"
         { shape := .array { shape := .reference "Item" } })⟩,
     ⟨"Group", none, .object
       ((Record.empty.insert "kind" { shape := .const (.string "group") }).insert "panel"
         { shape := .reference "Panel" })⟩,
     ⟨"Text", none, .object
       ((Record.empty.insert "kind" { shape := .const (.string "text") }).insert "style"
         { shape := .union [{ shape := .reference "Color" }, { shape := .reference "Group" }]
             (some "kind") })⟩,
     ⟨"Item", none, .union ["Group", "Text"] (some "kind")⟩]
  names_nodup := by decide

namespace GeneratedUnit

theorem tags_ofTable_panels : ∃ u p, ofTable Target.zod.backend {} Table.panels = .ok u ∧
    u.plan[4]? = some p ∧ p.name = "Item" ∧ ∃ body, u.Declares {} Table.panels 4 "Item" body ∧
      ∀ members ∈ body.choices, ∃ names, u.TagsInOrder {} Table.panels 4 body members names := by
  have h : ofTable Target.zod.backend {} Table.panels = .ok _ := rfl
  exact ⟨_, _, h, rfl, rfl, tags_ofTable h 4 _ rfl⟩

/-- Panels name groups before they are declared, so that the constant of groups is annotated. It is
a member of a tagged union nevertheless, of items and, with a constant that is no record, inside a
text. -/
theorem tags_not_ready : ∃ u, ofTable Target.zod.backend {} Table.panels = .ok u ∧
    (∃ body, u.Declares {} Table.panels 4 "Item" body ∧
      body = .union (some "kind") [.name "Group", .name "Text"] ∧
      ¬u.Ready {} Table.panels 4 "Group") ∧
    ∃ body, u.Declares {} Table.panels 3 "Text" body ∧
      body.choices = [[.name "Color", .name "Group"]] ∧
      ¬u.Ready {} Table.panels 3 "Color" ∧ ¬u.Ready {} Table.panels 3 "Group" := by
  have h : ofTable Target.zod.backend {} Table.panels = .ok _ := rfl
  refine ⟨_, h, ⟨_, ⟨_, _, _, rfl, rfl, rfl, rfl, rfl, rfl, rfl⟩, rfl, fun hr => ?_⟩,
    _, ⟨_, _, _, rfl, rfl, rfl, rfl, rfl, rfl, rfl⟩, rfl, fun hr => ?_, fun hr => ?_⟩
  · have hannotated : true = false := hr.plain
    exact absurd hannotated (by decide)
  · obtain ⟨d, hd, hobject⟩ := hr.isObject
    obtain rfl := Option.some.inj hd
    have hrecord : false = true := hobject
    exact absurd hrecord (by decide)
  · have hannotated : true = false := hr.plain
    exact absurd hannotated (by decide)

end GeneratedUnit

end SchemaModels
