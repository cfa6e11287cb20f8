import Mathlib.Data.List.Chain
import SchemaModels.Proofs.Unit.Tagged
import SchemaModels.Proofs.Unit.Targets

/-!
# Annotated constants

The type of a constant cannot be inferred when its schema leads back to it, so that the constants of
some definitions carry an annotation. Which ones is told by forward references alone. A circuit of
references has to go back to a definition that is declared at the same place or later, and a forward
reference never leads out of a circuit.

* `Validator.IsAnnotated`, `isAnnotated_iff`: the annotation in the code of a definition.
* `Table.IsCircuit`, `CutsCircuits`: references that come back to where they begin, and what cuts
  them exactly.
* `exists_forwardRefs_of_isCircuit`: without a forward reference, places would only go down.
* `cutsCircuits_annotations`: the annotations of a plan and of a unit cut the circuits exactly.
-/

namespace SchemaModels

/-! ### Annotations in code -/

namespace Validator

/-- What stands above the constant of a definition. -/
def commentAbove (settings : Settings) (d : Definition) : String :=
  ((settings.described d.description).map fun text => jsdoc text ++ "\n").getD ""

/-- Whether the constant of a definition is declared with an annotation. -/
def IsAnnotated (settings : Settings) (d : Definition) (decl : Declaration) : Prop :=
  ∃ rest, decl.code =
    commentAbove settings d ++ "export const " ++ schemaName d.name ++ ": z.ZodTypeAny = " ++ rest

/-- The constant has the annotation exactly when its definition takes part in a recursion. -/
theorem isAnnotated_iff {settings : Settings} {t : Table} {plan : Plan} {p : Planned}
    {d : Definition} {decl : Declaration} (h : declaration settings t plan p d = .ok decl) :
    IsAnnotated settings d decl ↔ isRecursive plan d.name = true := by
  obtain ⟨body, _, rfl⟩ := declaration_eq_ok_iff.mp h
  have hcode : ∀ annotate, exportBlock d.name (describedText settings d body)
      (settings.described d.description) annotate =
        commentAbove settings d ++ "export const " ++ schemaName d.name ++
          (if annotate then ": z.ZodTypeAny" else "") ++ " = " ++
          describedText settings d body ++ ";\n" ++
          "export type " ++ d.name ++ " = z.infer<typeof " ++ schemaName d.name ++ ">;" :=
    fun _ => rfl
  simp only [IsAnnotated, Declaration.ofPlanned, hcode]
  cases isRecursive plan d.name with
  | true =>
      simp only [if_true, iff_true]
      refine ⟨describedText settings d body ++ ";\n" ++ "export type " ++ d.name ++
        " = z.infer<typeof " ++ schemaName d.name ++ ">;", ?_⟩
      have htyped : ": z.ZodTypeAny = " = ": z.ZodTypeAny" ++ " = " := rfl
      rw [htyped]
      simp only [String.append_assoc]
  | false =>
      simp only [Bool.false_eq_true, if_false, iff_false, String.append_empty]
      rintro ⟨rest, hrest⟩
      -- after the name of the constant one text goes on with a blank, the other with a colon
      have htexts := congrArg String.toList hrest
      simp only [String.append_assoc, String.toList_append, List.append_cancel_left_eq] at htexts
      exact absurd (congrArg List.head? htexts) (by simp)

end Validator

/-! ### Circuits -/

namespace Table

/-- A name with others that refer to each other in turn, the last one to the first. -/
def IsCircuit (t : Table) (first : String) (others : List String) : Prop :=
  (first :: (others ++ [first])).IsChain t.Refers

variable {t : Table}

/-- A name that leads back to itself begins a circuit. -/
theorem exists_isCircuit {n : String} (h : t.Reaches n n) : ∃ others, t.IsCircuit n others := by
  obtain ⟨m, hlast, hm⟩ := Relation.TransGen.tail'_iff.mp h
  obtain ⟨others, hchain, rfl⟩ := List.exists_isChain_cons_of_relationReflTransGen hlast
  refine ⟨others, ?_⟩
  rw [IsCircuit, ← List.cons_append, List.isChain_append]
  refine ⟨hchain, List.isChain_singleton n, fun a ha b hb => ?_⟩
  rw [List.getLast?_eq_getLast_of_ne_nil (List.cons_ne_nil n others)] at ha
  obtain rfl := Option.some.inj ha
  obtain rfl := Option.some.inj hb
  exact hm

/-- Annotations cut the circuits of a table exactly: each circuit has an annotated name, and every
annotated name begins a circuit. -/
structure CutsCircuits (t : Table) (annotated : String → Prop) : Prop where
  exists_annotated : ∀ first others, t.IsCircuit first others → ∃ n ∈ first :: others, annotated n
  exists_isCircuit : ∀ n, annotated n → ∃ others, t.IsCircuit n others

section planWith
variable {blocks : List (List Nat)} {order : SectionOrder} {plan : Plan}
  (hb : t.graph.IsComponents blocks) (h : t.planWith blocks order = .ok plan)
include hb h

/-- What a definition without forward references refers to is planned before it. -/
theorem position_lt_of_refers {a b : String} (hab : t.Refers a b)
    (hnone : ∀ p ∈ plan, p.name = a → p.forwardRefs = []) :
    plan.position b < plan.position a := by
  obtain ⟨d, hd, rfl, hmentions⟩ := hab
  have hperm := perm_names_plan hb h
  have hn : (plan.map Planned.name).Nodup := hperm.nodup_iff.mpr t.names_nodup
  have hmem : d.name ∈ plan.map Planned.name := hperm.mem_iff.mpr (mem_names.mpr ⟨d, hd, rfl⟩)
  obtain ⟨p, hp, hname⟩ := List.mem_map.mp hmem
  obtain ⟨m, hm⟩ := List.mem_iff_getElem?.mp hp
  obtain ⟨e, he, hdep⟩ := exists_definition hb h hp
  obtain rfl : e = d := Option.some.inj
    (he.symm.trans (get?_eq_some_iff.mpr ⟨hd, hname.symm⟩))
  have hb' : b ∈ p.dependencies := hdep ▸ Definition.mem_references.mpr hmentions
  obtain ⟨n, q, hq, rfl⟩ := exists_planned_of_dependency hb h hp hb'
  rw [← hname, Plan.position_eq hn hm, Plan.position_eq hn hq]
  by_contra hle
  have hforward := (mem_forwardRefs_iff hb h hm hq).mpr ⟨hb', Nat.le_of_not_lt hle⟩
  rw [hnone p hp hname] at hforward
  exact absurd hforward List.not_mem_nil

/-- A circuit has a definition with forward references: without one the places would go down from a
name to itself. -/
theorem exists_forwardRefs_of_isCircuit {first : String} {others : List String}
    (hcircuit : t.IsCircuit first others) :
    ∃ p ∈ plan, p.name ∈ first :: others ∧ p.forwardRefs ≠ [] := by
  by_contra hnone
  push Not at hnone
  have hdown : (first :: (others ++ [first])).IsChain
      fun a b => plan.position b < plan.position a := by
    refine List.IsChain.imp_of_mem_imp ?_ hcircuit
    intro a b ha _ hab
    refine position_lt_of_refers hb h hab fun p hp hname => hnone p hp ?_
    have ha' : a ∈ first :: others ∨ a = first := by simpa [or_comm, or_assoc] using ha
    rcases ha' with ha' | rfl
    · exact hname ▸ ha'
    · exact hname ▸ List.mem_cons_self
  have htrans : Trans (fun a b => plan.position b < plan.position a)
      (fun a b => plan.position b < plan.position a)
      fun a b => plan.position b < plan.position a := ⟨fun hab hbc => Nat.lt_trans hbc hab⟩
  have hpairs := List.isChain_iff_pairwise.mp hdown
  have hself := (List.pairwise_cons.mp hpairs).1 first (by simp)
  exact absurd hself (Nat.lt_irrefl _)

end planWith

end Table

/-! ### Annotations of plans and units -/

namespace Validator

/-- A plan declares the constant of a definition with an annotation. -/
def Annotates (settings : Settings) (t : Table) (plan : Plan) (n : String) : Prop :=
  ∃ p ∈ plan, ∃ d decl, p.name = n ∧ t.get? p.name = some d ∧
    declaration settings t plan p d = .ok decl ∧ IsAnnotated settings d decl

section planWith
variable {t : Table} {blocks : List (List Nat)} {order : SectionOrder} {plan : Plan}
  (hb : t.graph.IsComponents blocks) (h : t.planWith blocks order = .ok plan)
include hb h

/-- A definition with forward references is a record, so that its constant can be declared. -/
theorem annotates_of_forwardRefs (settings : Settings) {p : Planned} (hp : p ∈ plan)
    (hforward : p.forwardRefs ≠ []) : Annotates settings t plan p.name := by
  obtain ⟨d, hd, _⟩ := Table.exists_definition hb h hp
  have hunion : ∀ discriminator, d.kind ≠ .union [] discriminator := fun discriminator hk =>
    hforward (Table.forwardRefs_eq_nil hb h hp hd (by rw [Definition.isObject, hk]))
  obtain ⟨body, hbody⟩ := exists_ofDefinition hunion
  have hdecl : declaration settings t plan p d = .ok _ :=
    declaration_eq_ok_iff.mpr ⟨body, hbody, rfl⟩
  obtain ⟨-, hname⟩ := Table.get?_eq_some_iff.mp hd
  have hrecursive : isRecursive plan d.name = true :=
    isRecursive_iff.mpr (.inl ⟨p, hp, hname.symm, hforward⟩)
  exact ⟨p, hp, d, _, rfl, hd, hdecl, (isAnnotated_iff hdecl).mpr hrecursive⟩

/-- The annotations of a plan cut the circuits of its table exactly. -/
theorem cutsCircuits_annotates (settings : Settings) :
    t.CutsCircuits (Annotates settings t plan) where
  exists_annotated first others hcircuit := by
    obtain ⟨p, hp, hmem, hforward⟩ := Table.exists_forwardRefs_of_isCircuit hb h hcircuit
    exact ⟨p.name, hmem, annotates_of_forwardRefs hb h settings hp hforward⟩
  exists_isCircuit n hn := by
    obtain ⟨p, hp, d, decl, rfl, hd, hdecl, hannotated⟩ := hn
    obtain ⟨-, hname⟩ := Table.get?_eq_some_iff.mp hd
    have hrecursive := (isAnnotated_iff hdecl).mp hannotated
    exact Table.exists_isCircuit (.of_isRecursive hb h (hname ▸ hrecursive))

end planWith

end Validator

namespace GeneratedUnit

/-- A unit declares the constant of a definition with an annotation. -/
def Annotates (u : GeneratedUnit) (settings : Settings) (t : Table) (n : String) : Prop :=
  ∃ (i : Nat) (p : Planned) (d : Definition) (decl : Declaration), u.plan[i]? = some p ∧
    p.name = n ∧ (t.bound settings).get? p.name = some d ∧ u.declarations[i]? = some decl ∧
    Validator.IsAnnotated (Validator.backend.settle settings) d decl

/-- The annotations of a unit are those of its plan. -/
theorem annotates_iff {settings : Settings} {t : Table} {u : GeneratedUnit}
    (h : ofTable Validator.backend settings t = .ok u) {n : String} : u.Annotates settings t n ↔
      Validator.Annotates (Validator.backend.settle settings) (t.bound settings) u.plan n := by
  constructor
  · rintro ⟨i, p, d, decl, hp, hname, hd, hdecl, hannotated⟩
    obtain ⟨d', decl', hd', hdecl', hok⟩ := getElem?_declarations h hp
    obtain rfl : d' = d := Option.some.inj (hd'.symm.trans hd)
    obtain rfl : decl' = decl := Option.some.inj (hdecl'.symm.trans hdecl)
    exact ⟨p, List.mem_of_getElem? hp, d', decl', hname, hd, hok, hannotated⟩
  · rintro ⟨p, hp, d, decl, hname, hd, hok, hannotated⟩
    obtain ⟨i, hi⟩ := List.mem_iff_getElem?.mp hp
    obtain ⟨d', decl', hd', hdecl', hok'⟩ := getElem?_declarations h hi
    obtain rfl : d' = d := Option.some.inj (hd'.symm.trans hd)
    obtain rfl : decl' = decl := Except.ok.inj (hok'.symm.trans hok)
    exact ⟨i, p, d', decl', hi, hname, hd, hdecl', hannotated⟩

/-- The annotated constants cut the circuits of references exactly, for every plan and in every
unit: each circuit has one, and each of them begins a circuit. -/
theorem cutsCircuits_annotations :
    (∀ (settings : Settings) (t : Table) (blocks : List (List Nat)) (order : SectionOrder)
      (plan : Plan), t.graph.IsComponents blocks → t.planWith blocks order = .ok plan →
      t.CutsCircuits (Validator.Annotates settings t plan)) ∧
    ∀ (settings : Settings) (t : Table) (u : GeneratedUnit),
      ofTable Validator.backend settings t = .ok u →
      (t.bound settings).CutsCircuits (u.Annotates settings t) := by
  refine ⟨fun settings _ _ _ _ hb h => Validator.cutsCircuits_annotates hb h settings,
    fun settings t u h => ?_⟩
  have hcuts := Validator.cutsCircuits_annotates Table.isComponents_blocks (exists_declare h).1
    (Validator.backend.settle settings)
  refine ⟨fun first others hcircuit => ?_, fun n hn => hcuts.exists_isCircuit n
    ((annotates_iff h).mp hn)⟩
  obtain ⟨n, hn, hannotates⟩ := hcuts.exists_annotated first others hcircuit
  exact ⟨n, hn, (annotates_iff h).mpr hannotates⟩

/-- A card and its components refer to each other; the constants of both are annotated. -/
theorem cutsCircuits_annotations_cards :
    Table.cards.IsCircuit "UIComponent" ["Card"] ∧
    (∃ plan, Table.cards.planWith Table.cards.blocks {} = .ok plan ∧
      Table.cards.CutsCircuits (Validator.Annotates {} Table.cards plan)) ∧
    ∃ u, ofTable Validator.backend {} Table.cards = .ok u ∧
      Table.cards.CutsCircuits (u.Annotates {} Table.cards) := by
  have hcircuit : Table.cards.IsCircuit "UIComponent" ["Card"] :=
    .cons_cons ⟨_, List.mem_cons_self, rfl, by decide⟩
      (.cons_cons ⟨Table.cards.definitions[2], by simp, rfl, by decide⟩ (.singleton _))
  have hplan : Table.cards.planWith Table.cards.blocks {} = .ok _ := rfl
  have hunit : ofTable Validator.backend {} Table.cards = .ok _ := rfl
  exact ⟨hcircuit,
    ⟨_, hplan, cutsCircuits_annotations.1 _ _ _ _ _ Table.isComponents_blocks hplan⟩,
    _, hunit, cutsCircuits_annotations.2 _ _ _ hunit⟩

end GeneratedUnit

end SchemaModels
