import Mathlib.Data.List.Flatten
import Mathlib.Data.List.Forall2
import SchemaModels.Proofs.Plan.Reference
import SchemaModels.Spec.Binding

/-!
# What binding records changes

Binding retypes fields and leaves all else of a table as it is. The substitutions say which fields,
and what each of them was and becomes. Both are computed from the table as it was before, so that
a record may be bound in a field of its own.

* `Table.StandsFor`: the record that an alias of a list of tuples stands for, the first that fits.
* `binding?_eq_some_iff`, `mem_substitutions_iff`: which fields change.
* `Table.Rebinds`, `Table.RebindsField`: what a definition and a field become.
* `bindRecords_changes`: the table after the change, with what the substitutions list.
-/

namespace SchemaModels

namespace Table

/-! ### Records that stand for tuples -/

/-- An alias lists tuples of some items. -/
def ListsTuples (t : Table) (tupleAlias : String) (items : List Spec) : Prop :=
  ∃ d spec item, t.get? tupleAlias = some d ∧ d.kind = .typeAlias spec ∧
    spec.shape = .array item ∧ item.shape = .tuple items

/-- The required fields of a record have the shapes of the items, one for one and in order. -/
def Fits (items : List Spec) (d : Definition) : Prop :=
  ∃ record, d.kind = .object record ∧
    List.Forall₂ (fun f i => f.2.shape.same i.shape = true) record.requiredFields items

/-- The first definition of a table, in declaration order, that fits. -/
def IsFirstFit (t : Table) (items : List Spec) (d : Definition) : Prop :=
  Fits items d ∧ ∃ before after, t.definitions = before ++ d :: after ∧
    ∀ c ∈ before, ¬Fits items c

/-- The record that an alias of a list of tuples stands for. -/
def StandsFor (t : Table) (tupleAlias record : String) : Prop :=
  ∃ items d, t.ListsTuples tupleAlias items ∧ t.IsFirstFit items d ∧ d.name = record

section stands
variable {t : Table} {items : List Spec} {d : Definition}

theorem tupleItems?_eq_some_iff : tupleItems? d = some items ↔
    ∃ spec item, d.kind = .typeAlias spec ∧ spec.shape = .array item ∧
      item.shape = .tuple items := by
  unfold tupleItems?
  cases hk : d.kind with
  | typeAlias spec =>
      simp only [Kind.typeAlias.injEq, exists_and_left, exists_eq_left']
      cases hs : spec.shape with
      | array item =>
          simp only [Shape.array.injEq, exists_eq_left']
          cases hi : item.shape <;> simp
      | _ => simp
  | _ => simp

theorem sameShapes_iff {fields : List Spec} : sameShapes fields items = true ↔
    List.Forall₂ (fun f i => f.shape.same i.shape = true) fields items := by
  induction fields generalizing items with
  | nil => cases items <;> simp [sameShapes]
  | cons f fields ih =>
      cases items with
      | nil => simp [sameShapes]
      | cons i items =>
          rw [List.forall₂_cons, ← ih]
          simp [sameShapes, and_left_comm]

theorem bindsItems_iff : bindsItems items d = true ↔ Fits items d := by
  unfold bindsItems Fits Definition.record?
  cases hk : d.kind with
  | object record =>
      simp only [Option.any_some, sameShapes_iff, List.forall₂_map_left_iff, Kind.object.injEq,
        exists_eq_left']
  | _ => simp

/-- The first record that fits is found. -/
theorem find?_bindsItems_iff :
    t.definitions.find? (bindsItems items) = some d ↔ t.IsFirstFit items d := by
  rw [List.find?_eq_some_iff_append, bindsItems_iff]
  simp only [IsFirstFit, Bool.not_eq_true', ← Bool.not_eq_true, bindsItems_iff]

theorem bind_tupleItems?_eq_some_iff {tupleAlias : String} :
    (t.get? tupleAlias).bind tupleItems? = some items ↔ t.ListsTuples tupleAlias items := by
  simp only [Option.bind_eq_some_iff, tupleItems?_eq_some_iff, ListsTuples, exists_and_left]

theorem bindingRecord_eq_some_iff {tupleAlias record : String} :
    t.bindingRecord tupleAlias = some record ↔ t.StandsFor tupleAlias record := by
  unfold bindingRecord StandsFor
  rw [Option.bind_eq_some_iff]
  simp only [bind_tupleItems?_eq_some_iff, Option.map_eq_some_iff, find?_bindsItems_iff,
    exists_and_left]

/-- A field is retyped when it is a reference to an alias that a record stands for. -/
theorem binding?_eq_some_iff {s : Spec} {tupleAlias record : String} :
    t.binding? s = some (tupleAlias, record) ↔
      s.shape = .reference tupleAlias ∧ t.StandsFor tupleAlias record := by
  unfold binding?
  cases hs : s.shape with
  | reference name =>
      simp only [Shape.asReference?, Option.bind_some, Option.map_eq_some_iff, Prod.mk.injEq,
        bindingRecord_eq_some_iff, Shape.reference.injEq]
      constructor
      · rintro ⟨_, h, rfl, rfl⟩
        exact ⟨rfl, h⟩
      · rintro ⟨rfl, h⟩
        exact ⟨record, h, rfl, rfl⟩
  | _ => simp [Shape.asReference?]

end stands

/-! ### Substitutions -/

section substitutions
variable {t : Table} {d : Definition} {r : Record} {f : String × Spec}

/-- The fields that change are those of the records of the table that are retyped. -/
theorem mem_substitutions_iff {s : Substitution} : s ∈ t.substitutions ↔
    ∃ d ∈ t.definitions, ∃ r, d.kind = .object r ∧ ∃ f ∈ r.fields, ∃ b,
      t.binding? f.2 = some b ∧ s = ⟨d.name, f.1, b.1, b.2⟩ := by
  rw [substitutions, List.mem_flatMap]
  refine exists_congr fun d => and_congr_right fun _ => ?_
  unfold substitutionsIn
  cases hk : d.kind with
  | object r =>
      simp only [List.mem_filterMap, Option.map_eq_some_iff, Kind.object.injEq, exists_eq_left']
      refine exists_congr fun f => and_congr_right fun _ => exists_congr fun b => ?_
      exact and_congr_right fun _ => eq_comm
  | _ => simp

/-- The substitution of a field is told by its specification. -/
theorem mem_substitutions_of_field {s : Substitution} (hd : d ∈ t.definitions)
    (hk : d.kind = .object r) (hf : f ∈ r.fields) :
    (s ∈ t.substitutions ∧ s.owner = d.name ∧ s.field = f.1) ↔
      ∃ b, t.binding? f.2 = some b ∧ s = ⟨d.name, f.1, b.1, b.2⟩ := by
  rw [mem_substitutions_iff]
  constructor
  · rintro ⟨⟨e, he, q, hq, g, hg, b, hb, rfl⟩, howner, hfield⟩
    -- Names are different, in the table and in the record: the place is the one given.
    obtain rfl := List.inj_on_of_nodup_map t.names_nodup he hd howner
    obtain rfl : q = r := Kind.object.inj (hq.symm.trans hk)
    obtain rfl := List.inj_on_of_nodup_map q.names_nodup hg hf hfield
    exact ⟨b, hb, rfl⟩
  · rintro ⟨b, hb, rfl⟩
    exact ⟨⟨d, hd, r, hk, f, hf, b, hb, rfl⟩, rfl, rfl⟩

end substitutions

/-! ### Places of fields -/

/-- The fields of a definition with the name of their owner, in declaration order. -/
def fieldPlacesIn (d : Definition) : List (String × String) :=
  match d.kind with
  | .object r => r.fields.map fun f => (d.name, f.1)
  | _ => []

/-- The fields of a table with the names of their owners, in declaration order. -/
def fieldPlaces (t : Table) : List (String × String) := t.definitions.flatMap fieldPlacesIn

section places
variable {t : Table} {d : Definition}

theorem fst_of_mem_fieldPlacesIn {p : String × String} (h : p ∈ fieldPlacesIn d) :
    p.1 = d.name := by
  unfold fieldPlacesIn at h
  cases hk : d.kind with
  | object r =>
      simp only [hk, List.mem_map] at h
      obtain ⟨f, _, rfl⟩ := h
      rfl
  | _ => simp [hk] at h

theorem nodup_fieldPlacesIn : (fieldPlacesIn d).Nodup := by
  unfold fieldPlacesIn
  cases d.kind with
  | object r =>
      have hpairs := r.names_nodup.map (f := Prod.mk d.name) (Prod.mk_right_injective d.name)
      rwa [List.map_map] at hpairs
  | _ => exact List.nodup_nil

theorem nodup_fieldPlaces : t.fieldPlaces.Nodup := by
  rw [fieldPlaces, List.nodup_flatMap]
  refine ⟨fun d _ => nodup_fieldPlacesIn, ?_⟩
  have hnames := List.pairwise_map.mp t.names_nodup
  refine hnames.imp fun hne p hp hq => hne ?_
  rw [← fst_of_mem_fieldPlacesIn hp, ← fst_of_mem_fieldPlacesIn hq]

/-- The fields of a definition that change stand among its fields, in order. -/
theorem substitutionsIn_sublist :
    ((t.substitutionsIn d).map fun s => (s.owner, s.field)).Sublist (fieldPlacesIn d) := by
  unfold substitutionsIn fieldPlacesIn
  cases d.kind with
  | object r =>
      dsimp only
      induction r.fields with
      | nil => exact List.Sublist.slnil
      | cons f fields ih =>
          rw [List.filterMap_cons, List.map_cons]
          cases t.binding? f.2 with
          | none => exact ih.cons _
          | some b => exact ih.cons_cons _
  | _ => exact List.Sublist.slnil

/-- The substitutions list fields of the table in declaration order. -/
theorem substitutions_sublist :
    (t.substitutions.map fun s => (s.owner, s.field)).Sublist t.fieldPlaces := by
  rw [substitutions, fieldPlaces, List.map_flatMap]
  induction t.definitions with
  | nil => exact List.Sublist.slnil
  | cons d definitions ih =>
      rw [List.flatMap_cons, List.flatMap_cons]
      exact substitutionsIn_sublist.append ih

end places

/-! ### The change -/

/-- A field of an owner and what becomes of it. It changes when the substitutions list it, which
is when it refers to an alias that a record stands for; then it is an array of that record, and
all but its shape is kept. -/
structure RebindsField (t : Table) (owner : String) (f f' : String × Spec) : Prop where
  name : f'.1 = f.1
  kept : f'.2 = { f.2 with shape := f'.2.shape }
  changed : f'.2 ≠ f.2 ↔ ∃ s ∈ t.substitutions, s.owner = owner ∧ s.field = f.1
  bound : f'.2 ≠ f.2 ↔ ∃ tupleAlias record, f.2.shape = .reference tupleAlias ∧
    t.StandsFor tupleAlias record
  retyped : ∀ s ∈ t.substitutions, s.owner = owner → s.field = f.1 →
    f.2.shape = .reference s.tupleAlias ∧ t.StandsFor s.tupleAlias s.record ∧
      f'.2.shape = .array { shape := .reference s.record }

/-- A definition and what becomes of it. A record keeps its required names and its strictness, and
its fields are those before in the same order, some of them retyped. -/
structure Rebinds (t : Table) (d d' : Definition) : Prop where
  name : d'.name = d.name
  description : d'.description = d.description
  other : d.isObject = false → d' = d
  record : ∀ r, d.kind = .object r → ∃ r', d'.kind = .object r' ∧ r'.required = r.required ∧
    r'.strict = r.strict ∧ List.Forall₂ (t.RebindsField d.name) r.fields r'.fields

section change
variable {t : Table} {d : Definition} {r : Record} {f : String × Spec} {s : Spec}

theorem bindField_kept : t.bindField s = { s with shape := (t.bindField s).shape } := by
  obtain ⟨shape, bounds, default, nullable, description⟩ := s
  unfold bindField
  split <;> rfl

/-- A field changes when it is retyped: an array is not a reference. -/
theorem bindField_ne_iff : t.bindField s ≠ s ↔ ∃ b, t.binding? s = some b := by
  unfold bindField
  cases hb : t.binding? s with
  | none => simp
  | some b =>
      have hshape := (binding?_eq_some_iff.mp hb).1
      refine iff_of_true (fun h => ?_) ⟨b, rfl⟩
      have hsame := congrArg Spec.shape h
      rw [hshape] at hsame
      exact Shape.noConfusion hsame

theorem rebindsField (hd : d ∈ t.definitions) (hk : d.kind = .object r) (hf : f ∈ r.fields) :
    t.RebindsField d.name f (f.1, t.bindField f.2) where
  name := rfl
  kept := bindField_kept
  changed := by
    rw [bindField_ne_iff]
    constructor
    · rintro ⟨b, hb⟩
      exact ⟨_, (mem_substitutions_of_field hd hk hf).mpr ⟨b, hb, rfl⟩⟩
    · rintro ⟨s, hs⟩
      obtain ⟨b, hb, -⟩ := (mem_substitutions_of_field hd hk hf).mp hs
      exact ⟨b, hb⟩
  bound := by
    rw [bindField_ne_iff]
    simp only [Prod.exists, binding?_eq_some_iff]
  retyped := by
    intro s hs howner hfield
    obtain ⟨b, hb, rfl⟩ := (mem_substitutions_of_field hd hk hf).mp ⟨hs, howner, hfield⟩
    obtain ⟨hshape, hstands⟩ := binding?_eq_some_iff.mp hb
    refine ⟨hshape, hstands, ?_⟩
    simp only [bindField, hb]

theorem rebinds (hd : d ∈ t.definitions) : t.Rebinds d { d with kind := t.bindKind d } where
  name := rfl
  description := rfl
  other := by
    intro h
    obtain ⟨name, description, kind⟩ := d
    cases kind with
    | object r => simp [Definition.isObject] at h
    | _ => rfl
  record := by
    intro r hk
    refine ⟨r.mapFields fun _ s => t.bindField s, by simp only [bindKind, hk], rfl, rfl, ?_⟩
    simp only [Record.mapFields, List.forall₂_map_right_iff, List.forall₂_same]
    exact fun f hf => rebindsField hd hk hf

end change

/-- Binding changes what it lists and nothing else. Each definition stays in its place with what
`Rebinds` keeps, and the substitutions list fields of the table in order, no field twice. -/
theorem bindRecords_changes (t : Table) :
    t.bindRecords.root = t.root ∧
      List.Forall₂ t.Rebinds t.definitions t.bindRecords.definitions ∧
      (t.substitutions.map fun s => (s.owner, s.field)).Sublist t.fieldPlaces ∧
      t.fieldPlaces.Nodup := by
  refine ⟨rfl, ?_, substitutions_sublist, nodup_fieldPlaces⟩
  simp only [bindRecords, mapKinds, List.forall₂_map_right_iff, List.forall₂_same]
  exact fun d hd => rebinds hd

/-- A list of pairs, and a record of such a pair that holds the list. -/
def listedPairs : Table where
  root := {}
  definitions :=
    let list : Spec := { shape := .reference "Pairs" }
    let items : List Spec := [list, { shape := .any }]
    let pair : Record := ⟨[("first", list), ("second", { shape := .any })],
      ["second", "first"], false, by decide⟩
    [⟨"Pairs", none, .typeAlias { shape := .array { shape := .tuple items } }⟩,
      ⟨"Pair", none, .object pair⟩]
  names_nodup := by decide

-- The table is read as it was: a record that is bound in its own field still fits.
example : listedPairs.substitutions = [⟨"Pair", "first", "Pairs", "Pair"⟩] := by decide

end Table

end SchemaModels
