import SchemaModels.Proofs.Canonical.Dispatch
import SchemaModels.Proofs.Document.Property
import SchemaModels.Proofs.Document.Read

/-!
# Inferred discriminators

A union that states no discriminator takes the first field that all of its members require as a
constant. The constants are looked up in the document as it is written, but the members are read by
the keywords that come first: a definition with `enum` or with alternatives is no record, and a
field with a reference is no constant. Nor are the constants compared.

No object of a document repeats a key: so it is with whatever is read of a text
(`Json.distinct_of_ofText?`).

* `asConst?_of_property`: when a field that states a constant is one.
* `constant?_of_tagsWith`: when a member is read as a record with the constant that it states.
* `Table.TellsApart`: a field by which the members of a union can be told apart.
* `tellsApart_inferred_iff`: when an inferred discriminator tells the members apart.
* `inferred_not_tellsApart`: unions with an inferred discriminator that does not.
-/

namespace SchemaModels

/-- Different names do not have the same constant. -/
def Differ (names : List String) (constant? : String → Option Json) : Prop :=
  ∀ m ∈ names, ∀ n ∈ names, m ≠ n → ∀ c ∈ constant? m, ∀ e ∈ constant? n, c.same e = false

instance (names : List String) (constant? : String → Option Json) :
    Decidable (Differ names constant?) :=
  inferInstanceAs (Decidable (∀ m ∈ names, ∀ n ∈ names, m ≠ n → ∀ c ∈ constant? m,
    ∀ e ∈ constant? n, c.same e = false))

theorem Differ.congr {names : List String} {f g : String → Option Json}
    (h : ∀ m ∈ names, f m = g m) : Differ names f ↔ Differ names g := by
  refine forall₂_congr fun m hm => forall₂_congr fun n hn => ?_
  rw [h m hm, h n hn]

/-- The members are records that require a field, which is a constant, another one in each. -/
structure Table.TellsApart (t : Table) (members : List String) (field : String) : Prop where
  required : ∀ m ∈ members, ∃ d record, t.get? m = some d ∧ d.kind = .object record ∧
    record.isRequired field = true
  constant : ∀ m ∈ members, ∃ c, t.constant? m field = some c
  differ : Differ members (t.constant? · field)

namespace Document

/-! ### Constants and unions -/

/-- The constant of a field, unless a reference stands beside it. -/
theorem asConst?_of_property {fs : Entries} {c : Json} (hc : Entries.get? fs "const" = some c)
    {spec : Spec} (h : property (.object fs) = .ok spec) :
    spec.shape.asConst? = if string? fs "$ref" = none then some c else none := by
  rw [property] at h
  -- the form decides which of the branches of `property` is taken
  cases hr : string? fs "$ref" with
  | none =>
      have hform : Form.of fs = .const c := by simp [Form.of, hr, hc]
      split at h <;> simp_all
      rw [← h]
      rfl
  | some pointer =>
      have hform : Form.of fs = .reference pointer := by simp [Form.of, hr]
      split at h <;> simp_all
      obtain ⟨name, _, rfl⟩ := map_eq_ok_iff.mp h
      rfl

/-- The discriminator of a union that states none is inferred. -/
theorem inferred_of_kind {defs es : Entries} {members : List String} {field : String}
    (h : kind defs es = .ok (.union members (some field)))
    (hstated : statedDiscriminator es = none) :
    inferredDiscriminator defs members = some field := by
  unfold kind at h
  cases henum : Entries.get? es "enum" with
  | some values => simp [henum, map_eq_ok_iff] at h
  | none =>
      cases halt : alternatives? es with
      | none =>
          rw [henum, halt] at h
          cases hr : isRecord es <;> simp [hr, map_eq_ok_iff] at h
      | some ms =>
          rw [henum, halt] at h
          obtain ⟨names, _, hnames⟩ := map_eq_ok_iff.mp h
          obtain ⟨rfl, hfield⟩ := Kind.union.inj hnames
          rwa [hstated, Option.none_or] at hfield

/-- Every member of a union requires the inferred discriminator as a constant. -/
theorem tagsWith_of_inferred {defs : Entries} {members : List String} {field : String}
    (h : inferredDiscriminator defs members = some field) :
    ∀ m ∈ members, ∃ s, Entries.get? defs m = some s ∧ tagsWith field s = true := by
  intro m hm
  unfold inferredDiscriminator at h
  split at h
  · have hall := List.find?_some h
    exact (Option.any_eq_true _ _).mp (List.all_eq_true.mp hall m hm)
  · cases h

/-! ### Members -/

/-- The constant that a schema states for a field. -/
def statedConstant? (schema : Json) (field : String) : Option Json :=
  ((schema.get? "properties").bind (·.get? field)).bind (·.get? "const")

/-- A schema without keywords that come before its properties, and with none beside the constant of
a field that comes before it. -/
structure Unshadowed (schema : Json) (field : String) : Prop where
  enum : schema.get? "enum" = none
  oneOf : schema.get? "oneOf" = none
  anyOf : schema.get? "anyOf" = none
  reference : (((schema.get? "properties").bind (·.get? field)).bind (·.get? "$ref")).bind
    Json.asString? = none

/-- What a schema has that requires a field as a constant. -/
theorem exists_of_tagsWith {s : Json} {field : String} (h : tagsWith field s = true) :
    ∃ es fields fs c items, s = .object es ∧
      Entries.get? es "properties" = some (.object fields) ∧
      Entries.get? fields field = some (.object fs) ∧ Entries.get? fs "const" = some c ∧
      Entries.get? es "required" = some (.array items) ∧
      (items.filterMap Json.asString?).contains field = true := by
  simp only [tagsWith, Bool.and_eq_true, Option.isSome_iff_exists, Option.bind_eq_some_iff] at h
  obtain ⟨⟨c, p, ⟨ps, hps, hp⟩, hc⟩, hrequired⟩ := h
  obtain ⟨es, rfl, hps⟩ := Json.get?_eq_some_iff.mp hps
  obtain ⟨fields, rfl, hp⟩ := Json.get?_eq_some_iff.mp hp
  obtain ⟨fs, rfl, hc⟩ := Json.get?_eq_some_iff.mp hc
  split at hrequired
  · rename_i items hitems
    exact ⟨es, fields, fs, c, items, rfl, hps, hp, hc, hitems, hrequired⟩
  · cases hrequired

section member
variable {es fields fs : Entries} {items : List Json} {c : Json} {field : String}
  (hproperties : Entries.get? es "properties" = some (.object fields))
  (hfield : Entries.get? fields field = some (.object fs))
include hproperties hfield

theorem unshadowed_iff : Unshadowed (.object es) field ↔
    Entries.get? es "enum" = none ∧ alternatives? es = none ∧ string? fs "$ref" = none := by
  have hreference : (((Json.get? (.object es) "properties").bind (·.get? field)).bind
      (·.get? "$ref")).bind Json.asString? = string? fs "$ref" := by
    simp only [Json.get?, hproperties, hfield, Option.bind_some, string?]
  rw [alternatives?, Option.or_eq_none_iff]
  constructor
  · intro h
    exact ⟨h.enum, ⟨h.oneOf, h.anyOf⟩, hreference.symm.trans h.reference⟩
  · rintro ⟨henum, ⟨hone, hany⟩, href⟩
    exact ⟨henum, hone, hany, hreference.trans href⟩

variable (hconst : Entries.get? fs "const" = some c)
  (hrequired : Entries.get? es "required" = some (.array items))
  (hmem : (items.filterMap Json.asString?).contains field = true)
include hconst hrequired hmem

/-- A record requires the field, and its constant is the one that is stated unless a reference
stands beside it. -/
theorem field?_of_record (hn : (fields.map Prod.fst).Nodup) {r : Record} (h : record es = .ok r) :
    r.isRequired field = true ∧ ∃ spec, r.field? field = some spec ∧
      spec.shape.asConst? = if string? fs "$ref" = none then some c else none := by
  obtain ⟨⟨r', hr', hfields⟩, hnames⟩ := of_record hproperties hrequired h
  obtain ⟨spec, hspec, hget⟩ := field?_of_recordFields hn hr' hfield
  refine ⟨(hnames field).trans hmem, spec, ?_, asConst?_of_property hconst hspec⟩
  rw [Record.field?, hfields]
  exact hget

end member

/-- A member that states a required constant is read as a record that requires it, unless some
keyword comes before. -/
theorem constant?_of_tagsWith {t : Table} {defs : Entries} {m field : String} {s : Json}
    {d : Definition} (hs : s.Distinct) (htag : tagsWith field s = true)
    (hd : definition defs m s = .ok d) (hget : t.get? m = some d) :
    (Unshadowed s field → (∃ r, d.kind = .object r ∧ r.isRequired field = true) ∧
      ∃ c, t.constant? m field = some c ∧ statedConstant? s field = some c) ∧
    ∀ c, t.constant? m field = some c → Unshadowed s field := by
  obtain ⟨es, fields, fs, c, items, rfl, hproperties, hfield, hconst, hrequired, hmem⟩ :=
    exists_of_tagsWith htag
  obtain ⟨es', k, hes, hkind, rfl⟩ := definition_eq_ok_iff.mp hd
  obtain rfl := Json.object.inj hes
  have hn : (fields.map Prod.fst).Nodup :=
    (hs.of_mem_parts (Json.mem_parts_of_entry (Keyed.mem_of_lookup hproperties))).nodup
  have hrecord : isRecord es = true := by rw [isRecord, hproperties]; rfl
  constructor
  · intro h
    obtain ⟨henum, halt, href⟩ := (unshadowed_iff hproperties hfield).mp h
    rw [kind, henum, halt] at hkind
    dsimp only at hkind
    rw [if_pos hrecord] at hkind
    obtain ⟨r, hr, rfl⟩ := map_eq_ok_iff.mp hkind
    obtain ⟨hreq, spec, hspec, hshape⟩ :=
      field?_of_record hproperties hfield hconst hrequired hmem hn hr
    refine ⟨⟨r, rfl, hreq⟩, c, ?_, ?_⟩
    · rw [if_pos href] at hshape
      simp only [Table.constant?, Table.field?, hget, Option.bind_some, Definition.record?, hspec,
        hshape]
    · simp only [statedConstant?, Json.get?, hproperties, hfield, hconst, Option.bind_some]
  · intro e he
    obtain ⟨d', r, spec, hd', hk, hspec, hshape⟩ := Table.constant?_eq_some_iff.mp he
    obtain rfl := Option.some.inj (hget.symm.trans hd')
    obtain rfl : k = .object r := hk
    obtain ⟨henum, halt, _, hr⟩ := kind_eq_object_iff.mp hkind
    obtain ⟨_, spec', hspec', hconst'⟩ :=
      field?_of_record hproperties hfield hconst hrequired hmem hn hr
    obtain rfl := Option.some.inj (hspec.symm.trans hspec')
    refine (unshadowed_iff hproperties hfield).mpr ⟨henum, halt, ?_⟩
    by_contra href
    rw [if_neg href, hshape] at hconst'
    cases hconst'

/-! ### Unions -/

section union
variable {doc defs : Entries} {given : Root} {t : Table} (hv : (Json.object doc).Distinct)
  (ht : ofJson given (.object doc) = .ok t) (hdefs : container doc = .ok defs)
include hv ht hdefs

/-- What is read of a member by its name. -/
theorem constant?_of_member {m field : String} {s : Json} (hs : Entries.get? defs m = some s)
    (htag : tagsWith field s = true) :
    (Unshadowed s field →
      (∃ d r, t.get? m = some d ∧ d.kind = .object r ∧ r.isRequired field = true) ∧
      ∃ c, t.constant? m field = some c ∧ statedConstant? s field = some c) ∧
    ∀ c, t.constant? m field = some c → Unshadowed s field := by
  have hpart := Json.mem_parts_of_entry (Keyed.mem_of_lookup hs)
  have hdistinct : s.Distinct := (distinct_of_container hv hdefs).of_mem_parts hpart
  obtain ⟨d, hd⟩ := exists_definition_of_mem ht hdefs hs
  have hget : t.get? m = some d := (get?_of_ofJson hv ht hdefs).mpr ⟨s, hs, hd⟩
  obtain ⟨hread, hplain⟩ := constant?_of_tagsWith hdistinct htag hd hget
  refine ⟨fun h => ?_, hplain⟩
  obtain ⟨⟨r, hk, hreq⟩, hconst⟩ := hread h
  exact ⟨⟨d, r, hget, hk, hreq⟩, hconst⟩

/-- A field that all members state as a required constant tells them apart when nothing comes
before these constants and they are not the same. -/
theorem tellsApart_iff {members : List String} {field : String}
    (htag : ∀ m ∈ members, ∃ s, Entries.get? defs m = some s ∧ tagsWith field s = true) :
    t.TellsApart members field ↔
      (∀ m ∈ members, ∀ s ∈ Entries.get? defs m, Unshadowed s field) ∧
      Differ members fun m => (Entries.get? defs m).bind (statedConstant? · field) := by
  -- without such keywords the constants that are read are those that are stated
  have hdiffer : (∀ m ∈ members, ∀ s ∈ Entries.get? defs m, Unshadowed s field) →
      (Differ members (t.constant? · field) ↔
        Differ members fun m => (Entries.get? defs m).bind (statedConstant? · field)) := by
    intro hall
    refine Differ.congr fun m hm => ?_
    obtain ⟨s, hs, hstag⟩ := htag m hm
    obtain ⟨c, hc, hstated⟩ := ((constant?_of_member hv ht hdefs hs hstag).1 (hall m hm s hs)).2
    rw [hc, hs, Option.bind_some, hstated]
  constructor
  · intro h
    have hall : ∀ m ∈ members, ∀ s ∈ Entries.get? defs m, Unshadowed s field := by
      intro m hm s' hs'
      obtain ⟨s, hs, hstag⟩ := htag m hm
      obtain rfl := Option.some.inj (hs.symm.trans hs')
      obtain ⟨c, hc⟩ := h.constant m hm
      exact (constant?_of_member hv ht hdefs hs hstag).2 c hc
    exact ⟨hall, (hdiffer hall).mp h.differ⟩
  · rintro ⟨hall, h⟩
    have hread : ∀ m ∈ members,
        (∃ d r, t.get? m = some d ∧ d.kind = .object r ∧ r.isRequired field = true) ∧
          ∃ c, t.constant? m field = some c := by
      intro m hm
      obtain ⟨s, hs, hstag⟩ := htag m hm
      obtain ⟨hreq, c, hc, _⟩ := (constant?_of_member hv ht hdefs hs hstag).1 (hall m hm s hs)
      exact ⟨hreq, c, hc⟩
    exact ⟨fun m hm => (hread m hm).1, fun m hm => (hread m hm).2, (hdiffer hall).mpr h⟩

/-- Every member of a union with an inferred discriminator states it as a required constant. It
tells the members apart exactly when no keyword comes before these constants where the members are
read, and no two of them are the same. -/
theorem tellsApart_inferred_iff {d : Definition} {es : Entries} {members : List String}
    {field : String} (hd : d ∈ t.definitions) (hkind : d.kind = .union members (some field))
    (hes : Entries.get? defs d.name = some (.object es)) (hstated : statedDiscriminator es = none) :
    (∀ m ∈ members, ∃ s, Entries.get? defs m = some s ∧ tagsWith field s = true) ∧
      (t.TellsApart members field ↔
        (∀ m ∈ members, ∀ s ∈ Entries.get? defs m, Unshadowed s field) ∧
        Differ members fun m => (Entries.get? defs m).bind (statedConstant? · field)) := by
  obtain ⟨s, hs, hdef⟩ :=
    (get?_of_ofJson hv ht hdefs).mp (Table.get?_eq_some_iff.mpr ⟨hd, rfl⟩)
  obtain rfl := Option.some.inj (hs.symm.trans hes)
  obtain ⟨es', k, hobject, hk, heq⟩ := definition_eq_ok_iff.mp hdef
  obtain rfl := Json.object.inj hobject
  obtain rfl : k = .union members (some field) := by rw [← hkind, heq]
  have htag := tagsWith_of_inferred (inferred_of_kind hk hstated)
  exact ⟨htag, tellsApart_iff hv ht hdefs htag⟩

end union

/-! ### Documents with a union -/

/-- The schema of a record that requires all of its fields. -/
def requiring (fields : Entries) : Json :=
  .object [("properties", .object fields), ("required", .array (fields.map fun e => .string e.1))]

/-- The schema of a record of constants. -/
def ofConstants (constants : Entries) : Json :=
  requiring (constants.map fun e => (e.1, .object [("const", e.2)]))

/-- The record that requires all of its fields. -/
def recordOf (fields : List (String × Spec)) (hn : (fields.map Prod.fst).Nodup) : Record where
  fields := fields
  required := fields.map Prod.fst
  strict := false
  names_nodup := hn

/-- A document with a union of two definitions. -/
def cardOrText (card text : Json) : Entries :=
  let reference (name : String) : Json := .object [("$ref", .string ("#/$defs/" ++ name))]
  [("$defs", .object [("Card", card), ("Text", text),
    ("Item", .object [("oneOf", .array [reference "Card", reference "Text"])])])]

/-- The table of such a document. -/
def cardOrTextTable (card text : Kind) (field : String) : Table where
  root := {}
  definitions := [⟨"Card", none, card⟩, ⟨"Text", none, text⟩,
    ⟨"Item", none, .union ["Card", "Text"] (some field)⟩]
  names_nodup := (by decide : ["Card", "Text", "Item"].Nodup)

/-- Records that state different types. -/
def typed : Entries :=
  cardOrText (ofConstants [("type", .string "card")]) (ofConstants [("type", .string "text")])

theorem tellsApart_inferred_typed : ∃ t, ofJson {} (.object typed) = .ok t ∧
    t.get? "Item" = some ⟨"Item", none, .union ["Card", "Text"] (some "type")⟩ ∧
    t.TellsApart ["Card", "Text"] "type" := by
  have hv : (Json.object typed).Distinct := by decide
  have ht : ofJson {} (.object typed) = .ok (cardOrTextTable
    (.object (recordOf [("type", { shape := .const (.string "card") })] (by decide)))
    (.object (recordOf [("type", { shape := .const (.string "text") })] (by decide)))
    "type") := by
    -- `property` recurs on sizes, so that plain `rfl` stops at it
    with_unfolding_all rfl
  have happly := tellsApart_inferred_iff hv ht rfl (d := ⟨"Item", none, _⟩)
    (.tail _ (.tail _ (.head _))) rfl rfl rfl
  refine ⟨_, ht, rfl, happly.2.mpr ⟨fun m hm s hs => ?_, by decide⟩⟩
  rcases List.mem_pair.mp hm with rfl | rfl
  · obtain rfl := Option.some.inj hs
    exact ⟨rfl, rfl, rfl, rfl⟩
  · obtain rfl := Option.some.inj hs
    exact ⟨rfl, rfl, rfl, rfl⟩

/-- Some union of a document has an inferred discriminator that does not tell its members apart. -/
def Misleads (doc : Entries) : Prop :=
  ∃ t defs d es members field, ofJson {} (.object doc) = .ok t ∧ container doc = .ok defs ∧
    d ∈ t.definitions ∧ d.kind = .union members (some field) ∧
    Entries.get? defs d.name = some (.object es) ∧ statedDiscriminator es = none ∧
    ¬ t.TellsApart members field

theorem misleads_of_table {card text : Json} {card' text' : Kind} {field : String}
    (ht : ofJson {} (.object (cardOrText card text)) = .ok (cardOrTextTable card' text' field))
    (h : ¬ (cardOrTextTable card' text' field).TellsApart ["Card", "Text"] field) :
    Misleads (cardOrText card text) :=
  ⟨_, _, ⟨"Item", none, _⟩, _, _, _, ht, rfl, .tail _ (.tail _ (.head _)), rfl, rfl, rfl, h⟩

/-- Records that state one version, and then different types. -/
def versioned : Entries :=
  cardOrText (ofConstants [("version", .number (.integer 1)), ("type", .string "card")])
    (ofConstants [("version", .number (.integer 1)), ("type", .string "text")])

/-- A record whose type is a reference, with a constant beside it. -/
def referring : Entries :=
  cardOrText
    (requiring [("type", .object [("$ref", .string "#/$defs/Text"), ("const", .string "card")])])
    (ofConstants [("type", .string "text")])

/-- An enum that states a type as well. -/
def listing : Entries :=
  cardOrText (ofConstants [("type", .string "card")])
    (.object [("enum", .array [.string "text"]),
      ("properties", .object [("type", .object [("const", .string "text")])]),
      ("required", .array [.string "type"])])

/-- The version is taken before the type, although it is the same in both members; a reference is
taken for a constant, and an enum for a record. -/
theorem inferred_not_tellsApart : Misleads versioned ∧ Misleads referring ∧ Misleads listing := by
  refine ⟨?_, ?_, ?_⟩
  · have ht : ofJson {} (.object versioned) = .ok (cardOrTextTable
      (.object (recordOf [("version", { shape := .const (.number (.integer 1)) }),
        ("type", { shape := .const (.string "card") })] (by decide)))
      (.object (recordOf [("version", { shape := .const (.number (.integer 1)) }),
        ("type", { shape := .const (.string "text") })] (by decide))) "version") := by
      with_unfolding_all rfl
    exact misleads_of_table ht fun h => absurd h.differ (by decide)
  · have ht : ofJson {} (.object referring) = .ok (cardOrTextTable
      (.object (recordOf [("type", { shape := .reference "Text" })] (by decide)))
      (.object (recordOf [("type", { shape := .const (.string "text") })] (by decide)))
      "type") := by with_unfolding_all rfl
    refine misleads_of_table ht fun h => ?_
    obtain ⟨c, hc⟩ := h.constant "Card" List.mem_cons_self
    cases hc
  · have ht : ofJson {} (.object listing) = .ok (cardOrTextTable
      (.object (recordOf [("type", { shape := .const (.string "card") })] (by decide)))
      (.enum ["text"]) "type") := by with_unfolding_all rfl
    refine misleads_of_table ht fun h => ?_
    obtain ⟨c, hc⟩ := h.constant "Text" (.tail _ (.head _))
    cases hc

end Document

end SchemaModels
