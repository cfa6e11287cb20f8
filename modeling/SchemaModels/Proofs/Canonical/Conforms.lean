import SchemaModels.Proofs.Canonical.Accepts

/-!
# Canonical forms conform

What a canonical form looks like, said of the value that it was read from and the value that it is,
without the way in which it was found: no tag, no order of attempts, no place of a document.

* `Source`: what a field is read from, given or stored in the table. `Vacant`: nothing at all.
* `Conforms`: a value conforms to a place of the table, for a value that was given there.
* `conforms_canonicalAs`: canonical forms conform to their definitions.
-/

namespace SchemaModels

open Canonical

/-! ### Fields -/

/-- No value is given for a field, or null. -/
def Unset (given : Entries) (f : String) : Prop :=
  ∀ v, Entries.get? given f = some v → v.isNull = true

/-- What a field may be read from: what is given, else its default, else its constant. -/
inductive Source (given : Entries) (f : String) (s : Spec) : Json → Prop
  | given {v : Json} (h : Entries.get? given f = some v) (hv : v.isNull = false) :
      Source given f s v
  | default {v : Json} (h : Unset given f) (hd : s.default = some v) (hv : v.isNull = false) :
      Source given f s v
  | const {v : Json} (h : Unset given f) (hd : s.default = none) (hs : s.shape = .const v) :
      Source given f s v

/-- A field with nothing to be read from: a null default is none. -/
structure Vacant (given : Entries) (f : String) (s : Spec) : Prop where
  unset : Unset given f
  default : ∀ v, s.default = some v → v.isNull = true
  const : s.shape.asConst? = none

theorem unset_of_filter_eq_none {given : Entries} {f : String}
    (h : (Entries.get? given f).filter (fun v => !v.isNull) = none) : Unset given f := by
  intro v hv
  simpa using Option.filter_eq_none_iff.mp h v hv

/-- A value read for a field has a source. -/
theorem source_of_fieldValue {given : Entries} {f : String} {s : Spec} {required : Bool} {v : Json}
    (h : fieldValue (Entries.get? given f) s required = some v) : Source given f s v := by
  rcases Option.or_eq_some_iff.mp h with h | ⟨hgiven, h⟩
  · obtain ⟨hg, hn⟩ := Option.filter_eq_some_iff.mp h
    exact .given hg (by simpa using hn)
  · have hunset := unset_of_filter_eq_none hgiven
    unfold impliedValue at h
    split at h
    · rename_i value hd
      split at h
      · cases h
      · rename_i hv
        obtain rfl := Option.some.inj h
        exact .default hunset hd (by simpa using hv)
    · rename_i value hd hs
      split at h
      · cases h
      · obtain rfl := Option.some.inj h
        exact .const hunset hd hs
    · cases h

theorem fieldValue_of_vacant {given : Entries} {f : String} {s : Spec} (h : Vacant given f s)
    (required : Bool) : fieldValue (Entries.get? given f) s required = none := by
  refine Option.or_eq_none_iff.mpr ⟨Option.filter_eq_none_iff.mpr fun v hv => ?_, ?_⟩
  · simp [h.unset v hv]
  · unfold impliedValue
    split
    · rename_i value hd
      simp [h.default value hd]
    · rename_i value _ hs
      have hc := h.const
      simp [hs, Shape.asConst?] at hc
    · rfl

/-! ### Conformance -/

/-- A value conforms to a place, for a value that was given there. -/
inductive Conforms (t : Table) : Place → Json → Json → Prop
  | enum {name x : String} {d : Definition} {values : List String} (hd : t.get? name = some d)
      (hk : d.kind = .enum values) (hx : x ∈ values) :
      Conforms t (.definition name) (.string x) (.string x)
  /-- The keys are declared fields in declaration order, the required ones and none that is vacant,
  and each field conforms for its source. -/
  | record {name : String} {d : Definition} {record : Record} {given out : Entries}
      (source : String → Json) (hd : t.get? name = some d) (hk : d.kind = .object record)
      (horder : (out.map Prod.fst).Sublist (record.fields.map Prod.fst))
      (hrequired : ∀ f ∈ record.requiredFields, f.1 ∈ out.map Prod.fst)
      (hvacant : ∀ f ∈ record.fields, Vacant given f.1 f.2 → f.1 ∉ out.map Prod.fst)
      (hsource : ∀ f ∈ record.fields, f.1 ∈ out.map Prod.fst → Source given f.1 f.2 (source f.1))
      (hfields : ∀ f ∈ record.fields, ∀ w, (f.1, w) ∈ out →
        Conforms t (.spec f.2) (source f.1) w) :
      Conforms t (.definition name) (.object given) (.object out)
  | member {name m : String} {d : Definition} {members : List String} {tag : Option String}
      {v w : Json} (hd : t.get? name = some d) (hk : d.kind = .union members tag)
      (hm : m ∈ members) (h : Conforms t (.definition m) v w) : Conforms t (.definition name) v w
  | typeAlias {name : String} {d : Definition} {s : Spec} {v w : Json} (hd : t.get? name = some d)
      (hk : d.kind = .typeAlias s) (h : Conforms t (.spec s) v w) :
      Conforms t (.definition name) v w
  /-- The only null, but for those inside untyped values, literals and constants. -/
  | null {s : Spec} (h : s.nullable = true ∨ s.shape.isAny = true) :
      Conforms t (.spec s) .null .null
  | string {s : Spec} {x : String} (hs : s.shape = .primitive .string) :
      Conforms t (.spec s) (.string x) (.string x)
  | boolean {s : Spec} {b : Bool} (hs : s.shape = .primitive .boolean) :
      Conforms t (.spec s) (.bool b) (.bool b)
  | number {s : Spec} {n : Number} {x : Binary64} (hs : s.shape = .primitive .number)
      (hx : n.toReal? = some x) : Conforms t (.spec s) (.number n) (.number (.real x))
  | integer {s : Spec} {n : Number} {i : Int} (hs : s.shape = .primitive .integer)
      (hi : n.toInteger? = some i) : Conforms t (.spec s) (.number n) (.number (.integer i))
  | literal {s : Spec} {values : List Json} {v : Json} (hs : s.shape = .literal values)
      (hv : v.isNull = false) (h : v.among values = true) : Conforms t (.spec s) v v
  | const {s : Spec} {value v : Json} (hs : s.shape = .const value) (hv : v.isNull = false)
      (h : v.same value = true) : Conforms t (.spec s) v v
  | array {s c : Spec} {items out : List Json} (hs : s.shape = .array c)
      (hlen : items.length = out.length)
      (h : ∀ v w, (v, w) ∈ items.zip out → Conforms t (.spec c) v w) :
      Conforms t (.spec s) (.array items) (.array out)
  | tuple {s : Spec} {specs : List Spec} {items out : List Json} (hs : s.shape = .tuple specs)
      (hitems : items.length = specs.length) (hout : out.length = specs.length)
      (h : ∀ c v w, ((c, v), w) ∈ (specs.zip items).zip out → Conforms t (.spec c) v w) :
      Conforms t (.spec s) (.array items) (.array out)
  /-- Null entries are left out, all others stay under their keys. -/
  | map {s c : Spec} {entries out : Entries} (hs : s.shape = .map (some c))
      (hkeys : out.map Prod.fst = (entries.filter fun e => !e.2.isNull).map Prod.fst)
      (hnull : ∀ e ∈ out, e.2.isNull = false)
      (h : ∀ e o, (e, o) ∈ (entries.filter fun e => !e.2.isNull).zip out →
        Conforms t (.spec c) e.2 o.2) :
      Conforms t (.spec s) (.object entries) (.object out)
  | untypedMap {s : Spec} {entries out : Entries} (hs : s.shape = .map none)
      (h : out = entries.filter fun e => !e.2.isNull) :
      Conforms t (.spec s) (.object entries) (.object out)
  | reference {s : Spec} {name : String} {v w : Json} (hs : s.shape = .reference name)
      (hw : w.isNull = false) (h : Conforms t (.definition name) v w) : Conforms t (.spec s) v w
  | alternative {s c : Spec} {members : List Spec} {tag : Option String} {v w : Json}
      (hs : s.shape = .union members tag) (hc : c ∈ members) (hw : w.isNull = false)
      (h : Conforms t (.spec c) v w) : Conforms t (.spec s) v w
  | any {s : Spec} {v : Json} (hs : s.shape = .any) : Conforms t (.spec s) v v

namespace Canonical
variable {t : Table}

/-- The canonical entries of a dictionary conform when each one does. -/
theorem conforms_map {s c : Spec} {entries out : Entries} {n : Nat} {path : Path}
    (hs : s.shape = .map (some c)) (h : EntriesRead (readWithin t n) (some c) path entries out)
    (hread : ∀ v w p, readWithin t n (.spec c) v p = .ok w → Conforms t (.spec c) v w) :
    Conforms t (.spec s) (.object entries) (.object out) := by
  refine .map hs ?_ (fun o ho => ?_) fun e o heo => ?_
  · rw [← List.forall₂_eq_eq_eq, List.forall₂_map_left_iff, List.forall₂_map_right_iff]
    exact (h.forall₂.imp fun _ _ heo => heo.1.symm).flip
  · obtain ⟨e, _, _, he, hr⟩ := exists_of_forall₂ h.forall₂ ho
    obtain ⟨p, hr⟩ := hr c rfl
    exact (isNull_of_readWithin hr).trans he
  · obtain ⟨_, _, hr⟩ := List.forall₂_zip h.forall₂ heo
    obtain ⟨p, hr⟩ := hr c rfl
    exact hread _ _ _ hr

/-- The canonical fields of a record conform when each one does. -/
theorem conforms_record {name : String} {d : Definition} {record : Record} {given out : Entries}
    {read : Place → Json → Path → Reading} {path : Path} (hd : t.get? name = some d)
    (hk : d.kind = .object record) (h : FieldsRead read record given path record.fields out)
    (hread : ∀ s v w p, read (.spec s) v p = .ok w → Conforms t (.spec s) v w) :
    Conforms t (.definition name) (.object given) (.object out) := by
  have hkeys : ∀ {f}, f ∈ out.map Prod.fst ↔ ∃ w, (f, w) ∈ out := by simp
  let value := fun (f : String) (s : Spec) =>
    fieldValue (Entries.get? given f) s (record.isRequired f)
  let source := fun f => ((record.field? f).bind (value f)).getD .null
  have hsource : ∀ f ∈ record.fields, ∀ v, value f.1 f.2 = some v → source f.1 = v := by
    intro f hf v hv
    have hs : record.field? f.1 = some f.2 := (Keyed.lookup_eq_some_iff record.names_nodup).mpr hf
    simp [source, hs, hv]
  refine .record source hd hk h.sublist (fun f hf => ?_) (fun f hf hvacant hmem => ?_)
    (fun f hf hmem => ?_) (fun f hf w hw => ?_)
  · obtain ⟨hf, hreq⟩ := List.mem_filter.mp hf
    cases hv : value f.1 f.2 with
    | none => exact absurd (h.isRequired_eq_false hf hv) (by simp [hreq])
    | some v =>
        obtain ⟨w, hw, _⟩ := h.exists_mem hf hv
        exact hkeys.mpr ⟨w, hw⟩
  · obtain ⟨w, hw⟩ := hkeys.mp hmem
    obtain ⟨v, hv, _⟩ := h.exists_of_mem_fields record.names_nodup hf hw
    exact absurd ((fieldValue_of_vacant hvacant _).symm.trans hv) (by simp)
  · obtain ⟨w, hw⟩ := hkeys.mp hmem
    obtain ⟨v, hv, _⟩ := h.exists_of_mem_fields record.names_nodup hf hw
    exact hsource f hf v hv ▸ source_of_fieldValue hv
  · obtain ⟨v, hv, hr⟩ := h.exists_of_mem_fields record.names_nodup hf hw
    exact hsource f hf v hv ▸ hread _ _ _ _ hr

/-- A reading of any number of steps conforms. -/
theorem conforms_of_readWithin : ∀ {n : Nat} {place : Place} {v w : Json} {path : Path},
    readWithin t n place v path = .ok w → Conforms t place v w
  | 0, _, _, _, _, h => by cases h
  | n + 1, place, v, w, path, h => by
      have hread : ∀ {place : Place} {v w : Json} {path : Path},
        readWithin t n place v path = .ok w → Conforms t place v w := conforms_of_readWithin
      cases readPlace_eq_ok_iff.mp h with
      | enum hd hk hs => exact .enum hd hk hs
      | record hd hk hf => exact conforms_record hd hk hf fun s v w p => hread
      | tagged hd hk hm hr => exact .member hd hk (mem_of_taggedMember hm) (hread hr)
      | member hd hk _ _ hr => exact .member hd hk (by simp) (hread hr)
      | typeAlias hd hk hr => exact .typeAlias hd hk (hread hr)
      | null hs => exact .null hs
      | string hs => exact .string hs
      | boolean hs => exact .boolean hs
      | number hs hx => exact .number hs hx
      | integer hs hi => exact .integer hs hi
      | literal hs hv hmem => exact .literal hs hv hmem
      | const hs hv hsame => exact .const hs hv hsame
      | array hs hitems =>
          obtain ⟨hlen, hzip⟩ :=
            List.forall₂_iff_zip.mp (List.forall₂_map_left_iff.mp hitems.forall₂)
          refine .array hs hlen fun v w hvw => ?_
          obtain ⟨p, hr⟩ := hzip hvw
          exact hread hr
      | tuple hs hlen hitems =>
          obtain ⟨hout, hzip⟩ := List.forall₂_iff_zip.mp hitems.forall₂
          rw [List.length_zip, hlen, Nat.min_self] at hout
          refine .tuple hs hlen hout.symm fun c v w hcvw => ?_
          obtain ⟨p, hr⟩ := hzip hcvw
          exact hread hr
      | @map s value entries out hs hentries =>
          cases value with
          | none => exact .untypedMap hs hentries.out_eq
          | some c =>
              exact conforms_map hs hentries fun v w p => hread
      | reference hs hv hr =>
          exact .reference hs ((isNull_of_readWithin hr).trans hv) (hread hr)
      | inlineTagged hs hv hnames hm hr =>
          obtain ⟨c, hc, hshape⟩ :=
            exists_of_forall₂ (memberNames_eq_some_iff.mp hnames) (mem_of_taggedMember hm)
          have hw := (isNull_of_readWithin hr).trans hv
          exact .alternative hs hc hw (.reference hshape hw (hread hr))
      | inlineMember hs hv _ _ hr =>
          exact .alternative hs (by simp) ((isNull_of_readWithin hr).trans hv) (hread hr)
      | any hs => exact .any hs

end Canonical

namespace Table
variable {t : Table}

/-- The canonical form of an instance of a definition conforms to it. -/
theorem conforms_canonicalAs {name : String} {v w : Json} (h : t.canonicalAs name v = .ok w) :
    Conforms t (.definition name) v w :=
  conforms_of_readWithin h

theorem conforms_canonicalAs_group :
    drawings.canonicalAs "Figure" looseGroup = .ok canonicalGroup ∧
      Conforms drawings (.definition "Figure") looseGroup canonicalGroup :=
  have h : drawings.canonicalAs "Figure" looseGroup = .ok canonicalGroup := rfl
  ⟨h, conforms_canonicalAs h⟩

end Table

end SchemaModels
