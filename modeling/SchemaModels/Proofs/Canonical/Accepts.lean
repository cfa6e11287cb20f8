import Mathlib.Data.List.Forall2
import SchemaModels.Proofs.Canonical.Bound
import SchemaModels.Proofs.Results

/-!
# What a step accepts

The ways in which a place takes a value, given a reader for the places it asks for, as a relation
with one case for each. The step of a reading gives a value exactly in these ways, so that what
holds of canonical forms is shown by these cases.

* `FieldsRead`, `ItemsRead`, `EntriesRead`: the same for the parts of a value.
* `firstAccepted_eq_ok_iff`: the first reading that succeeds stands after refusals only.
* `readPlace_eq_ok_iff`: the cases are all there are.
* `isNull_of_readWithin`: a null is read as a null, and nothing else is.
* `reading_eq_ok_iff`: the same cases for bounded readings, which ask for bounded readings.
-/

namespace SchemaModels.Canonical

section accepts
variable {t : Table} {read : Place → Json → Path → Reading} {path : Path}

section firstAccepted
variable {α : Type} {attempt : α → Reading} {refusal : CanonicalError}

theorem firstAccepted_append_of_refused {rest : List α} : ∀ {before : List α},
    (∀ x ∈ before, outcome (attempt x) = .refused) →
      firstAccepted attempt refusal (before ++ rest) = firstAccepted attempt refusal rest
  | [], _ => rfl
  | m :: before, h => by
      obtain ⟨hm, hb⟩ := List.forall_mem_cons.mp h
      rw [List.cons_append, firstAccepted_cons_of_refused hm, firstAccepted_append_of_refused hb]

theorem exists_of_firstAccepted {w : Json} : ∀ {ms : List α},
    firstAccepted attempt refusal ms = .ok w → ∃ before m after, ms = before ++ m :: after ∧
      (∀ x ∈ before, outcome (attempt x) = .refused) ∧ attempt m = .ok w
  | [], h => nomatch h
  | m :: rest, h => by
      cases hm : outcome (attempt m) with
      | endless =>
          rw [firstAccepted_cons_of_endless (outcome_eq_endless.mp hm)] at h
          cases h
      | refused =>
          rw [firstAccepted_cons_of_refused hm] at h
          obtain ⟨before, x, after, rfl, hb, hx⟩ := exists_of_firstAccepted h
          exact ⟨m :: before, x, after, rfl, List.forall_mem_cons.mpr ⟨hm, hb⟩, hx⟩
      | value u =>
          have hu := outcome_eq_value.mp hm
          rw [firstAccepted_cons_of_value hu] at h
          exact ⟨[], m, rest, rfl, by simp, hu.trans h⟩

/-- The first reading that succeeds stands after refusals only. -/
theorem firstAccepted_eq_ok_iff {w : Json} {ms : List α} :
    firstAccepted attempt refusal ms = .ok w ↔ ∃ before m after, ms = before ++ m :: after ∧
      (∀ x ∈ before, outcome (attempt x) = .refused) ∧ attempt m = .ok w := by
  refine ⟨exists_of_firstAccepted, ?_⟩
  rintro ⟨before, m, after, rfl, hb, hm⟩
  rw [firstAccepted_append_of_refused hb, firstAccepted_cons_of_value hm]

end firstAccepted

/-! ### Members -/

/-- In lists related one for one, each member of the second has one of the first. -/
theorem exists_of_forall₂ {α β : Type} {R : α → β → Prop} {as : List α} {bs : List β}
    (h : List.Forall₂ R as bs) {b : β} (hb : b ∈ bs) : ∃ a ∈ as, R a b := by
  induction h with
  | nil => cases hb
  | cons hr _ ih =>
      rcases List.mem_cons.mp hb with rfl | hb
      · exact ⟨_, List.mem_cons_self, hr⟩
      · obtain ⟨a, ha, hr⟩ := ih hb
        exact ⟨a, List.mem_cons_of_mem _ ha, hr⟩

/-- The names of members stand for those that are bare references, one for one. -/
theorem memberNames_eq_some_iff : ∀ {members : List Spec} {names : List String},
    memberNames members = some names ↔
      List.Forall₂ (fun c m => c.shape = .reference m) members names
  | [], names => by cases names <;> simp [memberNames]
  | c :: members, [] => by
      simp [memberNames, List.mapM_cons, Option.bind_eq_some_iff]
  | c :: members, m :: names => by
      have ih := @memberNames_eq_some_iff members names
      simp only [memberNames] at ih
      simp [memberNames, List.mapM_cons, Option.bind_eq_some_iff, ih,
        Shape.asReference?_eq_some_iff]

/-! ### Parts of a value -/

/-- The canonical fields of a record, from what is given. -/
inductive FieldsRead (read : Place → Json → Path → Reading) (record : Record) (given : Entries)
    (path : Path) : List (String × Spec) → Entries → Prop
  | nil : FieldsRead read record given path [] []
  | cons {f : String} {s : Spec} {v w : Json} {rest : List (String × Spec)} {out : Entries}
      (hv : fieldValue (Entries.get? given f) s (record.isRequired f) = some v)
      (hr : read (.spec s) v (.key f :: path) = .ok w)
      (h : FieldsRead read record given path rest out) :
      FieldsRead read record given path ((f, s) :: rest) ((f, w) :: out)
  | skip {f : String} {s : Spec} {rest : List (String × Spec)} {out : Entries}
      (hv : fieldValue (Entries.get? given f) s (record.isRequired f) = none)
      (hf : record.isRequired f = false) (h : FieldsRead read record given path rest out) :
      FieldsRead read record given path ((f, s) :: rest) out

theorem readFields_eq_ok_iff {record : Record} {given : Entries} :
    ∀ {fields : List (String × Spec)} {out : Entries},
    readFields read record given path fields = .ok out ↔
      FieldsRead read record given path fields out
  | [], out => by
      rw [readFields, Except.ok.injEq]
      refine ⟨fun h => h ▸ .nil, fun h => ?_⟩
      cases h
      rfl
  | (f, s) :: rest, out => by
      rw [readFields]
      cases hv : fieldValue (Entries.get? given f) s (record.isRequired f) with
      | some v =>
          simp only [bind_eq_ok_iff, readFields_eq_ok_iff, pure, Except.pure, Except.ok.injEq]
          constructor
          · rintro ⟨w, hw, others, hothers, rfl⟩
            exact .cons hv hw hothers
          · intro h
            cases h with
            | cons hv' hr hothers =>
                obtain rfl := Option.some.inj (hv.symm.trans hv')
                exact ⟨_, hr, _, hothers, rfl⟩
            | skip hv' => exact absurd (hv.symm.trans hv') (by simp)
      | none =>
          cases hf : record.isRequired f with
          | true =>
              refine ⟨fun h => (by cases h), fun h => ?_⟩
              cases h with
              | cons hv' => exact absurd (hv.symm.trans hv') (by simp)
              | skip _ hf' => exact absurd (hf.symm.trans hf') (by simp)
          | false =>
              simp only [Bool.false_eq_true, if_false, readFields_eq_ok_iff]
              refine ⟨.skip hv hf, fun h => ?_⟩
              cases h with
              | cons hv' => exact absurd (hv.symm.trans hv') (by simp)
              | skip _ _ h => exact h

namespace FieldsRead
variable {record : Record} {given : Entries} {fields : List (String × Spec)} {out : Entries}

/-- The canonical fields are declared ones, in declaration order. -/
theorem sublist (h : FieldsRead read record given path fields out) :
    (out.map Prod.fst).Sublist (fields.map Prod.fst) := by
  induction h with
  | nil => exact .slnil
  | cons _ _ _ ih => exact ih.cons_cons _
  | skip _ _ _ ih => exact ih.cons _

/-- Each canonical field was read from the value of a declared one. -/
theorem exists_of_mem (h : FieldsRead read record given path fields out) {e : String × Json}
    (he : e ∈ out) : ∃ s v, (e.1, s) ∈ fields ∧
      fieldValue (Entries.get? given e.1) s (record.isRequired e.1) = some v ∧
      read (.spec s) v (.key e.1 :: path) = .ok e.2 := by
  induction h with
  | nil => cases he
  | cons hv hr _ ih =>
      rcases List.mem_cons.mp he with rfl | he
      · exact ⟨_, _, List.mem_cons_self, hv, hr⟩
      · obtain ⟨s, v, hf, hr⟩ := ih he
        exact ⟨s, v, List.mem_cons_of_mem _ hf, hr⟩
  | skip _ _ _ ih =>
      obtain ⟨s, v, hf, hr⟩ := ih he
      exact ⟨s, v, List.mem_cons_of_mem _ hf, hr⟩

/-- Each declared field with a value has a canonical one. -/
theorem exists_mem (h : FieldsRead read record given path fields out) {f : String × Spec}
    (hf : f ∈ fields) {v : Json}
    (hv : fieldValue (Entries.get? given f.1) f.2 (record.isRequired f.1) = some v) :
    ∃ w, (f.1, w) ∈ out ∧ read (.spec f.2) v (.key f.1 :: path) = .ok w := by
  induction h with
  | nil => cases hf
  | cons hv' hr _ ih =>
      rcases List.mem_cons.mp hf with rfl | hf
      · obtain rfl := Option.some.inj (hv'.symm.trans hv)
        exact ⟨_, List.mem_cons_self, hr⟩
      · obtain ⟨w, hw, hr⟩ := ih hf
        exact ⟨w, List.mem_cons_of_mem _ hw, hr⟩
  | skip hv' _ _ ih =>
      rcases List.mem_cons.mp hf with rfl | hf
      · exact absurd (hv'.symm.trans hv) (by simp)
      · exact ih hf

/-- A declared field without a value is not required. -/
theorem isRequired_eq_false (h : FieldsRead read record given path fields out)
    {f : String × Spec} (hf : f ∈ fields)
    (hv : fieldValue (Entries.get? given f.1) f.2 (record.isRequired f.1) = none) :
    record.isRequired f.1 = false := by
  induction h with
  | nil => cases hf
  | cons hv' _ _ ih =>
      rcases List.mem_cons.mp hf with rfl | hf
      · exact absurd (hv'.symm.trans hv) (by simp)
      · exact ih hf
  | skip _ hreq _ ih =>
      rcases List.mem_cons.mp hf with rfl | hf
      · exact hreq
      · exact ih hf

/-- The canonical field of a declared one was read from its value. -/
theorem exists_of_mem_fields (h : FieldsRead read record given path fields out)
    (hn : (fields.map Prod.fst).Nodup) {f : String × Spec} (hf : f ∈ fields) {w : Json}
    (hw : (f.1, w) ∈ out) :
    ∃ v, fieldValue (Entries.get? given f.1) f.2 (record.isRequired f.1) = some v ∧
      read (.spec f.2) v (.key f.1 :: path) = .ok w := by
  obtain ⟨s, v, hs, hv, hr⟩ := h.exists_of_mem hw
  obtain rfl : s = f.2 := Option.some.inj
    (((Keyed.lookup_eq_some_iff hn).mpr hs).symm.trans ((Keyed.lookup_eq_some_iff hn).mpr hf))
  exact ⟨v, hv, hr⟩

end FieldsRead

/-- The canonical items of a list, from an index on. -/
inductive ItemsRead (read : Place → Json → Path → Reading) (path : Path) :
    Nat → List (Spec × Json) → List Json → Prop
  | nil {index : Nat} : ItemsRead read path index [] []
  | cons {index : Nat} {s : Spec} {v w : Json} {rest : List (Spec × Json)} {out : List Json}
      (hr : read (.spec s) v (.index index :: path) = .ok w)
      (h : ItemsRead read path (index + 1) rest out) :
      ItemsRead read path index ((s, v) :: rest) (w :: out)

theorem readItems_eq_ok_iff : ∀ {index : Nat} {pairs : List (Spec × Json)} {out : List Json},
    readItems read path index pairs = .ok out ↔ ItemsRead read path index pairs out
  | index, [], out => by
      rw [readItems, Except.ok.injEq]
      refine ⟨fun h => h ▸ .nil, fun h => ?_⟩
      cases h
      rfl
  | index, (s, v) :: rest, out => by
      rw [readItems]
      simp only [bind_eq_ok_iff, readItems_eq_ok_iff, pure, Except.pure, Except.ok.injEq]
      constructor
      · rintro ⟨w, hw, others, hothers, rfl⟩
        exact .cons hw hothers
      · intro h
        cases h with
        | cons hr hothers => exact ⟨_, hr, _, hothers, rfl⟩

/-- The canonical items are those of the items, one for one. -/
theorem ItemsRead.forall₂ {index : Nat} {pairs : List (Spec × Json)} {out : List Json}
    (h : ItemsRead read path index pairs out) :
    List.Forall₂ (fun e w => ∃ p, read (.spec e.1) e.2 p = .ok w) pairs out := by
  induction h with
  | nil => exact .nil
  | cons hr _ ih => exact .cons ⟨_, hr⟩ ih

/-- The canonical entries of a dictionary. -/
inductive EntriesRead (read : Place → Json → Path → Reading) (value : Option Spec) (path : Path) :
    Entries → Entries → Prop
  | nil : EntriesRead read value path [] []
  | null {key : String} {rest out : Entries} (h : EntriesRead read value path rest out) :
      EntriesRead read value path ((key, .null) :: rest) out
  | typed {key : String} {s : Spec} {v w : Json} {rest out : Entries} (hv : v.isNull = false)
      (hs : value = some s) (hr : read (.spec s) v (.key key :: path) = .ok w)
      (h : EntriesRead read value path rest out) :
      EntriesRead read value path ((key, v) :: rest) ((key, w) :: out)
  | untyped {key : String} {v : Json} {rest out : Entries} (hv : v.isNull = false)
      (hs : value = none) (h : EntriesRead read value path rest out) :
      EntriesRead read value path ((key, v) :: rest) ((key, v) :: out)

theorem readEntries_eq_ok_iff {value : Option Spec} : ∀ {entries out : Entries},
    readEntries read value path entries = .ok out ↔ EntriesRead read value path entries out
  | [], out => by
      rw [readEntries, Except.ok.injEq]
      refine ⟨fun h => h ▸ .nil, fun h => ?_⟩
      cases h
      rfl
  | (key, v) :: rest, out => by
      rw [readEntries]
      cases hv : v.isNull with
      | true =>
          obtain rfl := Json.isNull_iff.mp hv
          simp only [if_true, readEntries_eq_ok_iff]
          refine ⟨.null, fun h => ?_⟩
          cases h with
          | null h => exact h
          | typed hv' => exact absurd hv' (by simp [Json.isNull])
          | untyped hv' => exact absurd hv' (by simp [Json.isNull])
      | false =>
          cases value with
          | some s =>
              simp only [Bool.false_eq_true, if_false, bind_eq_ok_iff, readEntries_eq_ok_iff, pure,
                Except.pure, Except.ok.injEq]
              constructor
              · rintro ⟨w, hw, others, hothers, rfl⟩
                exact .typed hv rfl hw hothers
              · intro h
                cases h with
                | null => exact absurd hv (by simp [Json.isNull])
                | typed _ hs hr hothers =>
                    obtain rfl := Option.some.inj hs
                    exact ⟨_, hr, _, hothers, rfl⟩
                | untyped _ hs => cases hs
          | none =>
              simp only [Bool.false_eq_true, if_false, bind_eq_ok_iff, readEntries_eq_ok_iff, pure,
                Except.pure, Except.ok.injEq]
              constructor
              · rintro ⟨w, rfl, others, hothers, rfl⟩
                exact .untyped hv rfl hothers
              · intro h
                cases h with
                | null => exact absurd hv (by simp [Json.isNull])
                | typed _ hs => cases hs
                | untyped _ _ hothers => exact ⟨_, rfl, _, hothers, rfl⟩

namespace EntriesRead
variable {value : Option Spec} {entries out : Entries}

/-- The canonical entries are those of the entries that are not null, one for one. -/
theorem forall₂ (h : EntriesRead read value path entries out) :
    List.Forall₂ (fun e o => e.1 = o.1 ∧ e.2.isNull = false ∧
      ∀ s ∈ value, ∃ p, read (.spec s) e.2 p = .ok o.2)
      (entries.filter fun e => !e.2.isNull) out := by
  induction h with
  | nil => exact .nil
  | null _ ih => simpa [Json.isNull] using ih
  | typed hv hs hr _ ih =>
      rw [List.filter_cons_of_pos (by simp [hv])]
      refine .cons ⟨rfl, hv, fun s hs' => ?_⟩ ih
      obtain rfl := Option.some.inj (hs.symm.trans hs')
      exact ⟨_, hr⟩
  | untyped hv hs _ ih =>
      rw [List.filter_cons_of_pos (by simp [hv])]
      exact .cons ⟨rfl, hv, fun s hs' => absurd (hs.symm.trans hs') (by simp)⟩ ih

theorem out_eq (h : EntriesRead read none path entries out) :
    out = entries.filter fun e => !e.2.isNull := by
  generalize hvalue : (none : Option Spec) = value at h
  induction h with
  | nil => rfl
  | null _ ih => simpa [Json.isNull] using ih
  | typed _ hs => exact absurd (hvalue.trans hs) (by simp)
  | untyped hv _ _ ih => rw [List.filter_cons_of_pos (by simp [hv]), ← ih]

end EntriesRead

/-! ### Places -/

/-- The ways in which a place takes one value for another. -/
inductive Accepts (t : Table) (read : Place → Json → Path → Reading) (path : Path) :
    Place → Json → Json → Prop
  | enum {name s : String} {d : Definition} {values : List String} (hd : t.get? name = some d)
      (hk : d.kind = .enum values) (hs : s ∈ values) :
      Accepts t read path (.definition name) (.string s) (.string s)
  | record {name : String} {d : Definition} {record : Record} {given out : Entries}
      (hd : t.get? name = some d) (hk : d.kind = .object record)
      (h : FieldsRead read record given path record.fields out) :
      Accepts t read path (.definition name) (.object given) (.object out)
  /-- The member whose tag the value carries. -/
  | tagged {name m tag : String} {d : Definition} {members : List String} {v w : Json}
      (hd : t.get? name = some d) (hk : d.kind = .union members (some tag))
      (hm : taggedMember t members tag v = some m) (hr : read (.definition m) v path = .ok w) :
      Accepts t read path (.definition name) v w
  /-- The first member that accepts a value without a tag. -/
  | member {name m : String} {d : Definition} {before after : List String} {tag : Option String}
      {v w : Json} (hd : t.get? name = some d) (hk : d.kind = .union (before ++ m :: after) tag)
      (hn : (tag.bind fun tag => taggedMember t (before ++ m :: after) tag v) = none)
      (hb : ∀ x ∈ before, outcome (read (.definition x) v path) = .refused)
      (hr : read (.definition m) v path = .ok w) : Accepts t read path (.definition name) v w
  | typeAlias {name : String} {d : Definition} {s : Spec} {v w : Json} (hd : t.get? name = some d)
      (hk : d.kind = .typeAlias s) (hr : read (.spec s) v path = .ok w) :
      Accepts t read path (.definition name) v w
  | null {s : Spec} (h : s.nullable = true ∨ s.shape.isAny = true) :
      Accepts t read path (.spec s) .null .null
  | string {s : Spec} {x : String} (hs : s.shape = .primitive .string) :
      Accepts t read path (.spec s) (.string x) (.string x)
  | boolean {s : Spec} {b : Bool} (hs : s.shape = .primitive .boolean) :
      Accepts t read path (.spec s) (.bool b) (.bool b)
  | number {s : Spec} {n : Number} {x : Binary64} (hs : s.shape = .primitive .number)
      (hx : n.toReal? = some x) : Accepts t read path (.spec s) (.number n) (.number (.real x))
  | integer {s : Spec} {n : Number} {i : Int} (hs : s.shape = .primitive .integer)
      (hi : n.toInteger? = some i) :
      Accepts t read path (.spec s) (.number n) (.number (.integer i))
  | literal {s : Spec} {values : List Json} {v : Json} (hs : s.shape = .literal values)
      (hv : v.isNull = false) (h : v.among values = true) : Accepts t read path (.spec s) v v
  | const {s : Spec} {value v : Json} (hs : s.shape = .const value) (hv : v.isNull = false)
      (h : v.same value = true) : Accepts t read path (.spec s) v v
  | array {s c : Spec} {items out : List Json} (hs : s.shape = .array c)
      (h : ItemsRead read path 0 (items.map fun v => (c, v)) out) :
      Accepts t read path (.spec s) (.array items) (.array out)
  | tuple {s : Spec} {specs : List Spec} {items out : List Json} (hs : s.shape = .tuple specs)
      (hlen : items.length = specs.length) (h : ItemsRead read path 0 (specs.zip items) out) :
      Accepts t read path (.spec s) (.array items) (.array out)
  | map {s : Spec} {value : Option Spec} {entries out : Entries} (hs : s.shape = .map value)
      (h : EntriesRead read value path entries out) :
      Accepts t read path (.spec s) (.object entries) (.object out)
  | reference {s : Spec} {name : String} {v w : Json} (hs : s.shape = .reference name)
      (hv : v.isNull = false) (hr : read (.definition name) v path = .ok w) :
      Accepts t read path (.spec s) v w
  /-- The member of an inline union whose tag the value carries. -/
  | inlineTagged {s : Spec} {members : List Spec} {names : List String} {tag m : String}
      {v w : Json} (hs : s.shape = .union members (some tag)) (hv : v.isNull = false)
      (hnames : memberNames members = some names) (hm : taggedMember t names tag v = some m)
      (hr : read (.definition m) v path = .ok w) : Accepts t read path (.spec s) v w
  /-- The first member of an inline union that accepts a value without a tag. -/
  | inlineMember {s m : Spec} {before after : List Spec} {tag : Option String} {v w : Json}
      (hs : s.shape = .union (before ++ m :: after) tag) (hv : v.isNull = false)
      (hn : ((memberNames (before ++ m :: after)).bind fun names =>
        tag.bind fun tag => taggedMember t names tag v) = none)
      (hb : ∀ x ∈ before, outcome (read (.spec x) v path) = .refused)
      (hr : read (.spec m) v path = .ok w) : Accepts t read path (.spec s) v w
  | any {s : Spec} {v : Json} (hs : s.shape = .any) (hv : v.isNull = false) :
      Accepts t read path (.spec s) v v

theorem accepts_of_readDefinition {name : String} {v w : Json}
    (h : readDefinition t read name v path = .ok w) :
    Accepts t read path (.definition name) v w := by
  rw [readDefinition] at h
  cases hd : t.get? name with
  | none => simp [hd] at h
  | some d =>
      rw [hd, Option.map_some] at h
      cases hk : d.kind with
      | enum values =>
          simp only [hk] at h
          cases v with
          | string s =>
              by_cases hs : s ∈ values
              · obtain rfl : Json.string s = w := by simpa [Json.asString?, hs] using h
                exact .enum hd hk hs
              · simp [Json.asString?, hs] at h
          | _ => simp [Json.asString?] at h
      | object record =>
          simp only [hk] at h
          cases v with
          | object given =>
              obtain ⟨out, hout, rfl⟩ := map_eq_ok_iff.mp h
              exact .record hd hk (readFields_eq_ok_iff.mp hout)
          | _ => cases h
      | union members tag =>
          simp only [hk] at h
          cases hm : tag.bind fun tag => taggedMember t members tag v with
          | some m =>
              obtain ⟨tag, rfl, htag⟩ := Option.bind_eq_some_iff.mp hm
              simp only [hm] at h
              exact .tagged hd hk htag h
          | none =>
              simp only [hm] at h
              obtain ⟨before, m, after, rfl, hb, hr⟩ := firstAccepted_eq_ok_iff.mp h
              exact .member hd hk hm hb hr
      | typeAlias s =>
          simp only [hk] at h
          exact .typeAlias hd hk h

theorem accepts_of_scalar {s : Spec} {kind : Primitive} {v w : Json}
    (hs : s.shape = .primitive kind) (h : scalar kind v path = .ok w) :
    Accepts t read path (.spec s) v w := by
  cases kind with
  | string =>
      cases v <;> simp only [scalar, Except.ok.injEq, reduceCtorEq] at h
      exact h ▸ .string hs
  | boolean =>
      cases v <;> simp only [scalar, Except.ok.injEq, reduceCtorEq] at h
      exact h ▸ .boolean hs
  | number =>
      cases v <;> simp only [scalar, reduceCtorEq] at h
      split at h
      · rename_i hx
        exact Except.ok.inj h ▸ .number hs hx
      · cases h
  | integer =>
      cases v <;> simp only [scalar, reduceCtorEq] at h
      split at h
      · rename_i hi
        exact Except.ok.inj h ▸ .integer hs hi
      · cases h

theorem accepts_of_readUnion {s : Spec} {members : List Spec} {tag : Option String} {v w : Json}
    (hs : s.shape = .union members tag) (hv : v.isNull = false)
    (h : readUnion t read members tag v path = .ok w) : Accepts t read path (.spec s) v w := by
  rw [readUnion] at h
  cases hm : (memberNames members).bind fun names =>
      tag.bind fun tag => taggedMember t names tag v with
  | some m =>
      obtain ⟨names, hnames, hm'⟩ := Option.bind_eq_some_iff.mp hm
      obtain ⟨tag, rfl, htag⟩ := Option.bind_eq_some_iff.mp hm'
      rw [hm] at h
      exact .inlineTagged hs hv hnames htag h
  | none =>
      rw [hm] at h
      obtain ⟨before, m, after, rfl, hb, hr⟩ := firstAccepted_eq_ok_iff.mp h
      exact .inlineMember hs hv hm hb hr

theorem accepts_of_readShape {s : Spec} {v w : Json} (hv : v.isNull = false)
    (h : readShape t read s.shape v path = .ok w) : Accepts t read path (.spec s) v w := by
  cases hs : s.shape with
  | primitive kind =>
      rw [hs] at h
      exact accepts_of_scalar hs h
  | literal values =>
      rw [hs, readShape] at h
      split at h
      · exact Except.ok.inj h ▸ .literal hs hv ‹_›
      · cases h
  | const value =>
      rw [hs, readShape] at h
      split at h
      · exact Except.ok.inj h ▸ .const hs hv ‹_›
      · cases h
  | array c =>
      rw [hs, readShape.eq_def] at h
      cases v with
      | array items =>
          obtain ⟨out, hout, rfl⟩ := map_eq_ok_iff.mp h
          exact .array hs (readItems_eq_ok_iff.mp hout)
      | _ => cases h
  | tuple specs =>
      rw [hs, readShape.eq_def] at h
      cases v with
      | array items =>
          dsimp only at h
          split at h
          · rename_i hlen
            obtain ⟨out, hout, rfl⟩ := map_eq_ok_iff.mp h
            exact .tuple hs hlen (readItems_eq_ok_iff.mp hout)
          · cases h
      | _ => cases h
  | map value =>
      rw [hs, readShape.eq_def] at h
      cases v with
      | object entries =>
          obtain ⟨out, hout, rfl⟩ := map_eq_ok_iff.mp h
          exact .map hs (readEntries_eq_ok_iff.mp hout)
      | _ => cases h
  | reference name =>
      rw [hs] at h
      exact .reference hs hv h
  | union members tag =>
      rw [hs] at h
      exact accepts_of_readUnion hs hv h
  | any =>
      rw [hs] at h
      exact Except.ok.inj h ▸ .any hs hv

theorem readPlace_of_accepts {place : Place} {v w : Json} (h : Accepts t read path place v w) :
    readPlace t read place v path = .ok w := by
  cases h with
  | enum hd hk hs => simp [readPlace, readDefinition, hd, hk, Json.asString?, hs]
  | record hd hk h =>
      simp [readPlace, readDefinition, hd, hk, readFields_eq_ok_iff.mpr h, Except.map]
  | tagged hd hk hm hr => simp [readPlace, readDefinition, hd, hk, hm, hr]
  | member hd hk hn hb hr =>
      simp only [readPlace, readDefinition, hd, hk, hn, Option.map_some]
      exact firstAccepted_eq_ok_iff.mpr ⟨_, _, _, rfl, hb, hr⟩
  | typeAlias hd hk hr => simp [readPlace, readDefinition, hd, hk, hr]
  | null h => rcases h with h | h <;> simp [readPlace, readSpec, Json.isNull, h]
  | string hs => simp [readPlace, readSpec, Json.isNull, readShape, hs, scalar]
  | boolean hs => simp [readPlace, readSpec, Json.isNull, readShape, hs, scalar]
  | number hs hx => simp [readPlace, readSpec, Json.isNull, readShape, hs, scalar, hx]
  | integer hs hi => simp [readPlace, readSpec, Json.isNull, readShape, hs, scalar, hi]
  | literal hs hv h => simp [readPlace, readSpec, hv, readShape, hs, h]
  | const hs hv h => simp [readPlace, readSpec, hv, readShape, hs, h]
  | array hs h =>
      simp [readPlace, readSpec, Json.isNull, readShape, hs, readItems_eq_ok_iff.mpr h, Except.map]
  | tuple hs hlen h =>
      simp [readPlace, readSpec, Json.isNull, readShape, hs, hlen, readItems_eq_ok_iff.mpr h,
        Except.map]
  | map hs h =>
      simp [readPlace, readSpec, Json.isNull, readShape, hs, readEntries_eq_ok_iff.mpr h,
        Except.map]
  | reference hs hv hr => simp [readPlace, readSpec, hv, readShape, hs, hr]
  | inlineTagged hs hv hnames hm hr =>
      simp [readPlace, readSpec, hv, readShape, readUnion, hs, hnames, hm, hr]
  | inlineMember hs hv hn hb hr =>
      simp only [readPlace, readSpec, hv, readShape, readUnion, hs, hn, Bool.false_eq_true,
        if_false]
      exact firstAccepted_eq_ok_iff.mpr ⟨_, _, _, rfl, hb, hr⟩
  | any hs hv => simp [readPlace, readSpec, hv, readShape, hs]

/-- The step of a reading gives a value exactly in the ways in which the place accepts it. -/
theorem readPlace_eq_ok_iff {place : Place} {v w : Json} :
    readPlace t read place v path = .ok w ↔ Accepts t read path place v w := by
  refine ⟨fun h => ?_, readPlace_of_accepts⟩
  cases place with
  | definition name => exact accepts_of_readDefinition h
  | spec s =>
      rw [readPlace, readSpec] at h
      cases hv : v.isNull with
      | true =>
          obtain rfl := Json.isNull_iff.mp hv
          by_cases hn : s.nullable = true ∨ s.shape.isAny = true
          · obtain rfl : Json.null = w := by simpa [hv, hn] using h
            exact .null hn
          · simp [hv, hn] at h
      | false =>
          rw [hv] at h
          exact accepts_of_readShape hv h

/-! ### Known places -/

/-- A record takes objects only. -/
theorem Accepts.exists_fields {name : String} {d : Definition} {record : Record} {v w : Json}
    (h : Accepts t read path (.definition name) v w) (hd : t.get? name = some d)
    (hk : d.kind = .object record) : ∃ given out, v = .object given ∧ w = .object out ∧
      FieldsRead read record given path record.fields out := by
  have hkind : ∀ {d' : Definition}, t.get? name = some d' → d'.kind = .object record := by
    rintro d' hd'
    obtain rfl := Option.some.inj (hd.symm.trans hd')
    exact hk
  cases h with
  | record hd' hk' h =>
      obtain rfl := Kind.object.inj (hk'.symm.trans (hkind hd'))
      exact ⟨_, _, rfl, rfl, h⟩
  | enum hd' hk' => exact absurd (hk'.symm.trans (hkind hd')) (by simp)
  | tagged hd' hk' => exact absurd (hk'.symm.trans (hkind hd')) (by simp)
  | member hd' hk' => exact absurd (hk'.symm.trans (hkind hd')) (by simp)
  | typeAlias hd' hk' => exact absurd (hk'.symm.trans (hkind hd')) (by simp)

/-- A constant takes values that are the same, and leaves them as they are. -/
theorem Accepts.const_inv {s : Spec} {c v w : Json} (h : Accepts t read path (.spec s) v w)
    (hs : s.shape = .const c) (hv : v.isNull = false) : v.same c = true ∧ w = v := by
  cases h with
  | null => cases hv
  | const hs' _ h =>
      obtain rfl := Shape.const.inj (hs'.symm.trans hs)
      exact ⟨h, rfl⟩
  | _ => simp_all

/-- A bare reference takes what its definition takes. -/
theorem Accepts.reference_inv {s : Spec} {name : String} {v w : Json}
    (h : Accepts t read path (.spec s) v w) (hs : s.shape = .reference name)
    (hv : v.isNull = false) : read (.definition name) v path = .ok w := by
  cases h with
  | null => cases hv
  | reference hs' _ hr => exact Shape.reference.inj (hs'.symm.trans hs) ▸ hr
  | _ => simp_all

end accepts

/-! ### Nulls -/

/-- Where a null is read, and only there, a null is given. -/
theorem isNull_of_readWithin {t : Table} : ∀ {n : Nat} {place : Place} {v w : Json} {path : Path},
    readWithin t n place v path = .ok w → w.isNull = v.isNull
  | 0, _, _, _, _, h => by cases h
  | n + 1, _, _, _, _, h => by
      cases readPlace_eq_ok_iff.mp h with
      | tagged _ _ _ hr => exact isNull_of_readWithin hr
      | member _ _ _ _ hr => exact isNull_of_readWithin hr
      | typeAlias _ _ hr => exact isNull_of_readWithin hr
      | reference _ _ hr => exact isNull_of_readWithin hr
      | inlineTagged _ _ _ _ hr => exact isNull_of_readWithin hr
      | inlineMember _ _ _ _ hr => exact isNull_of_readWithin hr
      | _ => rfl

end SchemaModels.Canonical

namespace SchemaModels.Table

open Canonical

/-- A bounded reading gives a value exactly in the ways in which the place accepts it, given bounded
readings. -/
theorem reading_eq_ok_iff {t : Table} {place : Place} {v w : Json} {path : Path}
    (hp : t.Has place) :
    t.reading place v path = .ok w ↔ Accepts t t.reading path place v w := by
  rw [← readPlace_eq_ok_iff, ← outcome_eq_value, ← outcome_eq_value, outcome_reading hp path path]

/-! ### A table of drawings -/

/-- Figures that are circles or groups, which tell by their kind what they are. A kind may be left
out. -/
def drawings : Table where
  root := { metadataType := "Sheet", rootType := "Figure" }
  definitions :=
    [⟨"Figure", none, .union ["Circle", "Group"] (some "kind")⟩,
     ⟨"Circle", none, .object
       { fields := [("kind", { shape := .const (.string "circle") }),
           ("radius", { shape := .primitive .number }),
           ("color", { shape := .literal [.string "red", .string "blue"],
                       default := some (.string "red") })]
         required := ["radius"]
         strict := false
         names_nodup := by decide }⟩,
     ⟨"Group", none, .object
       { fields := [("kind", { shape := .const (.string "group") }),
           ("parts", { shape := .array { shape := .reference "Figure" } }),
           ("label", { shape := .union [{ shape := .primitive .integer },
             { shape := .primitive .string }] none })]
         required := ["parts"]
         strict := false
         names_nodup := by decide }⟩,
     ⟨"Sheet", none, .object
       { fields := [("width", { shape := .primitive .integer }), ("notes", { shape := .map none })]
         required := ["width"]
         strict := true
         names_nodup := by decide }⟩]
  names_nodup := by decide

/-- The real number two. -/
def two : Json := .number (.real ⟨false, ⟨1024 * 2 ^ 52, by decide⟩⟩)

/-- A group of one circle, with a null, a key that is not declared and a kind left out. -/
def looseGroup : Json :=
  .object [("label", .null), ("kind", .string "group"),
    ("parts", .array [.object [("radius", two), ("depth", .bool true)]])]

/-- The canonical form of the group. -/
def canonicalGroup : Json :=
  .object [("kind", .string "group"),
    ("parts", .array [.object [("kind", .string "circle"), ("radius", two),
      ("color", .string "red")]])]

end SchemaModels.Table
