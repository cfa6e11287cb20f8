import SchemaModels.Document.Basic
import SchemaModels.Proofs.Json.Parts
import SchemaModels.Proofs.Plan.Reference
import SchemaModels.Proofs.Results

/-!
# What is read of a document

The definitions of a document are read one after the other, each into the kind that its keywords
say, and put into a table under their names.

* `field?_of_recordFields`, `of_record`: the fields and the required names of a record.
* `definition_eq_ok_iff`, `kind_eq_object_iff`, `kind_eq_typeAlias_iff`: what a definition is read
  as.
* `mem_definitions_of_insertAll`: a table holds what is read of the entries of the container.
* `get?_of_ofJson`: the definition of a name is read of the schema under this name.
-/

namespace SchemaModels

theorem Keyed.upsert_of_not_mem {α κ : Type} [DecidableEq κ] (key : α → κ) {a : α} :
    ∀ {items : List α}, key a ∉ items.map key → Keyed.upsert key a items = items ++ [a]
  | [], _ => rfl
  | b :: rest, h => by
      rw [List.map_cons, List.mem_cons, not_or] at h
      rw [Keyed.upsert, if_neg (Ne.symm h.1), upsert_of_not_mem key h.2, List.cons_append]

theorem Record.field?_insert (r : Record) (name : String) (spec : Spec) (key : String) :
    (r.insert name spec).field? key = if key = name then some spec else r.field? key :=
  Keyed.lookup_upsert name key spec r.fields

namespace Document

/-! ### Records -/

/-- A field that is not among those to be read stays as it is. -/
theorem field?_foldlM_of_not_mem {name : String} : ∀ {fields : Entries} {start r : Record},
    name ∉ fields.map Prod.fst →
    fields.foldlM (fun r e => (property e.2).map fun spec => r.insert e.1 spec) start = .ok r →
    r.field? name = start.field? name
  | [], start, r, _, h => by
      rw [List.foldlM_nil] at h
      obtain rfl : start = r := Except.ok.inj h
      rfl
  | (key, v) :: rest, start, r, hn, h => by
      rw [List.map_cons, List.mem_cons, not_or] at hn
      rw [List.foldlM_cons] at h
      cases hp : property v with
      | error e =>
          rw [hp] at h
          cases h
      | ok spec =>
          rw [hp] at h
          rw [field?_foldlM_of_not_mem hn.2 h, Record.field?_insert, if_neg hn.1]

/-- Every field of a record is read. -/
theorem field?_foldlM {name : String} {v : Json} : ∀ {fields : Entries} {start r : Record},
    (fields.map Prod.fst).Nodup →
    fields.foldlM (fun r e => (property e.2).map fun spec => r.insert e.1 spec) start = .ok r →
    (name, v) ∈ fields → ∃ spec, property v = .ok spec ∧ r.field? name = some spec
  | [], _, _, _, _, hmem => absurd hmem List.not_mem_nil
  | (key, w) :: rest, start, r, hn, h, hmem => by
      obtain ⟨hkey, hn⟩ := List.nodup_cons.mp hn
      rw [List.foldlM_cons] at h
      cases hp : property w with
      | error e =>
          rw [hp] at h
          cases h
      | ok spec =>
          rw [hp] at h
          rcases List.mem_cons.mp hmem with heq | hmem
          · obtain ⟨rfl, rfl⟩ := Prod.mk.inj heq
            refine ⟨spec, hp, ?_⟩
            rw [field?_foldlM_of_not_mem hkey h, Record.field?_insert, if_pos rfl]
          · exact field?_foldlM hn h hmem

theorem field?_of_recordFields {fields : Entries} {r : Record} (hn : (fields.map Prod.fst).Nodup)
    (h : recordFields fields = .ok r) {name : String} {v : Json}
    (hv : Entries.get? fields name = some v) :
    ∃ spec, property v = .ok spec ∧ r.field? name = some spec :=
  field?_foldlM hn h (Keyed.mem_of_lookup hv)

theorem filterMap_of_mapM : ∀ {items : List Json} {names : List String},
    items.mapM (fun v => match v with
      | .string s => Except.ok s
      | _ => .error Fault.requiredNotString) = .ok names → items.filterMap Json.asString? = names
  | [], names, h => Except.ok.inj h
  | v :: items, names, h => by
      obtain ⟨name, rest, hv, hrest, rfl⟩ := mapM_cons_eq_ok.mp h
      cases v with
      | string s =>
          obtain rfl := Except.ok.inj hv
          rw [List.filterMap_cons, filterMap_of_mapM hrest]
          rfl
      | _ => cases hv

/-- The fields and the required names of a record. -/
theorem of_record {es fields : Entries} {items : List Json} {r : Record}
    (hproperties : Entries.get? es "properties" = some (.object fields))
    (hrequired : Entries.get? es "required" = some (.array items)) (h : record es = .ok r) :
    (∃ r', recordFields fields = .ok r' ∧ r.fields = r'.fields) ∧
      ∀ name, r.isRequired name = (items.filterMap Json.asString?).contains name := by
  rw [record, hproperties, hrequired] at h
  obtain ⟨r', hr', h⟩ := bind_eq_ok_iff.mp h
  obtain ⟨required, hreq, h⟩ := bind_eq_ok_iff.mp h
  obtain rfl := Except.ok.inj h
  obtain ⟨names, hnames, hreq⟩ := bind_eq_ok_iff.mp hreq
  obtain rfl := Except.ok.inj hreq
  refine ⟨⟨r', hr', rfl⟩, fun name => ?_⟩
  rw [filterMap_of_mapM hnames, Bool.eq_iff_iff, Record.isRequired, List.contains_iff_mem,
    List.contains_iff_mem, List.mem_eraseDups]

/-! ### Definitions -/

theorem definition_eq_ok_iff {defs : Entries} {name : String} {v : Json} {d : Definition} :
    definition defs name v = .ok d ↔ ∃ es k, v = .object es ∧ kind defs es = .ok k ∧
      d = ⟨name, string? es "description", k⟩ := by
  cases v with
  | object es =>
      rw [definition, map_eq_ok_iff]
      simp [eq_comm]
  | _ => simp [definition]

/-- A definition is a record if no keyword says otherwise. -/
theorem kind_eq_object_iff {defs es : Entries} {r : Record} :
    kind defs es = .ok (.object r) ↔ Entries.get? es "enum" = none ∧ alternatives? es = none ∧
      isRecord es = true ∧ record es = .ok r := by
  unfold kind
  cases Entries.get? es "enum" with
  | some values => simp [map_eq_ok_iff]
  | none =>
      cases alternatives? es with
      | some members => simp [map_eq_ok_iff]
      | none => cases isRecord es <;> simp [map_eq_ok_iff]

/-- A definition is an alias if no keyword says otherwise. -/
theorem kind_eq_typeAlias_iff {defs es : Entries} {s : Spec} :
    kind defs es = .ok (.typeAlias s) ↔ Entries.get? es "enum" = none ∧ alternatives? es = none ∧
      isRecord es = false ∧ property (.object es) = .ok s := by
  unfold kind
  cases Entries.get? es "enum" with
  | some values => simp [map_eq_ok_iff]
  | none =>
      cases alternatives? es with
      | some members => simp [map_eq_ok_iff]
      | none => cases isRecord es <;> simp [map_eq_ok_iff]

theorem name_of_definition {defs : Entries} {name : String} {v : Json} {d : Definition}
    (h : definition defs name v = .ok d) : d.name = name := by
  obtain ⟨_, _, _, _, rfl⟩ := definition_eq_ok_iff.mp h
  rfl

/-! ### The definitions of a container -/

theorem insertAll_cons_eq_ok_iff {defs rest : Entries} {name : String} {v : Json} {t t' : Table} :
    insertAll defs ((name, v) :: rest) t = .ok t' ↔
      ∃ d, definition defs name v = .ok d ∧ insertAll defs rest (t.insert d) = .ok t' := by
  rw [insertAll]
  cases definition defs name v <;> simp [within, bind, Except.bind]

/-- A container is read when each of its definitions is. -/
theorem exists_insertAll_iff {defs : Entries} : ∀ {rest : Entries} {t : Table},
    (∃ t', insertAll defs rest t = .ok t') ↔ ∀ e ∈ rest, ∃ d, definition defs e.1 e.2 = .ok d
  | [], t => by simp [insertAll]
  | (name, v) :: rest, t => by
      simp only [insertAll_cons_eq_ok_iff, List.forall_mem_cons]
      constructor
      · rintro ⟨t', d, hd, hrest⟩
        exact ⟨⟨d, hd⟩, exists_insertAll_iff.mp ⟨t', hrest⟩⟩
      · rintro ⟨⟨d, hd⟩, hrest⟩
        obtain ⟨t', ht'⟩ := exists_insertAll_iff.mpr hrest
        exact ⟨t', d, hd, ht'⟩

/-- What is in a table was there before or is read of an entry. -/
theorem mem_of_insertAll {defs : Entries} {d : Definition} : ∀ {rest : Entries} {t t' : Table},
    insertAll defs rest t = .ok t' → d ∈ t'.definitions →
      d ∈ t.definitions ∨ ∃ e ∈ rest, definition defs e.1 e.2 = .ok d
  | [], t, t', h, hd => by
      obtain rfl : t = t' := Except.ok.inj h
      exact .inl hd
  | (name, v) :: rest, t, t', h, hd => by
      obtain ⟨c, hc, hrest⟩ := insertAll_cons_eq_ok_iff.mp h
      rcases mem_of_insertAll hrest hd with hd | ⟨e, he, hd⟩
      · rcases Keyed.mem_of_mem_upsert Definition.name hd with rfl | hd
        · exact .inr ⟨_, List.mem_cons_self, hc⟩
        · exact .inl hd
      · exact .inr ⟨e, List.mem_cons_of_mem _ he, hd⟩

/-- Definitions of different names are put after those of the table. -/
theorem mem_definitions_of_insertAll {defs : Entries} : ∀ {rest : Entries} {t t' : Table},
    (rest.map Prod.fst).Nodup → (∀ e ∈ rest, e.1 ∉ t.names) → insertAll defs rest t = .ok t' →
      t'.root = t.root ∧ ∀ d, d ∈ t'.definitions ↔
        d ∈ t.definitions ∨ ∃ e ∈ rest, definition defs e.1 e.2 = .ok d
  | [], t, t', _, _, h => by
      obtain rfl : t = t' := Except.ok.inj h
      simp
  | (name, v) :: rest, t, t', hn, hfresh, h => by
      obtain ⟨d, hd, hrest⟩ := insertAll_cons_eq_ok_iff.mp h
      obtain ⟨hname, hn⟩ := List.nodup_cons.mp hn
      have hdname := name_of_definition hd
      have hnew : d.name ∉ t.names := hdname ▸ hfresh _ List.mem_cons_self
      have hinsert : (t.insert d).definitions = t.definitions ++ [d] :=
        Keyed.upsert_of_not_mem _ hnew
      -- the names that are left are new to the table with this definition as well
      have hfresh' : ∀ e ∈ rest, e.1 ∉ (t.insert d).names := by
        intro e he
        rw [Table.names, hinsert, List.map_append, List.map_singleton, List.mem_append,
          List.mem_singleton, not_or, hdname]
        exact ⟨hfresh e (List.mem_cons_of_mem _ he),
          fun h => hname (List.mem_map.mpr ⟨e, he, h⟩)⟩
      obtain ⟨hroot, hmem⟩ := mem_definitions_of_insertAll hn hfresh' hrest
      refine ⟨hroot, fun c => ?_⟩
      rw [hmem, hinsert, List.mem_append, List.mem_singleton, List.exists_mem_cons_iff, or_assoc]
      refine or_congr_right (or_congr_left ?_)
      rw [hd, Except.ok.injEq, eq_comm]

/-! ### Documents -/

theorem ofJson_eq_ok_iff {given : Root} {es : Entries} {t : Table} :
    ofJson given (.object es) = .ok t ↔ ∃ defs r, container es = .ok defs ∧
      root given es = .ok r ∧ insertAll defs defs (Table.empty r) = .ok t := by
  rw [ofJson]
  cases container es with
  | error e => simp [within, bind, Except.bind]
  | ok defs => cases root given es <;> simp [within, bind, Except.bind]

theorem distinct_of_container {doc defs : Entries} (hv : (Json.object doc).Distinct)
    (hdefs : container doc = .ok defs) : (Json.object defs).Distinct := by
  unfold container at hdefs
  split at hdefs
  · cases hdefs
  · rename_i es hget
    obtain rfl : es = defs := Except.ok.inj hdefs
    have hmem : ∃ key, Entries.get? doc key = some (.object es) :=
      (Option.or_eq_some_iff.mp hget).elim (fun h => ⟨_, h⟩) fun h => ⟨_, h.2⟩
    obtain ⟨key, hkey⟩ := hmem
    exact hv.of_mem_parts (Json.mem_parts_of_entry (Keyed.mem_of_lookup hkey))
  · cases hdefs

/-- The definitions of a table are read of the schemas of the document. -/
theorem get?_of_ofJson {doc defs : Entries} (hv : (Json.object doc).Distinct) {given : Root}
    {t : Table} (ht : ofJson given (.object doc) = .ok t) (hdefs : container doc = .ok defs)
    {name : String} {d : Definition} :
    t.get? name = some d ↔
      ∃ s, Entries.get? defs name = some s ∧ definition defs name s = .ok d := by
  obtain ⟨defs', r, hdefs', _, hinsert⟩ := ofJson_eq_ok_iff.mp ht
  obtain rfl := Except.ok.inj (hdefs'.symm.trans hdefs)
  have hnodup : (defs'.map Prod.fst).Nodup := (distinct_of_container hv hdefs).nodup
  obtain ⟨_, hmem⟩ := mem_definitions_of_insertAll hnodup (fun _ _ => List.not_mem_nil) hinsert
  rw [Table.get?_eq_some_iff, hmem]
  constructor
  · rintro ⟨hd, rfl⟩
    obtain ⟨⟨name, s⟩, he, hd⟩ := hd.resolve_left List.not_mem_nil
    obtain rfl := name_of_definition hd
    exact ⟨s, (Keyed.lookup_eq_some_iff hnodup).mpr he, hd⟩
  · rintro ⟨s, hs, hd⟩
    exact ⟨.inr ⟨(name, s), Keyed.mem_of_lookup hs, hd⟩, name_of_definition hd⟩

/-- Every schema of the document is read. -/
theorem exists_definition_of_mem {doc defs : Entries} {given : Root} {t : Table}
    (ht : ofJson given (.object doc) = .ok t) (hdefs : container doc = .ok defs) {name : String}
    {s : Json} (hs : Entries.get? defs name = some s) : ∃ d, definition defs name s = .ok d := by
  obtain ⟨defs', r, hdefs', _, hinsert⟩ := ofJson_eq_ok_iff.mp ht
  obtain rfl := Except.ok.inj (hdefs'.symm.trans hdefs)
  exact exists_insertAll_iff.mp ⟨t, hinsert⟩ _ (Keyed.mem_of_lookup hs)

end Document

end SchemaModels
