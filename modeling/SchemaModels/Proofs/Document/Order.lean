import SchemaModels.Proofs.Document.Read
import SchemaModels.Proofs.Plan.Rearranged

/-!
# The order of definitions in a document

The definitions of a document are read one after the other, and a union may look at the others to
find its discriminator. It looks them up by name, so that a definition is the same wherever it
stands: reordering the container rearranges the table.

* `Reordered`: a document with the entries of its container in another order.
* `rearranged_ofJson`: its table is rearranged.
* `reordered_documents`: loading and planning of a reordered document.
-/

namespace SchemaModels

/-! ### Entries -/

namespace Entries

/-- Objects with the same entries have the same values under all keys. -/
theorem get?_eq_of_perm {es fs : Entries} (hn : (es.map Prod.fst).Nodup) (h : es.Perm fs)
    (key : String) : get? es key = get? fs key := by
  have hn' : (fs.map Prod.fst).Nodup := (h.map Prod.fst).nodup_iff.mp hn
  refine Option.ext fun v => ?_
  rw [get?, get?, Keyed.lookup_eq_some_iff hn, Keyed.lookup_eq_some_iff hn', h.mem_iff]

theorem get?_put (es : Entries) (key : String) (v : Json) (k : String) :
    get? (put es key v) k = if k = key then some v else get? es k :=
  Keyed.lookup_upsert key k v es

end Entries

namespace Document

/-! ### Definitions -/

section definition
variable {defs defs' : Entries} (h : ∀ key, Entries.get? defs key = Entries.get? defs' key)
include h

theorem inferredDiscriminator_congr (members : List String) :
    inferredDiscriminator defs members = inferredDiscriminator defs' members := by
  simp only [inferredDiscriminator, h]

/-- A definition depends on the others by their names only. -/
theorem definition_congr (name : String) (v : Json) :
    definition defs name v = definition defs' name v := by
  unfold definition kind
  simp only [inferredDiscriminator_congr h]

end definition

/-! ### Reordered documents -/

/-- A key under which the definitions of a document stand. -/
def IsContainerKey (es : Entries) (key : String) : Prop :=
  key = "$defs" ∨ key = "definitions" ∧ Entries.get? es "$defs" = none

/-- A document and the same document with the entries of its container in another order. -/
def Reordered (v w : Json) : Prop :=
  ∃ (es : Entries) (key : String) (defs defs' : Entries), IsContainerKey es key ∧
    Entries.get? es key = some (.object defs) ∧ defs.Perm defs' ∧
    v = .object es ∧ w = .object (Entries.put es key (.object defs'))

section put
variable {es : Entries} {key : String} (hkey : IsContainerKey es key)
include hkey

/-- The top-level type is described outside of the container. -/
theorem root_put (given : Root) (v : Json) : root given (Entries.put es key v) = root given es := by
  have hother : ∀ k ∈ ["title", "description", "version", "properties"],
      Entries.get? (Entries.put es key v) k = Entries.get? es k := by
    intro k hk
    rw [Entries.get?_put, if_neg]
    rintro rfl
    rcases hkey with rfl | ⟨rfl, _⟩ <;> revert hk <;> decide
  have hproperties : ∀ field, rootReference (Entries.put es key v) field =
      rootReference es field := fun field => by
    unfold rootReference
    rw [hother "properties" (by decide)]
  unfold root string?
  rw [hproperties, hproperties, hother "title" (by decide), hother "description" (by decide),
    hother "version" (by decide)]

/-- The container is the object under its key. -/
theorem container_eq {defs : Entries} (hget : Entries.get? es key = some (.object defs)) :
    container es = .ok defs := by
  unfold container
  rcases hkey with rfl | ⟨rfl, hnone⟩
  · rw [hget, Option.some_or]
  · rw [hnone, hget, Option.none_or]

theorem isContainerKey_put (v : Json) : IsContainerKey (Entries.put es key v) key := by
  refine hkey.imp_right fun ⟨hdefinitions, hnone⟩ => ⟨hdefinitions, ?_⟩
  rw [Entries.get?_put, if_neg (by rw [hdefinitions]; decide), hnone]

end put

section reordered
variable {v w : Json} (hv : v.Distinct) (h : Reordered v w) (given : Root)
include hv h

/-- What is read of reordered documents: the same description of the top-level type, and the same
definitions among the entries of a container. -/
theorem exists_insertAll_of_reordered : ∃ (r : Except Fault Root) (defs defs' : Entries),
    defs.Perm defs' ∧ (defs.map Prod.fst).Nodup ∧
    (∀ name x, definition defs name x = definition defs' name x) ∧
    (∀ t, ofJson given v = .ok t ↔
      ∃ root, r = .ok root ∧ insertAll defs defs (Table.empty root) = .ok t) ∧
    ∀ t, ofJson given w = .ok t ↔
      ∃ root, r = .ok root ∧ insertAll defs' defs' (Table.empty root) = .ok t := by
  obtain ⟨es, key, defs, defs', hkey, hget, hperm, rfl, rfl⟩ := h
  have hnodup : (defs.map Prod.fst).Nodup :=
    (hv.of_mem_parts (Json.mem_parts_of_entry (Keyed.mem_of_lookup hget))).nodup
  have hput : Entries.get? (Entries.put es key (.object defs')) key = some (.object defs') := by
    rw [Entries.get?_put, if_pos rfl]
  refine ⟨root given es, defs, defs', hperm, hnodup,
    definition_congr (Entries.get?_eq_of_perm hnodup hperm), fun t => ?_, fun t => ?_⟩
  · simp [ofJson_eq_ok_iff, container_eq hkey hget]
  · simp [ofJson_eq_ok_iff, container_eq (isContainerKey_put hkey _) hput, root_put hkey]

/-- Either both documents have a table, or neither has. -/
theorem exists_ofJson_iff :
    (∃ t, ofJson given v = .ok t) ↔ ∃ t, ofJson given w = .ok t := by
  obtain ⟨r, defs, defs', hperm, _, hdefinition, hload, hload'⟩ :=
    exists_insertAll_of_reordered hv h given
  have hread : ∀ root, (∃ t, insertAll defs defs (Table.empty root) = .ok t) ↔
      ∃ t, insertAll defs' defs' (Table.empty root) = .ok t := fun root => by
    rw [exists_insertAll_iff, exists_insertAll_iff]
    simp only [hdefinition, hperm.mem_iff]
  simp only [hload, hload']
  constructor
  · rintro ⟨t, root, hr, ht⟩
    obtain ⟨t', ht'⟩ := (hread root).mp ⟨t, ht⟩
    exact ⟨t', root, hr, ht'⟩
  · rintro ⟨t', root, hr, ht'⟩
    obtain ⟨t, ht⟩ := (hread root).mpr ⟨t', ht'⟩
    exact ⟨t, root, hr, ht⟩

variable {given}

/-- The tables of reordered documents are rearranged. -/
theorem rearranged_ofJson {t t' : Table} (ht : ofJson given v = .ok t)
    (ht' : ofJson given w = .ok t') : t.Rearranged t' := by
  obtain ⟨r, defs, defs', hperm, hnodup, hdefinition, hload, hload'⟩ :=
    exists_insertAll_of_reordered hv h given
  obtain ⟨root, hr, hinsert⟩ := (hload t).mp ht
  obtain ⟨root', hr', hinsert'⟩ := (hload' t').mp ht'
  obtain rfl : root = root' := Except.ok.inj (hr.symm.trans hr')
  have hfresh : ∀ cs : Entries, ∀ e ∈ cs, e.1 ∉ (Table.empty root).names := fun _ _ _ =>
    List.not_mem_nil
  obtain ⟨hroot, hmem⟩ := mem_definitions_of_insertAll hnodup (hfresh _) hinsert
  obtain ⟨hroot', hmem'⟩ := mem_definitions_of_insertAll
    ((hperm.map Prod.fst).nodup_iff.mp hnodup) (hfresh _) hinsert'
  refine ⟨hroot.trans hroot'.symm, ?_⟩
  refine (List.perm_ext_iff_of_nodup (.of_map _ t.names_nodup) (.of_map _ t'.names_nodup)).mpr
    fun d => ?_
  rw [hmem, hmem']
  simp only [hdefinition, hperm.mem_iff]

/-- Declaration order only breaks ties. Of two documents that differ in the order of their
definitions both are read, or neither; the tables have equal definitions under every name; both are
planned, or neither; and the plans give every definition the same section, the same export group and
the same dependencies. -/
theorem reordered_documents (given : Root) :
    ((∃ t, ofJson given v = .ok t) ↔ ∃ t, ofJson given w = .ok t) ∧
    ∀ t t', ofJson given v = .ok t → ofJson given w = .ok t' →
      t.root = t'.root ∧ (∀ name, t.get? name = t'.get? name) ∧
      ∀ order blocks blocks', t.graph.IsComponents blocks → t'.graph.IsComponents blocks' →
        ((∃ plan, t.planWith blocks order = .ok plan) ↔
          ∃ plan, t'.planWith blocks' order = .ok plan) ∧
        ∀ plan plan', t.planWith blocks order = .ok plan → t'.planWith blocks' order = .ok plan' →
          ∀ name ∈ t.names, plan.AgreeOn plan' name := by
  refine ⟨exists_ofJson_iff hv h given, fun t t' ht ht' => ?_⟩
  have hrearranged := rearranged_ofJson hv h ht ht'
  refine ⟨hrearranged.root_eq, hrearranged.get?_eq, fun order blocks blocks' hb hb' => ?_⟩
  exact ⟨hrearranged.exists_plan_iff hb hb' order,
    fun _ _ hplan hplan' _ hn => hrearranged.agreeOn hb hb' hplan hplan' hn⟩

end reordered

/-- A document with a union of two records, which stand in some order. -/
def drawing (records : List String) : Json :=
  let reference (name : String) : Json := .object [("$ref", .string ("#/$defs/" ++ name))]
  .object [("properties", .object [("metadata", reference "Card"), ("root", reference "Node")]),
    ("$defs", .object (("Node", .object [("oneOf", .array [reference "Card", reference "Text"])]) ::
      records.map fun name => (name, .object [("type", .string "object")])))]

/-- The table of a drawing. -/
def drawingTable (records : List String) (hn : ("Node" :: records).Nodup) : Table where
  root := { metadataType := "Card", rootType := "Node" }
  definitions := ⟨"Node", none, .union ["Card", "Text"] none⟩ ::
    records.map fun name => ⟨name, none, .object .empty⟩
  names_nodup := by
    rw [List.map_cons, List.map_map]
    exact (List.map_id records).symm ▸ hn

theorem reordered_drawing : ∃ t t' plan plan',
    ofJson {} (drawing ["Card", "Text"]) = .ok t ∧ ofJson {} (drawing ["Text", "Card"]) = .ok t' ∧
    t.planWith t.blocks {} = .ok plan ∧ t'.planWith t'.blocks {} = .ok plan' ∧
    plan.map Planned.name = ["Text", "Card", "Node"] ∧
    ∀ name ∈ t.names, plan.AgreeOn plan' name := by
  have hv : (drawing ["Card", "Text"]).Distinct := by decide
  have h : Reordered (drawing ["Card", "Text"]) (drawing ["Text", "Card"]) :=
    ⟨_, "$defs", _, _, .inl rfl, rfl, .cons _ (.swap _ _ _), rfl, rfl⟩
  have ht : ofJson {} (drawing ["Card", "Text"]) =
      .ok (drawingTable ["Card", "Text"] (by decide)) := rfl
  have ht' : ofJson {} (drawing ["Text", "Card"]) =
      .ok (drawingTable ["Text", "Card"] (by decide)) := rfl
  obtain ⟨_, _, hplans⟩ := (reordered_documents hv h {}).2 _ _ ht ht'
  have hagree := (hplans {} _ _ Table.isComponents_blocks Table.isComponents_blocks).2
  exact ⟨_, _, _, _, ht, ht', rfl, rfl, rfl, hagree _ _ rfl rfl⟩

end Document

end SchemaModels
