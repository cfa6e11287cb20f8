import SchemaModels.Proofs.Plan.Sections
import SchemaModels.Proofs.Unit.Blocks
import SchemaModels.Proofs.Unit.Targets

/-!
# Export lists

A unit ends with the list of what it exports, in five groups for six sections: no definition is
exported with the unions. So the groups share out the declarations of the unit, and none is left.

* `Exports`: groups that list each declaration once, under the heading of its export group and in
  the order of the unit.
* `Target.exportText`: the text of the export list for groups.
* `exists_exports`: the text that a unit ends with, and what it lists.
-/

namespace SchemaModels

/-! ### Groups -/

/-- A list is shared out by a key that is one of several for each item. -/
theorem perm_flatMap_filter {α κ : Type} [DecidableEq κ] (key : α → κ) {keys : List κ}
    (hn : keys.Nodup) {xs : List α} (h : ∀ x ∈ xs, key x ∈ keys) :
    (keys.flatMap fun k => xs.filter fun x => key x = k).Perm xs := by
  induction keys generalizing xs with
  | nil =>
      obtain rfl : xs = [] := List.eq_nil_iff_forall_not_mem.mpr fun x hx =>
        absurd (h x hx) List.not_mem_nil
      exact .refl _
  | cons k keys ih =>
      obtain ⟨hk, hn⟩ := List.nodup_cons.mp hn
      -- the items of the other keys are among those that have not this key
      have hothers : ∀ k' ∈ keys, (xs.filter fun x => key x = k') =
          (xs.filter fun x => !decide (key x = k)).filter fun x => key x = k' := by
        intro k' hk'
        rw [List.filter_filter]
        refine List.filter_congr fun x _ => ?_
        by_cases hx : key x = k'
        · have hne : key x ≠ k := fun he => hk (he ▸ hx ▸ hk')
          simp [hx, hx ▸ hne]
        · simp [hx]
      rw [List.flatMap_cons, List.flatMap_congr hothers]
      refine ((ih hn fun x hx => ?_).append_left _).trans (List.filter_append_perm _ xs)
      obtain ⟨hx, hne⟩ := List.mem_filter.mp hx
      refine (List.mem_cons.mp (h x hx)).resolve_left fun he => ?_
      rw [he] at hne
      simp at hne

theorem mem_exportGroups {group : Section} (h : group ≠ .unions) :
    group ∈ exportGroups.map Prod.fst := by
  revert h
  cases group <;> decide

/-- The declarations under a heading of an export list. -/
structure ExportGroup where
  group : Section
  heading : String
  declarations : List Declaration

/-- Groups that list each declaration once, under the heading of its export group and in order. -/
structure Exports (ds : List Declaration) (groups : List ExportGroup) : Prop where
  perm_declarations : (groups.flatMap ExportGroup.declarations).Perm ds
  /-- The headings are those of different groups, in order. -/
  headings_sublist : (groups.map fun g => (g.group, g.heading)).Sublist exportGroups
  declarations_eq : ∀ g ∈ groups, g.declarations = ds.filter fun d => d.exportGroup = g.group
  declarations_ne_nil : ∀ g ∈ groups, g.declarations ≠ []

/-- The groups of declarations. -/
def exportGroupsOf (ds : List Declaration) : List ExportGroup :=
  exportGroups.filterMap fun g =>
    let members := ds.filter fun d => d.exportGroup = g.1
    if members.isEmpty then none else some ⟨g.1, g.2, members⟩

theorem namesIn_map_export (ds : List Declaration) (group : Section) :
    namesIn (ds.map Declaration.export_) group =
      (ds.filter fun d => d.exportGroup = group).map Declaration.name := by
  unfold namesIn
  rw [List.filter_map, List.map_map]
  rfl

/-- The lines of an export list are those of the groups of the declarations. -/
theorem exportBlocks_eq (heading entry : String → String) (ds : List Declaration) :
    exportBlocks heading entry (ds.map Declaration.export_) =
      (exportGroupsOf ds).map fun g =>
        heading g.heading :: g.declarations.map (entry ∘ Declaration.name) := by
  unfold exportBlocks exportGroupsOf
  rw [List.map_filterMap]
  refine List.filterMap_congr fun g _ => ?_
  simp only [namesIn_map_export, List.isEmpty_map, List.map_map]
  split <;> rfl

/-- The groups that are listed hold what all of them would. -/
theorem flatMap_exportGroupsOf (ds : List Declaration) :
    (exportGroupsOf ds).flatMap ExportGroup.declarations =
      (exportGroups.map Prod.fst).flatMap fun k => ds.filter fun d => d.exportGroup = k := by
  rw [exportGroupsOf, List.filterMap_eq_flatMap_toList, List.flatMap_assoc, List.flatMap_map]
  refine List.flatMap_congr fun g _ => ?_
  by_cases hempty : (ds.filter fun d => d.exportGroup = g.1).isEmpty = true
  · simp only [hempty, if_true, Option.toList_none, List.flatMap_nil]
    exact (List.isEmpty_iff.mp hempty).symm
  · simp only [hempty, Bool.false_eq_true, if_false, Option.toList_some, List.flatMap_singleton]

theorem headings_exportGroupsOf (ds : List Declaration) :
    (exportGroupsOf ds).map (fun g => (g.group, g.heading)) =
      exportGroups.filter fun g => !(ds.filter fun d => d.exportGroup = g.1).isEmpty := by
  rw [← List.filterMap_eq_filter, exportGroupsOf, List.map_filterMap]
  refine List.filterMap_congr fun g _ => ?_
  by_cases hempty : (ds.filter fun d => d.exportGroup = g.1).isEmpty = true <;>
    simp [Option.guard, hempty]

theorem mem_exportGroupsOf {ds : List Declaration} {g : ExportGroup} (h : g ∈ exportGroupsOf ds) :
    g.declarations = (ds.filter fun d => d.exportGroup = g.group) ∧ g.declarations ≠ [] := by
  obtain ⟨k, _, hk⟩ := List.mem_filterMap.mp h
  dsimp only at hk
  split at hk
  · cases hk
  · rename_i hne
    obtain rfl := Option.some.inj hk
    exact ⟨rfl, fun hnil => hne (List.isEmpty_iff.mpr hnil)⟩

theorem exports_exportGroupsOf {ds : List Declaration} (h : ∀ d ∈ ds, d.exportGroup ≠ .unions) :
    Exports ds (exportGroupsOf ds) where
  perm_declarations := by
    rw [flatMap_exportGroupsOf]
    exact perm_flatMap_filter _ (by decide) fun d hd => mem_exportGroups (h d hd)
  headings_sublist := by
    rw [headings_exportGroupsOf]
    exact List.filter_sublist
  declarations_eq _ hg := (mem_exportGroupsOf hg).1
  declarations_ne_nil _ hg := (mem_exportGroupsOf hg).2

/-! ### Texts -/

namespace Target

/-- The lines of a group: its heading as a comment, then an entry for each declaration. -/
def groupLines : Target → String → ExportGroup → List String
  | pydantic, indent, g =>
      (indent ++ "# " ++ g.heading) :: g.declarations.map fun d => indent ++ "\"" ++ d.name ++ "\","
  | zod, indent, g =>
      (indent ++ "// " ++ g.heading) ::
        g.declarations.map fun d => indent ++ Validator.schemaName d.name ++ ","

/-- The text of an export list: its lines between brackets, an empty line between two groups. -/
def exportText (target : Target) (indent : String) (groups : List ExportGroup) : String :=
  let lines := String.intercalate "\n"
    (List.intercalate [""] (groups.map (target.groupLines indent)))
  match target with
  | pydantic => Model.banner "PUBLIC API EXPORTS" ++ "\n\n" ++ "__all__ = [\n" ++ lines ++ "\n]"
  | zod =>
      Validator.banner "SCHEMA REGISTRY" ++ "\n\n" ++ "export const schemas = \x7b\n" ++ lines ++
        "\n\x7d;"

theorem groupLines_ne_nil (target : Target) (indent : String) (g : ExportGroup) :
    target.groupLines indent g ≠ [] := by
  cases target <;> exact List.cons_ne_nil _ _

theorem intercalate_groupLines_ne_nil (target : Target) (indent : String) :
    ∀ {groups : List ExportGroup}, groups ≠ [] →
      List.intercalate [""] (groups.map (target.groupLines indent)) ≠ []
  | [], hne => absurd rfl hne
  | [g], _ => by
      rw [List.map_singleton, List.intercalate_singleton]
      exact target.groupLines_ne_nil indent g
  | g :: g' :: rest, _ => by
      rw [List.map_cons, List.map_cons, List.intercalate_cons_cons]
      simp [target.groupLines_ne_nil indent g]

/-- The export list of a target has the groups of the declarations. -/
theorem postamble_eq (target : Target) (settings : Settings) {ds : List Declaration}
    (hne : exportGroupsOf ds ≠ []) :
    target.backend.postamble (target.backend.settle settings) (ds.map Declaration.export_) =
      target.exportText (target.backend.indent settings) (exportGroupsOf ds) := by
  have hlines : ¬ (List.intercalate [""] ((exportGroupsOf ds).map
      (target.groupLines (target.backend.indent settings)))).isEmpty = true := fun h =>
    target.intercalate_groupLines_ne_nil _ hne (List.isEmpty_iff.mp h)
  cases target with
  | pydantic =>
      show Model.postamble _ _ = _
      unfold Model.postamble exportText
      simp only [exportLines, exportBlocks_eq]
      exact congrArg _ (if_neg hlines)
  | zod =>
      show Validator.postamble _ _ = _
      unfold Validator.postamble exportText
      simp only [exportLines, exportBlocks_eq]
      exact congrArg _ (if_neg hlines)

/-- An export list does not end with a line feed. -/
theorem exists_getLast?_exportText (target : Target) (indent : String)
    (groups : List ExportGroup) :
    ∃ c, (target.exportText indent groups).toList.getLast? = some c ∧ c ≠ '\n' := by
  have hlast : ∀ (text closing : String) (c : Char), closing.toList.getLast? = some c →
      (text ++ closing).toList.getLast? = some c := by
    intro text closing c hc
    rw [String.toList_append, List.getLast?_append, hc, Option.some_or]
  cases target with
  | pydantic => exact ⟨']', hlast _ "\n]" ']' rfl, by decide⟩
  | zod => exact ⟨';', hlast _ "\n\x7d;" ';' rfl, by decide⟩

end Target

namespace GeneratedUnit

theorem trimBlock_of_getLast? {block : String} {c : Char} (h : block.toList.getLast? = some c)
    (hc : c ≠ '\n') : trimBlock block = block := by
  obtain ⟨front, hfront⟩ := List.getLast?_eq_some_iff.mp h
  rw [trimBlock, hfront, Text.dropTrailing, List.reverse_concat,
    List.dropWhile_cons_of_neg (by simpa using hc), ← List.reverse_concat, List.reverse_reverse,
    ← hfront, String.ofList_toList]

/-- The last block of a unit, if it does not end with a line feed, stands at the end of the text. -/
theorem exists_joinBlocks_concat {block : String} {c : Char}
    (h : block.toList.getLast? = some c) (hc : c ≠ '\n') (separator : String)
    (ending : LineEnding) (blocks : List String) :
    ∃ before, joinBlocks separator ending (blocks ++ [block]) =
      ending.write (before ++ block ++ "\n") := by
  have hshown : ((blocks ++ [block]).map trimBlock).filter (fun b => !b.isEmpty) =
      (blocks.map trimBlock).filter (fun b => !b.isEmpty) ++ [block] := by
    have hne : block.isEmpty = false := by
      rw [Bool.eq_false_iff, Ne, String.isEmpty_iff]
      rintro rfl
      simp at h
    rw [List.map_append, List.map_singleton, trimBlock_of_getLast? h hc, List.filter_append]
    simp [hne]
  have hjoined : ∃ before, String.intercalate separator
      (((blocks ++ [block]).map trimBlock).filter fun b => !b.isEmpty) = before ++ block := by
    rw [hshown]
    by_cases hnil : ((blocks.map trimBlock).filter fun b => !b.isEmpty) = []
    · exact ⟨"", by rw [hnil, List.nil_append, String.intercalate_singleton, String.empty_append]⟩
    · exact ⟨_, by
        rw [String.intercalate_append_of_ne_nil hnil (List.cons_ne_nil _ _),
          String.intercalate_singleton]⟩
  obtain ⟨before, hbefore⟩ := hjoined
  refine ⟨before, ?_⟩
  rw [← hbefore]
  cases ending <;> rfl

section ofTable
variable {target : Target} {settings : Settings} {t : Table} {u : GeneratedUnit}
  (h : ofTable target.backend settings t = .ok u)
include h

/-- No declaration of a unit is exported with the unions. -/
theorem exportGroup_ne_unions {d : Declaration} (hd : d ∈ u.declarations) :
    d.exportGroup ≠ .unions := by
  have hd' : d.outline ∈ u.plan ++ [t.root.outline] :=
    map_outline h ▸ List.mem_map_of_mem hd
  rcases List.mem_append.mp hd' with hp | hroot
  · obtain ⟨e, _, hsection, _⟩ :=
      Table.section_of_mem Table.isComponents_blocks (exists_declare h).1 hp
    intro hunions
    exact Table.sectionFor_snd_ne _ e ((congrArg Prod.snd hsection).symm.trans hunions)
  · have hschema : d.exportGroup = .schema :=
      congrArg Planned.exportGroup (List.mem_singleton.mp hroot)
    rw [hschema]
    decide

/-- A unit ends with its export list, which lists each declaration once: under the heading of its
export group, and in the order of the unit. The declarations are those of the table and the
top-level type. -/
theorem exists_exports : ∃ groups before,
    u.content = settings.lineEnding.write
      (before ++ target.exportText (target.backend.indent settings) groups ++ "\n") ∧
    Exports u.declarations groups ∧
    (u.declarations.map Declaration.name).Perm (t.names ++ [t.root.name]) := by
  obtain ⟨_, ds, _, hu, hc⟩ := exists_declare h
  have hexports := exports_exportGroupsOf fun d hd => exportGroup_ne_unions h hd
  have hne : exportGroupsOf u.declarations ≠ [] := by
    intro hnil
    have hperm := hexports.perm_declarations
    rw [hnil, hu] at hperm
    exact absurd hperm.nil_eq (by simp)
  obtain ⟨c, hlast, hline⟩ := target.exists_getLast?_exportText (target.backend.indent settings)
    (exportGroupsOf u.declarations)
  obtain ⟨before, hbefore⟩ := exists_joinBlocks_concat hlast hline target.backend.separator
    settings.lineEnding _
  refine ⟨exportGroupsOf u.declarations, before, ?_, hexports, perm_names_declarations h⟩
  rw [← hbefore, ← target.postamble_eq settings hne, hu]
  exact hc

end ofTable

theorem exists_exports_cards : ∃ u groups before,
    ofTable Target.zod.backend {} Table.cards = .ok u ∧
    u.declarations.map (fun d => (d.name, d.exportGroup)) =
      [("Text", .components), ("Card", .components), ("UIComponent", .components),
        ("UIMetadata", .schema), ("UISchema", .schema)] ∧
    u.content = before ++ Target.zod.exportText "  " groups ++ "\n" ∧
    Exports u.declarations groups := by
  have h : ofTable Target.zod.backend {} Table.cards = .ok _ := rfl
  obtain ⟨groups, before, hcontent, hexports, _⟩ := exists_exports h
  exact ⟨_, groups, before, h, rfl, hcontent, hexports⟩

end GeneratedUnit

end SchemaModels
