import Mathlib.Data.List.Forall2
import SchemaModels.Proofs.Plan.Forward
import SchemaModels.Unit.Basic

/-!
# The declarations of a unit

A unit declares the definitions of a table in the order of the table's plan, and the top-level type
after them.

* `mem_exportLines`: the lines of an export list.
* `exists_declare`: what a unit consists of.
* `getElem?_declarations`: the declaration at a place is that of the definition planned there.
* `exists_planned_before`: only forward references are to definitions that come later.
-/

namespace SchemaModels

/-- The settings of a unit, with the indentation of the target if none is set. -/
def Backend.settle (backend : Backend) (settings : Settings) : Settings :=
  { settings with indent := some (settings.indent.getD backend.defaultIndent) }

/-- The table whose definitions a unit declares. -/
def Table.bound (t : Table) (settings : Settings) : Table :=
  if settings.bindingRecords then t.bindRecords else t

theorem Table.root_bound (t : Table) (settings : Settings) : (t.bound settings).root = t.root := by
  unfold bound
  split <;> rfl

theorem Table.names_bound (t : Table) (settings : Settings) :
    (t.bound settings).names = t.names := by
  unfold bound
  split
  · exact t.names_mapKinds _
  · rfl

/-! ### Export lists -/

theorem mem_intercalate {α : Type} {separator : List α} {x : α} : ∀ {ls : List (List α)},
    x ∈ List.intercalate separator ls → x ∈ separator ∨ ∃ l ∈ ls, x ∈ l
  | [], h => by cases h
  | [l], h => .inr ⟨l, List.mem_cons_self, by simpa using h⟩
  | l :: m :: ls, h => by
      rw [List.intercalate_cons_cons, List.mem_append, List.mem_append] at h
      rcases h with (h | h) | h
      · exact .inr ⟨l, List.mem_cons_self, h⟩
      · exact .inl h
      · exact (mem_intercalate h).imp_right fun ⟨k, hk, hx⟩ => ⟨k, List.mem_cons_of_mem _ hk, hx⟩

/-- A line of an export list is empty, a heading, or that of a name. -/
theorem mem_exportLines {heading entry : String → String} {exports : List Export} {x : String}
    (hx : x ∈ exportLines heading entry exports) :
    x = "" ∨ (∃ g ∈ exportGroups, x = heading g.2) ∨ ∃ e ∈ exports, x = entry e.1 := by
  rcases mem_intercalate hx with hx | ⟨l, hl, hx⟩
  · exact .inl (List.mem_singleton.mp hx)
  · obtain ⟨g, hg, hl⟩ := List.mem_filterMap.mp hl
    dsimp only at hl
    split at hl
    · cases hl
    · obtain rfl := Option.some.inj hl
      rcases List.mem_cons.mp hx with rfl | hx
      · exact .inr (.inl ⟨g, hg, rfl⟩)
      · obtain ⟨n, hn, rfl⟩ := List.mem_map.mp hx
        obtain ⟨e, he, rfl⟩ := List.mem_map.mp hn
        exact .inr (.inr ⟨e, (List.mem_filter.mp he).1, rfl⟩)

/-! ### What a unit consists of -/

namespace GeneratedUnit

/-- The declarations of planned definitions that are all in the table, one for each. -/
theorem forall₂_of_mapM {t : Table}
    {f : Planned × Definition → Except GenerationError Declaration} :
    ∀ {ps : List Planned} {ds : List Declaration}, (∀ p ∈ ps, ∃ d, t.get? p.name = some d) →
      (ps.filterMap fun p => (t.get? p.name).map fun d => (p, d)).mapM f = .ok ds →
      List.Forall₂ (fun p decl => ∃ d, t.get? p.name = some d ∧ f (p, d) = .ok decl) ps ds
  | [], ds, _, h => by
      obtain rfl : [] = ds := Except.ok.inj h
      exact .nil
  | p :: ps, ds, hall, h => by
      obtain ⟨d, hd⟩ := hall p List.mem_cons_self
      rw [List.filterMap_cons_some (by rw [hd, Option.map_some])] at h
      obtain ⟨decl, rest, hdecl, hrest, rfl⟩ := mapM_cons_eq_ok.mp h
      exact .cons ⟨d, hd, hdecl⟩
        (forall₂_of_mapM (fun q hq => hall q (List.mem_cons_of_mem p hq)) hrest)

section ofTable
variable {backend : Backend} {settings : Settings} {t : Table} {u : GeneratedUnit}

theorem ofTable_eq : ofTable backend settings t =
    ofBoundTable backend (backend.settle settings) (t.bound settings)
      (if settings.bindingRecords then t.substitutions else []) := by
  unfold ofTable Table.bound Backend.settle
  cases hb : settings.bindingRecords <;> rfl

variable (h : ofTable backend settings t = .ok u)
include h

/-- What a unit consists of: its plan, the declarations of it, and the text of these. -/
theorem exists_declare :
    (t.bound settings).plan settings.sections = .ok u.plan ∧
      ∃ ds, declare backend (backend.settle settings) (t.bound settings) u.plan = .ok ds ∧
        u.declarations = ds ++ [backend.schemaType (backend.settle settings) (t.bound settings)] ∧
        u.content = joinBlocks backend.separator settings.lineEnding
          (blocks backend (backend.settle settings) (t.bound settings) u.plan ds
            (backend.schemaType (backend.settle settings) (t.bound settings))) := by
  rw [ofTable_eq] at h
  unfold ofBoundTable at h
  cases hp : (t.bound settings).plan settings.sections with
  | error e =>
      have hp' : (t.bound settings).plan (backend.settle settings).sections = .error e := hp
      rw [hp'] at h
      exact absurd h (by simp [bind, Except.bind])
  | ok plan =>
      have hp' : (t.bound settings).plan (backend.settle settings).sections = .ok plan := hp
      rw [hp'] at h
      cases hd : declare backend (backend.settle settings) (t.bound settings) plan with
      | error e =>
          simp only [bind, Except.bind, hd] at h
          exact absurd h (by simp)
      | ok ds =>
          simp only [bind, Except.bind, hd, pure, Except.pure, Except.ok.injEq] at h
          subst h
          exact ⟨rfl, ds, hd, rfl, rfl⟩

/-- Every definition of the table is planned once. -/
theorem perm_names : (u.plan.map Planned.name).Perm (t.bound settings).names :=
  Table.perm_names_plan Table.isComponents_blocks (exists_declare h).1

/-- A planned definition has a definition with its dependencies. -/
theorem exists_get? {p : Planned} (hp : p ∈ u.plan) :
    ∃ d, (t.bound settings).get? p.name = some d ∧ p.dependencies = d.references :=
  Table.exists_definition Table.isComponents_blocks (exists_declare h).1 hp

/-- What a planned definition refers to is planned before it, unless it is a forward reference. -/
theorem exists_planned_before {i : Nat} {p : Planned} (hp : u.plan[i]? = some p) {d : Definition}
    (hd : (t.bound settings).get? p.name = some d) {n : String} (hn : n ∈ d.mentions)
    (hforward : n ∉ p.forwardRefs) : ∃ j q, j < i ∧ u.plan[j]? = some q ∧ q.name = n := by
  have hplan := (exists_declare h).1
  have hmem : p ∈ u.plan := List.mem_of_getElem? hp
  obtain ⟨d', hd', hdep⟩ := exists_get? h hmem
  obtain rfl : d' = d := Option.some.inj (hd'.symm.trans hd)
  have hn : n ∈ p.dependencies := hdep ▸ Definition.mem_references.mpr hn
  obtain ⟨j, q, hq, rfl⟩ :=
    Table.exists_planned_of_dependency Table.isComponents_blocks hplan hmem hn
  refine ⟨j, q, Nat.lt_of_not_le fun hij => hforward ?_, hq, rfl⟩
  exact (Table.mem_forwardRefs_iff Table.isComponents_blocks hplan hp hq).mpr ⟨hn, hij⟩

theorem forall₂_declare {ds : List Declaration}
    (hds : declare backend (backend.settle settings) (t.bound settings) u.plan = .ok ds) :
    List.Forall₂ (fun p decl => ∃ d, (t.bound settings).get? p.name = some d ∧
      backend.declaration (backend.settle settings) (t.bound settings) u.plan p d = .ok decl)
      u.plan ds := by
  refine forall₂_of_mapM (fun p hp => ?_) hds
  obtain ⟨d, hd, _⟩ := exists_get? h hp
  exact ⟨d, hd⟩

/-- The declaration at a place of a unit is that of the definition planned there. -/
theorem getElem?_declarations {i : Nat} {p : Planned} (hp : u.plan[i]? = some p) :
    ∃ d decl, (t.bound settings).get? p.name = some d ∧ u.declarations[i]? = some decl ∧
      backend.declaration (backend.settle settings) (t.bound settings) u.plan p d = .ok decl := by
  obtain ⟨_, ds, hds, hu, _⟩ := exists_declare h
  have hall := forall₂_declare h hds
  obtain ⟨hi, rfl⟩ := List.getElem?_eq_some_iff.mp hp
  have hi' : i < ds.length := hall.length_eq ▸ hi
  obtain ⟨d, hd, hdecl⟩ := hall.get hi hi'
  refine ⟨d, ds[i], hd, ?_, hdecl⟩
  rw [hu, List.getElem?_append_left hi', List.getElem?_eq_getElem hi']

/-- The top-level type is declared after all definitions. -/
theorem getElem?_root : u.declarations[u.plan.length]? =
    some (backend.schemaType (backend.settle settings) (t.bound settings)) := by
  obtain ⟨_, ds, hds, hu, _⟩ := exists_declare h
  rw [hu, (forall₂_declare h hds).length_eq, List.getElem?_concat_length]

theorem length_declarations : u.declarations.length = u.plan.length + 1 := by
  obtain ⟨_, ds, hds, hu, _⟩ := exists_declare h
  rw [hu, List.length_append, (forall₂_declare h hds).length_eq, List.length_singleton]

end ofTable

end GeneratedUnit

end SchemaModels
