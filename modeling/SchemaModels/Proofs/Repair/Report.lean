import SchemaModels.Proofs.Repair.Layouts
import SchemaModels.Proofs.Repair.Rounds

/-!
# What a repair reports

A report without changes is given exactly where the text is returned as it was, and it lists every
group once: as unwrapped when a wrapper of it stands in the text that the steps before leave, and as
missing otherwise.

* `Marks`: of each group, whether it has a wrapper in the text that those before it leave.
* `unwrapAll_eq_ok`: the groups that are listed as unwrapped and as missing.
* `repairText_report`: what a report says is so.
-/

namespace SchemaModels.Repair

open Text

/-- Each group of a list has its own mark, which says whether a wrapper of it stands in the text
that the groups before it leave. -/
def Marks : List Group → List Char → List Bool → Prop
  | [], _, [] => True
  | g :: groups, s, found :: marks =>
      (found = true ↔ g.HasWrapper s) ∧ Marks groups (g.unwrap s).1 marks
  | _, _, _ => False

/-- The names of the groups that have a given mark, in the order of the groups. -/
def namesMarked (groups : List Group) (marks : List Bool) (mark : Bool) : List String :=
  ((groups.zip marks).filter fun m => m.2 == mark).map fun m => m.1.name

theorem Group.unwrap_iff_hasWrapper (g : Group) {s : List Char} :
    (g.unwrap s).2 = true ↔ g.HasWrapper s := by
  refine ⟨fun h => ?_, fun h => ?_⟩
  · by_contra hno
    rw [g.unwrap_of_absent (g.absent_findWrapper_iff.mpr hno)] at h
    cases h
  · by_contra hno
    exact g.absent_findWrapper_iff.mp (g.absent_of_unwrap (Bool.not_eq_true _ ▸ hno)) h

/-- Every group is listed as its mark says. -/
theorem unwrapAll_eq_ok : ∀ {groups : List Group} (s : List Char),
    (∀ g ∈ groups, g.members.isEmpty = false) →
      ∃ out marks, Marks groups s marks ∧ marks.length = groups.length ∧
        unwrapAll groups s =
          .ok (out, namesMarked groups marks true, namesMarked groups marks false)
  | [], s, _ => ⟨s, [], trivial, rfl, rfl⟩
  | g :: groups, s, h => by
      obtain ⟨hg, hrest⟩ := List.forall_mem_cons.mp h
      obtain ⟨out, marks, hmarks, hlen, hall⟩ := unwrapAll_eq_ok (g.unwrap s).1 hrest
      refine ⟨out, (g.unwrap s).2 :: marks, ⟨g.unwrap_iff_hasWrapper, hmarks⟩,
        congrArg (· + 1) hlen, ?_⟩
      rw [unwrapAll, hg, if_neg Bool.false_ne_true]
      simp only [hall]
      cases (g.unwrap s).2 <;> rfl

/-- A repair that returns the text as it was reports no change, and the other way round: each change
takes a mark out of the text. -/
theorem unchanged_iff_eq {groups : List Group} {s out : List Char} {r : Report}
    (h : repair groups s = .ok (out, r)) (hg : ∀ g ∈ groups, g.members.isEmpty = false) :
    r.unchanged = true ↔ out = s := by
  refine ⟨fun hr => ?_, ?_⟩
  · rw [repair_of_settled hg (settled_of_unchanged h hr)] at h
    cases h
    rfl
  · rintro rfl
    have := weight_repair h
    exact Report.unchanged_of_changes (by omega)

/-- A repair succeeds for groups with members, and its report is truthful: it says unchanged exactly
when the text is returned as it was; each group is listed once, in order, as unwrapped when a
wrapper of it stands in the text that the steps before it leave and as missing otherwise; and a text
without directives, wrappers of the groups and imports of the wrapper's name is reported as
unchanged. -/
theorem repairText_report {groups : List Group} (hg : ∀ g ∈ groups, g.members ≠ []) (s : String) :
    ∃ out r, repairText groups s = .ok (out, r) ∧ (r.unchanged = true ↔ out = s) ∧
      (∃ marks, Marks groups (removeDirectives s.toList).1 marks ∧ marks.length = groups.length ∧
        r.groupsUnwrapped = namesMarked groups marks true ∧
        r.groupsMissing = namesMarked groups marks false) ∧
      (¬HasDirective s.toList → (∀ g ∈ groups, ¬g.HasWrapper s.toList) →
        importsWrapper s.toList = false → r.unchanged = true) := by
  have hmembers : ∀ g ∈ groups, g.members.isEmpty = false := fun g h =>
    List.isEmpty_eq_false_iff.mpr (hg g h)
  obtain ⟨t, marks, hmarks, hlen, hall⟩ := unwrapAll_eq_ok (removeDirectives s.toList).1 hmembers
  have hrepair := repair_eq_ok_iff.mpr ⟨t, _, _, hall, rfl, rfl⟩
  refine ⟨String.ofList (dropUnused t).1,
    ⟨(removeDirectives s.toList).2, namesMarked groups marks true, namesMarked groups marks false,
      (dropUnused t).2⟩, ?_, ?_, ⟨marks, hmarks, hlen, rfl, rfl⟩, ?_⟩
  · rw [repairText, hrepair]
    rfl
  · rw [unchanged_iff_eq hrepair hmembers, ← String.toList_inj, String.toList_ofList]
  · intro hdirective hwrapper himport
    refine (unchanged_iff_settled hrepair hmembers).mpr
      ⟨absent_findDirective_iff.mpr hdirective, fun g h => ?_, fun h => ?_⟩
    · exact g.absent_findWrapper_iff.mpr (hwrapper g h)
    · rw [himport] at h
      cases h

/-- A text that imports the wrapper's name only. -/
def loneImport : String := "from pydantic import RootModel\n"

theorem repairText_report_loneImport :
    (∀ g ∈ [navigation], g.members ≠ []) ∧
      ∃ out r, repairText [navigation] loneImport = .ok (out, r) ∧
        (r.unchanged = true ↔ out = loneImport) ∧
        (∃ marks, Marks [navigation] (removeDirectives loneImport.toList).1 marks ∧
          marks.length = [navigation].length ∧
          r.groupsUnwrapped = namesMarked [navigation] marks true ∧
          r.groupsMissing = namesMarked [navigation] marks false) ∧
        (¬HasDirective loneImport.toList → (∀ g ∈ [navigation], ¬g.HasWrapper loneImport.toList) →
          importsWrapper loneImport.toList = false → r.unchanged = true) :=
  ⟨by decide, repairText_report (by decide) loneImport⟩

end SchemaModels.Repair
