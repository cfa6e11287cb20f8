import SchemaModels.Proofs.Repair.Finders
import SchemaModels.Proofs.Text.Lines

/-!
# Texts that need no repair

A text is settled for some groups when no directive and no wrapper of a group is found in it, and
the imported wrapper name, if there is one, is in use. A repair reports no change exactly for those
texts, and then returns them as they are.

* `Settled`: nothing is left to repair.
* `repair_of_settled`: the repair of a settled text is the text.
* `unchanged_iff_settled`: a report without changes says that the text was settled.
* `settled_of_keywords`: a text without the keywords of directives and wrappers is settled.
-/

namespace SchemaModels.Repair

open Text Pattern

/-- Some import statement of a text lists the wrapper's name. -/
def importsWrapper (s : List Char) : Bool :=
  (cutImports s).any fun p => p.found?.any ImportStatement.lists

/-- Nothing is left to repair. -/
structure Settled (groups : List Group) (s : List Char) : Prop where
  directives : Absent findDirective true s
  wrappers : ∀ g ∈ groups, Absent g.findWrapper true s
  imports : importsWrapper s = true → hasWord wrapperName (outside (cutImports s)) = true

/-! ### Single steps -/

theorem removeDirectives_of_absent {s : List Char} (h : Absent findDirective true s) :
    removeDirectives s = (s, 0) := by
  refine Prod.ext (replaceSpans_of_absent h) ?_
  show ((cut findDirective s).filterMap Piece.found?).length = 0
  rw [List.filterMap_eq_nil_iff.mpr (found?_eq_none_iff.mpr h), List.length_nil]

theorem absent_of_removeDirectives {s : List Char} (h : (removeDirectives s).2 = 0) :
    Absent findDirective true s :=
  found?_eq_none_iff.mp (List.filterMap_eq_nil_iff.mp (List.length_eq_zero_iff.mp h))

namespace Group
variable (g : Group)

theorem unwrap_of_absent {s : List Char} (h : Absent g.findWrapper true s) :
    g.unwrap s = (s, false) := by
  refine Prod.ext (replaceSpans_of_absent h) (List.any_eq_false.mpr fun p hp => ?_)
  rw [found?_eq_none_iff.mpr h p hp]
  exact Bool.false_ne_true

theorem absent_of_unwrap {s : List Char} (h : (g.unwrap s).2 = false) :
    Absent g.findWrapper true s :=
  found?_eq_none_iff.mp fun p hp =>
    Option.not_isSome_iff_eq_none.mp (List.any_eq_false.mp h p hp)

end Group

theorem dropUnused_eq (s : List Char) :
    dropUnused s =
      if hasWord wrapperName (outside (cutImports s)) then (s, false)
      else if importsWrapper s then (removeEmptyImports (withoutName (cutImports s)), true)
      else (s, false) :=
  rfl

theorem dropUnused_of_inUse {s : List Char}
    (h : importsWrapper s = true → hasWord wrapperName (outside (cutImports s)) = true) :
    dropUnused s = (s, false) := by
  rw [dropUnused_eq]
  split
  · rfl
  · rename_i hw
    rw [if_neg fun hi => hw (h hi)]

theorem inUse_of_dropUnused {s : List Char} (h : (dropUnused s).2 = false)
    (hi : importsWrapper s = true) : hasWord wrapperName (outside (cutImports s)) = true := by
  by_contra hw
  rw [dropUnused_eq, if_neg hw, if_pos hi] at h
  cases h

/-! ### Groups -/

theorem exists_unwrapAll : ∀ {groups : List Group} (s : List Char),
    (∀ g ∈ groups, g.members.isEmpty = false) →
      ∃ out unwrapped missing, unwrapAll groups s = .ok (out, unwrapped, missing)
  | [], s, _ => ⟨s, [], [], rfl⟩
  | g :: groups, s, h => by
      obtain ⟨hg, hrest⟩ := List.forall_mem_cons.mp h
      obtain ⟨out, unwrapped, missing, hall⟩ := exists_unwrapAll (g.unwrap s).1 hrest
      rw [unwrapAll, hg, if_neg Bool.false_ne_true]
      simp only [hall]
      cases (g.unwrap s).2
      · exact ⟨_, _, _, rfl⟩
      · exact ⟨_, _, _, rfl⟩

/-- The first group is unwrapped before the others. -/
theorem unwrapAll_cons_eq_ok {g : Group} {groups : List Group} {s out : List Char}
    {unwrapped missing : List String}
    (h : unwrapAll (g :: groups) s = .ok (out, unwrapped, missing)) :
    ∃ un mi, unwrapAll groups (g.unwrap s).1 = .ok (out, un, mi) ∧
      unwrapped = if (g.unwrap s).2 then g.name :: un else un := by
  rw [unwrapAll] at h
  split at h
  · cases h
  · cases hall : unwrapAll groups (g.unwrap s).1 with
    | error e =>
        simp only [hall] at h
        cases h
    | ok r =>
        simp only [hall] at h
        obtain ⟨out', un, mi⟩ := r
        refine ⟨un, mi, ?_⟩
        cases hu : (g.unwrap s).2 <;> rw [hu] at h <;> cases h <;> exact ⟨rfl, rfl⟩

theorem unwrapAll_of_absent : ∀ {groups : List Group} {s : List Char},
    (∀ g ∈ groups, g.members.isEmpty = false) → (∀ g ∈ groups, Absent g.findWrapper true s) →
      unwrapAll groups s = .ok (s, [], groups.map Group.name)
  | [], _, _, _ => rfl
  | g :: groups, s, h, ha => by
      obtain ⟨hg, hrest⟩ := List.forall_mem_cons.mp h
      obtain ⟨hag, harest⟩ := List.forall_mem_cons.mp ha
      rw [unwrapAll, hg, if_neg Bool.false_ne_true, g.unwrap_of_absent hag]
      simp only [unwrapAll_of_absent hrest harest]
      rfl

theorem absent_of_unwrapAll : ∀ {groups : List Group} {s out : List Char} {missing : List String},
    unwrapAll groups s = .ok (out, [], missing) →
      out = s ∧ ∀ g ∈ groups, Absent g.findWrapper true s
  | [], _, _, _, h => by
      cases h
      exact ⟨rfl, List.forall_mem_nil _⟩
  | g :: groups, s, _, _, h => by
      obtain ⟨un, mi, hall, hun⟩ := unwrapAll_cons_eq_ok h
      cases hu : (g.unwrap s).2 with
      | true =>
          rw [hu] at hun
          cases hun
      | false =>
          rw [hu] at hun
          obtain rfl : [] = un := hun
          have ha := g.absent_of_unwrap hu
          rw [g.unwrap_of_absent ha] at hall
          obtain ⟨rfl, hrest⟩ := absent_of_unwrapAll hall
          exact ⟨rfl, List.forall_mem_cons.mpr ⟨ha, hrest⟩⟩

/-! ### Repairs -/

/-- The three steps of a repair. -/
theorem repair_eq_ok_iff {groups : List Group} {s out : List Char} {r : Report} :
    repair groups s = .ok (out, r) ↔
      ∃ t unwrapped missing, unwrapAll groups (removeDirectives s).1 = .ok (t, unwrapped, missing) ∧
        out = (dropUnused t).1 ∧
        r = ⟨(removeDirectives s).2, unwrapped, missing, (dropUnused t).2⟩ := by
  unfold repair
  cases hall : unwrapAll groups (removeDirectives s).1 with
  | error e =>
      refine iff_of_false (fun h => ?_) fun ⟨_, _, _, h, _⟩ => ?_
      · simp only [hall] at h
        cases h
      · cases h
  | ok x =>
      obtain ⟨t, un, mi⟩ := x
      refine ⟨fun h => ⟨t, un, mi, rfl, ?_⟩, ?_⟩
      · simp only [hall] at h
        cases h
        exact ⟨rfl, rfl⟩
      · rintro ⟨_, _, _, h, rfl, rfl⟩
        cases h
        simp only [hall]
        rfl

/-- A repair fails for groups without members only. -/
theorem exists_repair {groups : List Group} (h : ∀ g ∈ groups, g.members.isEmpty = false)
    (s : List Char) : ∃ out r, repair groups s = .ok (out, r) := by
  obtain ⟨t, un, mi, hall⟩ := exists_unwrapAll (removeDirectives s).1 h
  exact ⟨_, _, repair_eq_ok_iff.mpr ⟨t, un, mi, hall, rfl, rfl⟩⟩

/-- A settled text is returned as it is, and no group is found. -/
theorem repair_of_settled {groups : List Group} (h : ∀ g ∈ groups, g.members.isEmpty = false)
    {s : List Char} (hs : Settled groups s) :
    repair groups s = .ok (s, ⟨0, [], groups.map Group.name, false⟩) := by
  have hd := removeDirectives_of_absent hs.directives
  have hi := dropUnused_of_inUse hs.imports
  refine repair_eq_ok_iff.mpr ⟨s, [], groups.map Group.name, ?_, ?_, ?_⟩
  · rw [hd]
    exact unwrapAll_of_absent h hs.wrappers
  · rw [hi]
  · rw [hd, hi]

theorem unchanged_iff {r : Report} :
    r.unchanged = true ↔
      r.directivesRemoved = 0 ∧ r.groupsUnwrapped = [] ∧ r.importDropped = false := by
  simp [Report.unchanged, and_assoc]

theorem settled_of_unchanged {groups : List Group} {s out : List Char} {r : Report}
    (h : repair groups s = .ok (out, r)) (hr : r.unchanged = true) : Settled groups s := by
  obtain ⟨t, un, mi, hall, _, rfl⟩ := repair_eq_ok_iff.mp h
  obtain ⟨hd, hun, hi⟩ := unchanged_iff.mp hr
  have hdirectives := absent_of_removeDirectives hd
  rw [removeDirectives_of_absent hdirectives] at hall
  obtain rfl : un = [] := hun
  obtain ⟨rfl, hwrappers⟩ := absent_of_unwrapAll hall
  exact ⟨hdirectives, hwrappers, inUse_of_dropUnused hi⟩

/-- A repair reports no change exactly for settled texts. -/
theorem unchanged_iff_settled {groups : List Group} {s out : List Char} {r : Report}
    (h : repair groups s = .ok (out, r)) (hg : ∀ g ∈ groups, g.members.isEmpty = false) :
    r.unchanged = true ↔ Settled groups s := by
  refine ⟨settled_of_unchanged h, fun hs => ?_⟩
  rw [repair_of_settled hg hs] at h
  cases h
  rfl

/-! ### Keywords -/

namespace ImportStatement
variable {i : ImportStatement}

theorem mem_listed_of_lists (h : i.lists = true) : wrapperName ∈ i.listed := by
  by_contra hn
  refine absurd ?_ (bne_iff_ne.mp h)
  rw [kept, List.filter_eq_self.mpr fun n hm => bne_iff_ne.mpr (ne_of_mem_of_not_mem hm hn)]

/-- The names of an import statement are parts of it. -/
theorem isInfix_of_mem_listed {n : List Char} (h : n ∈ i.listed) : n <:+: i.names := by
  obtain ⟨p, hp, rfl⟩ := List.mem_map.mp (List.mem_filter.mp h).1
  exact (trim_isInfix isBlank p).trans (isInfix_of_mem_pieces hp)

end ImportStatement

/-- Where an import statement lists the wrapper's name that name stands in the text. -/
theorem isInfix_of_importsWrapper {s : List Char} (h : importsWrapper s = true) :
    wrapperName <:+: s := by
  obtain ⟨p, hp, hlists⟩ := List.any_eq_true.mp h
  cases p with
  | char c => cases hlists
  | span text i =>
      obtain ⟨ls, rest, hf⟩ := exists_of_mem_cut
        (fun ls t a rest hf => (exists_of_findImport hf).elim fun x hx => ⟨_, hx.symm⟩) hp
      obtain ⟨x, hx⟩ := exists_of_findImport hf
      obtain rfl := List.append_cancel_right hx
      have hnames := ImportStatement.isInfix_of_mem_listed
        (ImportStatement.mem_listed_of_lists (i := i) hlists)
      exact (hnames.trans ⟨_, x, rfl⟩).trans (isInfix_of_mem_cut hp)

theorem absent_of_keyword {α : Type} {find : Finder α} {w s : List Char}
    (h : ∀ lineStart t r, find lineStart t = some r → w <:+: t) (hw : ¬w <:+: s) :
    Absent find true s :=
  absent_of_suffix (fun lineStart c t ht => Option.eq_none_iff_forall_ne_some.mpr fun r hr =>
    hw ((h lineStart (c :: t) r hr).trans ht.isInfix)) true

theorem Group.absent_of_name (g : Group) {s : List Char} (hw : ¬wrapperName <:+: s) :
    Absent g.findWrapper true s :=
  absent_of_keyword (fun _ _ _ hr =>
    (by decide : wrapperName <:+: "RootModel[".toList).trans (g.isInfix_of_findWrapper hr)) hw

/-- A text without the keywords of directives and wrappers is settled. -/
theorem settled_of_keywords {s : List Char} (hw : ¬wrapperName <:+: s)
    (hc : ¬"ConfigDict".toList <:+: s) (groups : List Group) : Settled groups s where
  directives := absent_of_keyword (fun _ _ _ hr =>
    (by decide : "ConfigDict".toList <:+: "ConfigDict(".toList).trans
      (isInfix_of_findDirective hr)) hc
  wrappers g _ := g.absent_of_name hw
  imports h := absurd (isInfix_of_importsWrapper h) hw

/-- Where the wrapper's name is not left, a repair is the removal of directives. -/
theorem repair_of_no_name {groups : List Group} (h : ∀ g ∈ groups, g.members.isEmpty = false)
    {s t : List Char} {n : Nat} (hd : removeDirectives s = (t, n)) (hw : ¬wrapperName <:+: t) :
    repair groups s = .ok (t, ⟨n, [], groups.map Group.name, false⟩) := by
  have hi := dropUnused_of_inUse fun hi => absurd (isInfix_of_importsWrapper hi) hw
  refine repair_eq_ok_iff.mpr ⟨t, [], groups.map Group.name, ?_, ?_, ?_⟩
  · rw [hd]
    exact unwrapAll_of_absent h fun g _ => g.absent_of_name hw
  · rw [hi]
  · rw [hd, hi]

end SchemaModels.Repair
