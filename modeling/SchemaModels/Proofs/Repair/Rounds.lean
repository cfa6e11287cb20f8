import Mathlib.Algebra.Order.BigOperators.Group.List
import Mathlib.Algebra.Order.Group.Nat
import Mathlib.Logic.Function.Iterate
import SchemaModels.Proofs.Repair.Settled

/-!
# Repairs until nothing is left

A removal joins what stood on its two sides, and the joined text can be a directive, a wrapper or
a statement that imports the wrapper: one repair need not leave a settled text. But each change
takes marks out of the text, opening brackets and capital letters R, so repairs in a row come to an
end.

* `weight`: the marks in a text. What a repair writes has fewer than what it replaces
  (`weight_repair`).
* `repair_again_and_rounds`: what a second repair does, and how many make a text settled.
-/

namespace SchemaModels.Repair

open Text

/-- The characters of which each directive, wrapper and import of the wrapper has more than what
takes its place. -/
def isMark (c : Char) : Bool := c = '(' || c = 'R'

/-- The number of marks in a text. -/
def weight (s : List Char) : Nat := s.countP isMark

theorem weight_append (s t : List Char) : weight (s ++ t) = weight s + weight t :=
  List.countP_append

theorem weight_le_of_sublist {s t : List Char} (h : s.Sublist t) : weight s ≤ weight t :=
  h.countP_le

theorem weight_flatMap {α : Type} (f : α → List Char) (l : List α) :
    weight (l.flatMap f) = (l.map fun a => weight (f a)).sum :=
  List.countP_flatMap

/-- The line of a name in a list, as aliases and import statements have it. -/
theorem weight_listLine (n : List Char) :
    weight ("    ".toList ++ n ++ ",\n".toList) = weight n := by
  rw [weight_append, weight_append, show weight "    ".toList = 0 by decide,
    show weight ",\n".toList = 0 by decide, Nat.zero_add, Nat.add_zero]

/-! ### Directives -/

theorem weight_replacement (d : Directive) (h : ∀ c ∈ d.indent, isInlineBlank c = true) :
    weight d.replacement = 0 := by
  have hindent : weight d.indent = 0 := by
    refine List.countP_eq_zero.mpr fun c hc => ?_
    have := h c hc
    simp only [isInlineBlank, Bool.or_eq_true, decide_eq_true_eq] at this
    rcases this with rfl | rfl <;> decide
  unfold Directive.replacement
  split
  · rfl
  · rw [weight_append, hindent]
    decide

theorem weight_removeDirectives (s : List Char) :
    weight (removeDirectives s).1 + (removeDirectives s).2 ≤ weight s := by
  have hfind : ∀ ls t (d : Directive) rest, findDirective ls t = some (d, rest) →
      ∃ x, t = x ++ rest ∧ weight d.replacement + 1 ≤ weight x := by
    intro ls t d rest hf
    obtain ⟨x, hx, hle, hindent⟩ := exists_of_findDirective isMark hf
    refine ⟨d.indent ++ x, hx, ?_⟩
    rw [weight_replacement d hindent, weight_append]
    exact Nat.le_trans hle (Nat.le_add_left _ _)
  have h := countP_replaceSpans_le isMark (fun _ (d : Directive) => d.replacement) (fun _ => 1)
    hfind s
  rwa [List.map_const', List.sum_replicate_nat, Nat.mul_one] at h

/-! ### Groups -/

namespace Group
variable (g : Group)

theorem weight_aliasText :
    weight g.aliasText = weight g.name.toList + (g.members.map fun m => weight m.toList).sum := by
  rw [aliasText, weight_append, weight_append, weight_append, weight_flatMap,
    show weight " = Union[\n".toList = 0 by decide, show weight [']'] = 0 by decide,
    Nat.add_zero, Nat.add_zero]
  simp only [weight_listLine]

theorem weight_unwrap (s : List Char) :
    weight (g.unwrap s).1 + (if (g.unwrap s).2 then 1 else 0) ≤ weight s := by
  have hfind : ∀ ls t u rest, g.findWrapper ls t = some (u, rest) →
      ∃ x, t = x ++ rest ∧ weight g.aliasText + 1 ≤ weight x := by
    intro ls t u rest hf
    obtain ⟨x, hx, hle⟩ := g.exists_of_findWrapper isMark hf
    have hword : "RootModel[".toList.countP isMark = 1 := by decide
    refine ⟨x, hx, ?_⟩
    rw [weight_aliasText]
    unfold weight
    omega
  have h := countP_replaceSpans_le isMark (fun _ _ => g.aliasText) (fun _ => 1) hfind s
  rw [List.map_const', List.sum_replicate_nat, Nat.mul_one] at h
  refine Nat.le_trans (Nat.add_le_add_left ?_ _) h
  split
  · rename_i hany
    obtain ⟨p, hp, hfound⟩ := List.any_eq_true.mp hany
    obtain ⟨u, hu⟩ := Option.isSome_iff_exists.mp hfound
    exact List.length_pos_of_mem (List.mem_filterMap.mpr ⟨p, hp, hu⟩)
  · exact Nat.zero_le _

end Group

theorem weight_unwrapAll : ∀ {groups : List Group} {s out : List Char}
    {unwrapped missing : List String}, unwrapAll groups s = .ok (out, unwrapped, missing) →
      weight out + unwrapped.length ≤ weight s
  | [], _, _, _, _, h => by
      cases h
      exact Nat.le_refl _
  | g :: groups, s, _, _, _, h => by
      obtain ⟨un, mi, hall, rfl⟩ := unwrapAll_cons_eq_ok h
      have hrest := weight_unwrapAll hall
      have hg := g.weight_unwrap s
      cases hu : (g.unwrap s).2 with
      | true =>
          rw [hu, if_pos rfl] at hg
          rw [if_pos rfl, List.length_cons]
          omega
      | false =>
          rw [if_neg Bool.false_ne_true]
          omega

/-! ### Imports -/

theorem sum_weight_piecesFrom (separator : Char) :
    ∀ piece s : List Char, ((piecesFrom separator piece s).map weight).sum ≤ weight piece + weight s
  | piece, [] => by
      rw [piecesFrom, List.map_singleton, List.sum_singleton, weight, List.countP_reverse]
      exact Nat.le_add_right _ _
  | piece, c :: s => by
      have hs : weight (c :: s) = weight [c] + weight s := weight_append [c] s
      rw [piecesFrom]
      split
      · have ih := sum_weight_piecesFrom separator [] s
        have hrev : weight piece.reverse = weight piece := List.countP_reverse
        rw [List.map_cons, List.sum_cons, hrev]
        have : weight [] = 0 := rfl
        omega
      · have ih := sum_weight_piecesFrom separator (c :: piece) s
        have hp : weight (c :: piece) = weight [c] + weight piece := weight_append [c] piece
        omega

theorem sum_map_le_of_sublist {α : Type} {k l : List α} (f : α → Nat) (h : k.Sublist l) :
    (k.map f).sum ≤ (l.map f).sum :=
  (h.map f).sum_le_sum fun _ _ => Nat.zero_le _

namespace ImportStatement
variable (i : ImportStatement)

theorem weight_listed_le : (i.listed.map weight).sum ≤ weight i.names := by
  refine Nat.le_trans (sum_map_le_of_sublist weight List.filter_sublist) ?_
  have hpieces : ((pieces ',' i.names).map weight).sum ≤ weight [] + weight i.names :=
    sum_weight_piecesFrom ',' [] i.names
  rw [List.map_map]
  refine Nat.le_trans (List.sum_le_sum fun p _ => ?_) (Nat.le_trans hpieces (Nat.zero_add _).le)
  exact weight_le_of_sublist (trim_isInfix isBlank p).sublist

/-- The wrapper's name is a mark that goes. -/
theorem weight_kept_lt (h : i.lists = true) :
    (i.kept.map weight).sum + 1 ≤ (i.listed.map weight).sum := by
  obtain ⟨before, after, hl⟩ := List.append_of_mem (mem_listed_of_lists h)
  have hbefore := sum_map_le_of_sublist weight
    (List.filter_sublist (p := (· != wrapperName)) (l := before))
  have hafter := sum_map_le_of_sublist weight
    (List.filter_sublist (p := (· != wrapperName)) (l := after))
  have hname : weight wrapperName = 1 := by decide
  rw [kept, hl, List.filter_append, List.filter_cons_of_neg (by simp)]
  simp only [List.map_append, List.map_cons, List.sum_append, List.sum_cons]
  omega

theorem weight_intercalate {separator : List Char} (h : weight separator = 0) :
    ∀ texts : List (List Char),
      weight (List.intercalate separator texts) = (texts.map weight).sum
  | [] => rfl
  | [t] => by simp
  | t :: u :: texts => by
      rw [List.intercalate_cons_cons, weight_append, weight_append, h,
        weight_intercalate h (u :: texts), Nat.add_zero, List.map_cons (l := u :: texts),
        List.sum_cons]

theorem weight_keptText :
    weight i.keptText = (if i.bracketed then 1 else 0) + (i.kept.map weight).sum := by
  have hhead : weight importHead = 0 := by decide
  unfold keptText
  split
  · rw [weight_append, weight_append, weight_append, weight_flatMap, hhead,
      show weight "(\n".toList = 1 by decide, show weight [')'] = 0 by decide, Nat.zero_add,
      Nat.add_zero]
    simp only [weight_listLine]
  · rw [weight_append, hhead, weight_intercalate (by decide)]

end ImportStatement

theorem weight_findImport (lineStart : Bool) (t : List Char) (i : ImportStatement)
    (rest : List Char) (h : findImport lineStart t = some (i, rest)) :
    ∃ x, t = x ++ rest ∧
      weight (if i.lists then i.keptText else x) + (if i.lists then 1 else 0) ≤ weight x := by
  obtain ⟨x, hx⟩ := exists_of_findImport h
  refine ⟨_, hx, ?_⟩
  have hhead : weight importHead = 0 := by decide
  have hbracket : weight (if i.bracketed then ['('] else []) = if i.bracketed then 1 else 0 := by
    split <;> rfl
  have hlisted := i.weight_listed_le
  have hkept := i.weight_keptText
  split
  · rename_i hl
    have hlt := i.weight_kept_lt hl
    simp only [weight_append, hbracket]
    omega
  · exact Nat.le_refl _

theorem weight_withoutName (s : List Char) :
    weight (withoutName (cutImports s)) + (if importsWrapper s then 1 else 0) ≤ weight s := by
  have h := countP_replaceSpans_le isMark
    (fun text (i : ImportStatement) => if i.lists then i.keptText else text)
    (fun i => if i.lists then 1 else 0) weight_findImport s
  refine Nat.le_trans (Nat.add_le_add_left ?_ _) h
  split
  · rename_i hi
    obtain ⟨p, hp, hlists⟩ := List.any_eq_true.mp hi
    cases p with
    | char c => cases hlists
    | span text i =>
        have hmem : i ∈ (cut findImport s).filterMap Piece.found? :=
          List.mem_filterMap.mpr ⟨_, hp, rfl⟩
        refine Nat.le_trans ?_ (List.single_le_sum (fun _ _ => Nat.zero_le _) _
          (List.mem_map_of_mem hmem))
        rw [if_pos (show i.lists = true from hlists)]
  · exact Nat.zero_le _

theorem replaceWithin_nil_sublist (pattern : List Char) :
    ∀ (steps : Nat) (s : List Char), (replaceWithin pattern [] steps s).Sublist s
  | 0, _ => List.Sublist.refl _
  | _ + 1, [] => List.Sublist.refl _
  | steps + 1, c :: s => by
      rw [replaceWithin]
      split
      · rename_i rest h
        rw [dropPrefix?_eq_some_iff.mp h, List.nil_append]
        exact (replaceWithin_nil_sublist pattern steps rest).trans (List.sublist_append_right _ _)
      · exact (replaceWithin_nil_sublist pattern steps s).cons_cons c

theorem removeEmptyImports_sublist (s : List Char) : (removeEmptyImports s).Sublist s :=
  (replaceWithin_nil_sublist _ _ _).trans (replaceWithin_nil_sublist _ _ _)

theorem weight_dropUnused (s : List Char) :
    weight (dropUnused s).1 + (if (dropUnused s).2 then 1 else 0) ≤ weight s := by
  rw [dropUnused_eq]
  split
  · exact Nat.le_refl _
  · split
    · rename_i hi
      have h := weight_withoutName s
      rw [if_pos hi] at h
      exact Nat.le_trans (Nat.add_le_add_right
        (weight_le_of_sublist (removeEmptyImports_sublist (withoutName (cutImports s)))) 1) h
    · exact Nat.le_refl _

/-! ### Repairs -/

/-- The number of changes in a report. -/
def Report.changes (r : Report) : Nat :=
  r.directivesRemoved + r.groupsUnwrapped.length + if r.importDropped then 1 else 0

theorem Report.unchanged_of_changes {r : Report} (h : r.changes = 0) : r.unchanged = true := by
  unfold changes at h
  refine unchanged_iff.mpr ⟨by omega, List.length_eq_zero_iff.mp (by omega), ?_⟩
  by_contra hi
  rw [if_pos (Bool.not_eq_false _ ▸ hi)] at h
  omega

/-- Each change that a repair reports took a mark out of the text. -/
theorem weight_repair {groups : List Group} {s out : List Char} {r : Report}
    (h : repair groups s = .ok (out, r)) : weight out + r.changes ≤ weight s := by
  obtain ⟨t, un, mi, hall, rfl, rfl⟩ := repair_eq_ok_iff.mp h
  have hd := weight_removeDirectives s
  have hu := weight_unwrapAll hall
  have hi := weight_dropUnused t
  simp only [Report.changes]
  omega

/-- The text after a repair. -/
def repaired (groups : List Group) (s : List Char) : List Char :=
  match repair groups s with
  | .ok (out, _) => out
  | .error _ => s

theorem repaired_of_repair {groups : List Group} {s out : List Char} {r : Report}
    (h : repair groups s = .ok (out, r)) : repaired groups s = out := by
  rw [repaired, h]

/-- Repairs in a row make a text settled, after at most as many as it has marks. -/
theorem exists_settled_iterate {groups : List Group}
    (hg : ∀ g ∈ groups, g.members.isEmpty = false) (s : List Char) :
    ∃ n ≤ weight s, Settled groups ((repaired groups)^[n] s) := by
  induction hn : weight s using Nat.strong_induction_on generalizing s with
  | _ w ih =>
      subst hn
      obtain ⟨out, r, hr⟩ := exists_repair hg s
      have hle := weight_repair hr
      by_cases hc : r.changes = 0
      · exact ⟨0, Nat.zero_le _, settled_of_unchanged hr (Report.unchanged_of_changes hc)⟩
      · obtain ⟨n, hn, hs⟩ := ih (weight out) (by omega) out rfl
        refine ⟨n + 1, by omega, ?_⟩
        rwa [Function.iterate_succ_apply, repaired_of_repair hr]

/-- A second repair returns the text of the first one without a change exactly when that text is
settled, and repairs in a row end there: after some number of them, at most the marks of the text,
the next one changes nothing. -/
theorem repair_again_and_rounds {groups : List Group}
    (hg : ∀ g ∈ groups, g.members.isEmpty = false) (s : List Char) :
    ∃ out r, repair groups s = .ok (out, r) ∧
      ((∃ r', repair groups out = .ok (out, r') ∧ r'.unchanged = true) ↔ Settled groups out) ∧
      ∃ n ≤ weight s, repair groups ((repaired groups)^[n] s) =
        .ok ((repaired groups)^[n] s, ⟨0, [], groups.map Group.name, false⟩) := by
  obtain ⟨out, r, hr⟩ := exists_repair hg s
  obtain ⟨n, hn, hs⟩ := exists_settled_iterate hg s
  refine ⟨out, r, hr, ⟨?_, fun h => ?_⟩, n, hn, repair_of_settled hg hs⟩
  · rintro ⟨r', hr', hu⟩
    exact (unchanged_iff_settled hr' hg).mp hu
  · exact ⟨_, repair_of_settled hg h, rfl⟩

/-- A group of one member. -/
def navigation : Group := { name := "EventAction", members := ["NavigateAction"] }

/-- A class with a directive inside the brackets of another one. -/
def nestedDirectives : List Char :=
  ["class A(BaseModel):\n", "    model_config = ConfigDict(\n",
    "        model_config = ConfigDict(", "extra='forbid')\n", "        extra='forbid')\n",
    "    x: int\n"].flatMap String.toList

theorem repair_again_and_rounds_nested :
    (∀ g ∈ [navigation], g.members.isEmpty = false) ∧
      ∃ out r, repair [navigation] nestedDirectives = .ok (out, r) ∧
        ((∃ r', repair [navigation] out = .ok (out, r') ∧ r'.unchanged = true) ↔
          Settled [navigation] out) ∧
        ∃ n ≤ weight nestedDirectives,
          repair [navigation] ((repaired [navigation])^[n] nestedDirectives) =
            .ok ((repaired [navigation])^[n] nestedDirectives, ⟨0, [], ["EventAction"], false⟩) :=
  ⟨by decide, repair_again_and_rounds (by decide) nestedDirectives⟩

/-- When the inner directive goes, the outer one becomes a directive: the second repair is not the
identity. -/
theorem repair_nestedDirectives :
    ∃ once twice,
      repair [navigation] nestedDirectives = .ok (once, ⟨1, [], ["EventAction"], false⟩) ∧
      repair [navigation] once = .ok (twice, ⟨1, [], ["EventAction"], false⟩) ∧ twice ≠ once :=
  ⟨["class A(BaseModel):\n", "    model_config = ConfigDict(\n", "        extra='forbid')\n",
      "    x: int\n"].flatMap String.toList,
    ["class A(BaseModel):\n", "    x: int\n"].flatMap String.toList,
    repair_of_no_name (by decide) (by decide +kernel) (by decide +kernel),
    repair_of_no_name (by decide) (by decide +kernel) (by decide +kernel), by decide +kernel⟩

end SchemaModels.Repair
