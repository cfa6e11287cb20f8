import Mathlib.Data.List.TakeWhile
import SchemaModels.Proofs.Text.Cut
import SchemaModels.Proofs.Text.Pattern
import SchemaModels.Repair.Basic

/-!
# What repairs look for

What stands where a directive, the wrapper of a group or an import statement was found, with a bound
on the characters of a class in it.

* `exists_of_findDirective`, `exists_of_findWrapper`, `exists_of_findImport`: the text of what was
  found.
-/

namespace SchemaModels.Repair

open Text Pattern

variable {heavy : Char → Bool}

/-! ### Directives -/

theorem spends_directive : Spends heavy directive ("ConfigDict(".toList.countP heavy) := by
  have hword : List.Forall₂ (Spends heavy) [word "ConfigDict(".toList]
      ["ConfigDict(".toList.countP heavy] := .cons (spends_word _) .nil
  exact spends_sequence (.cons _ (.cons _ (.cons _ (.cons _ (.cons_cons _ (List.nil_sublist _))))))
    (by simp) hword

theorem suffix_of_lineEnd? {s rest : List Char} (h : lineEnd? s = some rest) : rest <:+ s := by
  have hdrop := List.dropWhile_suffix isInlineBlank (l := s)
  unfold lineEnd? at h
  split at h
  · obtain rfl := Option.some.inj h
    exact List.nil_suffix
  · rename_i c t ht
    split at h
    · obtain rfl := Option.some.inj h
      rw [ht] at hdrop
      exact (List.suffix_cons c t).trans hdrop
    · cases h

variable (heavy) in
/-- A directive is found with its indentation, and its own text after that. -/
theorem exists_of_findDirective {lineStart : Bool} {s rest : List Char} {d : Directive}
    (h : findDirective lineStart s = some (d, rest)) :
    ∃ x, s = d.indent ++ x ++ rest ∧ "ConfigDict(".toList.countP heavy ≤ x.countP heavy ∧
      ∀ c ∈ d.indent, isInlineBlank c = true := by
  unfold findDirective at h
  dsimp only at h
  split at h
  · obtain ⟨r, hr, hd⟩ := Option.map_eq_some_iff.mp h
    obtain ⟨rfl, rfl⟩ := Prod.mk.inj hd
    obtain ⟨t, ht, hend⟩ := List.exists_of_findSome?_eq_some hr
    obtain ⟨x, hx, hn⟩ : ∃ x, _ = x ++ t ∧ "ConfigDict(".toList.countP heavy ≤ x.countP heavy :=
      spends_directive _ _ ht
    obtain ⟨y, rfl⟩ := suffix_of_lineEnd? hend
    refine ⟨x ++ y, ?_, ?_, fun c hc => List.mem_takeWhile_imp hc⟩
    · rw [List.append_assoc, List.append_assoc, ← hx]
      exact List.takeWhile_append_dropWhile.symm
    · rw [List.countP_append]
      exact Nat.le_add_right_of_le hn
  · cases h

/-- Where a directive is found its keyword stands in the text. -/
theorem isInfix_of_findDirective {lineStart : Bool} {s : List Char} {r : Directive × List Char}
    (h : findDirective lineStart s = some r) : "ConfigDict(".toList <:+: s := by
  unfold findDirective at h
  dsimp only at h
  split at h
  · obtain ⟨_, hr, _⟩ := Option.map_eq_some_iff.mp h
    obtain ⟨t, ht, _⟩ := List.exists_of_findSome?_eq_some hr
    have hinfix : "ConfigDict(".toList <:+: s.dropWhile isInlineBlank :=
      isInfix_of_mem_sequence (fun _ => false) (by simp) (by simp) ht
    exact hinfix.trans (List.dropWhile_suffix _).isInfix
  · cases h

/-! ### Wrappers -/

namespace Group
variable (g : Group)

theorem reads_of_mem_memberList : ∀ {members : List String} {p : Pattern},
    p ∈ memberList members → Spends heavy p 0
  | [m], p, h => by
      rw [List.mem_singleton.mp h]
      exact reads_word _
  | m :: n :: rest, p, h => by
      simp only [memberList, List.mem_cons] at h
      rcases h with rfl | rfl | rfl | rfl | h
      · exact reads_word _
      · exact reads_blanks
      · exact reads_word _
      · exact reads_blanks
      · exact reads_of_mem_memberList h

theorem sublist_memberList : ∀ members : List String,
    (members.map fun m => word m.toList).Sublist (memberList members)
  | [] => .slnil
  | [_] => List.Sublist.refl _
  | _ :: n :: rest => .cons_cons _ (.cons _ (.cons _ (.cons _ (sublist_memberList (n :: rest)))))

/-- A union names all members. -/
theorem spends_unionOf :
    Spends heavy g.unionOf (g.members.map fun m => m.toList.countP heavy).sum := by
  refine spends_sequence
    (.cons _ (.cons _ ((sublist_memberList g.members).trans (List.sublist_append_left _ _))))
    (fun p hp => ?_) ?_
  · simp only [List.mem_append, List.mem_cons, List.not_mem_nil, or_false] at hp
    rcases hp with (rfl | rfl | hp) | rfl | rfl
    · exact reads_word _
    · exact reads_blanks
    · exact reads_of_mem_memberList hp
    · exact reads_optionalComma
    · exact reads_word _
  · exact List.forall₂_map_left_iff.mpr (List.forall₂_map_right_iff.mpr
      (List.forall₂_same.mpr fun m _ => spends_word m.toList))

@[simp] theorem reads_unionOf : Spends heavy g.unionOf 0 := g.spends_unionOf.mono (Nat.zero_le _)

@[simp] theorem reads_descriptionArgument : Spends heavy descriptionArgument 0 :=
  spends_sequence (List.nil_sublist _) (by simp) .nil

variable (heavy) in
/-- A wrapper is patterns in a row, the group's name, the wrapper's name and the union among
them. -/
theorem exists_wrapper_eq :
    ∃ ps, g.wrapper = sequence ps ∧ (∀ p ∈ ps, Spends heavy p 0) ∧
      [word g.name.toList, word "RootModel[".toList, g.unionOf].Sublist ps := by
  refine ⟨_, rfl, ?_, ?_⟩
  · simp only [List.forall_mem_cons, reads_word, reads_blanks, reads_someBlanks, reads_unionOf,
      reads_oneOf, reads_optionalComma, reads_descriptionArgument.optional, true_and]
    exact fun p hp => absurd hp List.not_mem_nil
  · exact .cons _ (.cons _ (.cons_cons _ (.cons _ (.cons _ (.cons_cons _ (.cons _
      (.cons_cons _ (List.nil_sublist _))))))))

/-- Where a wrapper is found its keyword stands in the text. -/
theorem isInfix_of_findWrapper {lineStart : Bool} {s : List Char} {r : Unit × List Char}
    (h : g.findWrapper lineStart s = some r) : "RootModel[".toList <:+: s := by
  obtain ⟨rest, hrest, _⟩ := Option.map_eq_some_iff.mp h
  obtain ⟨ps, hps, hreads, hsub⟩ := g.exists_wrapper_eq fun _ => false
  have hmem := List.mem_of_mem_head? hrest
  rw [hps] at hmem
  exact isInfix_of_mem_sequence (fun _ => false) hreads (hsub.subset (by simp)) hmem

variable (heavy) in
/-- A wrapper names the group and its members. -/
theorem exists_of_findWrapper {lineStart : Bool} {s rest : List Char} {u : Unit}
    (h : g.findWrapper lineStart s = some (u, rest)) :
    ∃ x, s = x ++ rest ∧
      g.name.toList.countP heavy + "RootModel[".toList.countP heavy +
        (g.members.map fun m => m.toList.countP heavy).sum ≤ x.countP heavy := by
  obtain ⟨t, ht, he⟩ := Option.map_eq_some_iff.mp h
  obtain ⟨_, rfl⟩ := Prod.mk.inj he
  obtain ⟨ps, hps, hreads, hsub⟩ := g.exists_wrapper_eq heavy
  have hmem := List.mem_of_mem_head? ht
  rw [hps] at hmem
  obtain ⟨x, hx, hle⟩ := spends_sequence hsub hreads
    (.cons (spends_word _) (.cons (spends_word _) (.cons g.spends_unionOf .nil))) _ _ hmem
  refine ⟨x, hx, ?_⟩
  simp only [List.sum_cons, List.sum_nil] at hle
  omega

end Group

/-! ### Import statements -/

theorem suffix_of_atLineEnd? {s rest : List Char} (h : atLineEnd? s = some rest) : rest <:+ s := by
  unfold atLineEnd? at h
  dsimp only at h
  split at h
  · obtain rfl := Option.some.inj h
    exact List.nil_suffix
  · split at h
    · obtain rfl := Option.some.inj h
      exact List.dropWhile_suffix _
    · cases h

theorem exists_of_readImport {s rest : List Char} {i : ImportStatement}
    (h : readImport s = some (i, rest)) :
    ∃ x, s = (if i.bracketed then ['('] else []) ++ i.names ++ x ++ rest := by
  unfold readImport at h
  split at h
  · rename_i t
    split at h
    · cases h
    · rename_i c u hu
      obtain ⟨r, hr, he⟩ := Option.map_eq_some_iff.mp h
      obtain ⟨rfl, rfl⟩ := Prod.mk.inj he
      obtain ⟨y, hy⟩ := suffix_of_atLineEnd? hr
      refine ⟨c :: y, ?_⟩
      have htake := List.takeWhile_append_dropWhile (p := (· != ')')) (l := t)
      rw [hu] at htake
      simp [hy, htake]
  · dsimp only at h
    split at h
    · cases h
    · obtain ⟨rfl, rfl⟩ := Prod.mk.inj (Option.some.inj h)
      refine ⟨[], ?_⟩
      have hprefix : s.takeWhile (fun c => c != '\n' && c != '(') <+: s :=
        List.takeWhile_prefix _
      simpa using (List.prefix_iff_eq_append.mp hprefix).symm

/-- An import statement is found with its head, its bracket and its names. -/
theorem exists_of_findImport {lineStart : Bool} {s rest : List Char} {i : ImportStatement}
    (h : findImport lineStart s = some (i, rest)) :
    ∃ x, s = importHead ++ (if i.bracketed then ['('] else []) ++ i.names ++ x ++ rest := by
  unfold findImport at h
  split at h
  · obtain ⟨t, ht, hread⟩ := Option.bind_eq_some_iff.mp h
    obtain rfl := dropPrefix?_eq_some_iff.mp ht
    obtain ⟨x, rfl⟩ := exists_of_readImport hread
    exact ⟨x, by simp only [List.append_assoc]⟩
  · cases h

end SchemaModels.Repair
