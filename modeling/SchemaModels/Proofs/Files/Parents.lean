import SchemaModels.Files.Path
import SchemaModels.Proofs.Text.Lines

/-!
# Paths above a path

A parent is cut off a path as text, at a slash. So the names of what lies above a path are the first
ones of its own.

* `names_append_slash`, `names_ne_nil`: the names before and after a slash, and when there are some.
* `names_isPrefix_of_parent?`, `names_isPrefix_of_mem_ancestors`, `names_directoryOf`: the names of
  parents.
* `isAbsolute_of_parent?`, `isAbsolute_of_mem_ancestors`: where parents are followed from.
-/

namespace SchemaModels

namespace Path

/-- The names before a slash, then those after it. -/
theorem names_append_slash (above below : List Char) :
    names (above ++ '/' :: below) = names above ++ names below := by
  unfold names
  rw [Text.pieces, Text.piecesFrom_append, List.filter_append, List.map_append]
  rfl

/-- A text with something else than slashes has a name. -/
theorem names_ne_nil {c : Char} (hc : c ≠ '/') {path : List Char} (h : c ∈ path) :
    names path ≠ [] := by
  obtain ⟨p, hp, hcp⟩ := Text.exists_mem_piecesFrom hc [] (.inr h)
  have hne : p.isEmpty = false := List.isEmpty_eq_false_iff.mpr (List.ne_nil_of_mem hcp)
  have hmem : String.ofList p ∈ names path :=
    List.mem_map_of_mem (List.mem_filter.mpr ⟨hp, by rw [hne]; rfl⟩)
  exact List.ne_nil_of_mem hmem

/-- What is cut off the end of a path begins with a slash. -/
theorem eq_or_exists_append_dropOpenEnd (s : List Char) :
    s = dropOpenEnd s ∨ ∃ cut, s = cut ++ '/' :: dropOpenEnd s := by
  fun_induction dropOpenEnd s with
  | case1 s ih =>
      rcases ih with ih | ⟨cut, ih⟩
      · exact .inr ⟨[], by rw [List.nil_append, ← ih]⟩
      · exact .inr ⟨'/' :: cut, by rw [List.cons_append, ← ih]⟩
  | case2 => exact .inr ⟨['.'], rfl⟩
  | case3 s _ ih =>
      rcases ih with ih | ⟨cut, ih⟩
      · exact .inr ⟨['.'], by rw [List.singleton_append, ← ih]⟩
      · exact .inr ⟨'.' :: '/' :: cut, by rw [List.cons_append, List.cons_append, ← ih]⟩
  | case4 s _ _ _ => exact .inl rfl

/-- A reversed path, from a slash on, without its end. -/
theorem exists_append_of_head? {s : List Char} (h : s.head? = some '/') :
    ∃ cut, s = cut ++ '/' :: dropOpenEnd s := by
  rcases eq_or_exists_append_dropOpenEnd s with hs | hs
  · rw [hs] at h
    exact absurd h (head?_dropOpenEnd s)
  · exact hs

/-- The parent of a path is the root or empty, or is followed by a slash and a name. -/
theorem exists_orRoot_of_parent? {path above : List Char} (h : parent? path = some above) :
    ∃ kept, above = orRoot path kept ∧
      (kept = [] ∨ ∃ below, names below ≠ [] ∧ path = kept ++ '/' :: below) := by
  unfold parent? at h
  have hkept : ∃ cut, path.reverse = cut ++ dropOpenEnd path.reverse := by
    rcases eq_or_exists_append_dropOpenEnd path.reverse with hs | ⟨cut, hs⟩
    · exact ⟨[], hs⟩
    · exact ⟨cut ++ ['/'], by rw [List.append_assoc]; exact hs⟩
  have hhead := head?_dropOpenEnd path.reverse
  obtain ⟨cut, hcut⟩ := hkept
  generalize dropOpenEnd path.reverse = kept at h hcut hhead
  dsimp only at h
  cases kept with
  | nil => cases h
  | cons c kept =>
      have hc : c ≠ '/' := fun he => hhead (by rw [he]; rfl)
      refine ⟨_, (Option.some.inj h).symm, ?_⟩
      rw [List.dropWhile_cons_of_pos (by simpa using hc)]
      have hsplit := List.takeWhile_append_dropWhile (p := (· != '/')) (l := kept)
      cases hrest : kept.dropWhile (· != '/') with
      | nil => exact .inl rfl
      | cons d rest =>
          -- the rest of the path begins with the slash before the last name
          have hd : d = '/' := by
            have hne : kept.dropWhile (· != '/') ≠ [] := by
              rw [hrest]
              exact List.cons_ne_nil d rest
            have hnot := List.head_dropWhile_not (· != '/') hne
            simpa [hrest] using hnot
          obtain ⟨tail, htail⟩ := exists_append_of_head? (s := d :: rest) (by rw [hd]; rfl)
          have hreverse : path.reverse =
              (cut ++ c :: (kept.takeWhile (· != '/') ++ tail)) ++
                '/' :: dropOpenEnd (d :: rest) := by
            calc path.reverse
              _ = cut ++ c :: (kept.takeWhile (· != '/') ++ kept.dropWhile (· != '/')) := by
                  rw [hsplit, hcut]
              _ = cut ++ c :: (kept.takeWhile (· != '/') ++
                    (tail ++ '/' :: dropOpenEnd (d :: rest))) := by
                  rw [hrest, ← htail]
              _ = _ := by simp only [List.append_assoc, List.cons_append]
          refine .inr ⟨(cut ++ c :: (kept.takeWhile (· != '/') ++ tail)).reverse, ?_, ?_⟩
          · exact names_ne_nil hc (by simp)
          · rw [List.reverse_eq_iff.mp hreverse, List.reverse_append, List.reverse_cons,
              List.append_assoc, List.singleton_append]

theorem names_orRoot (path kept : List Char) : names (orRoot path kept) = names kept := by
  unfold orRoot
  split
  · rename_i hroot
    rw [List.isEmpty_iff.mp (Bool.and_eq_true_iff.mp hroot).1]
    rfl
  · rfl

/-- The names of the parent of a path are some of those before the last name. -/
theorem names_isPrefix_of_parent? {path above : List Char} (h : parent? path = some above) :
    names above <+: (names path).dropLast := by
  obtain ⟨kept, rfl, hkept⟩ := exists_orRoot_of_parent? h
  rw [names_orRoot]
  rcases hkept with rfl | ⟨below, hbelow, rfl⟩
  · exact List.nil_prefix
  · rw [names_append_slash, List.dropLast_append_of_ne_nil hbelow]
    exact List.prefix_append _ _

/-- A path and its parent are followed from the same place. -/
theorem isAbsolute_of_parent? {path above : List Char} (h : parent? path = some above) :
    isAbsolute above = isAbsolute path := by
  obtain ⟨kept, rfl, hkept⟩ := exists_orRoot_of_parent? h
  cases kept with
  | nil =>
      cases habsolute : isAbsolute path with
      | true => rw [orRoot, habsolute]; rfl
      | false => rw [orRoot, habsolute]; rfl
  | cons c kept =>
      rcases hkept with hnil | ⟨below, -, rfl⟩
      · cases hnil
      · rfl

/-- The names of a path above another one are the first names of that one. -/
theorem names_isPrefix_of_mem_ancestors {path above : List Char} (h : above ∈ ancestors path) :
    names above <+: names path := by
  fun_induction ancestors path with
  | case1 path hnone => cases h
  | case2 path parent hparent _ ih =>
      rcases List.mem_cons.mp h with rfl | h
      · exact List.prefix_rfl
      · exact ((ih h).trans (names_isPrefix_of_parent? hparent)).trans (List.dropLast_prefix _)

theorem isAbsolute_of_mem_ancestors {path above : List Char} (h : above ∈ ancestors path) :
    isAbsolute above = isAbsolute path := by
  fun_induction ancestors path with
  | case1 path hnone => cases h
  | case2 path parent hparent _ ih =>
      rcases List.mem_cons.mp h with rfl | h
      · rfl
      · exact (ih h).trans (isAbsolute_of_parent? hparent)

/-- The names of the directory that a path lies in, and where it is followed from, unless it is the
working directory. -/
theorem names_directoryOf (path : List Char) : directoryOf path = ['.'] ∨
    names (directoryOf path) <+: (names path).dropLast ∧
      isAbsolute (directoryOf path) = isAbsolute path := by
  unfold directoryOf
  cases hparent : parent? path with
  | none => exact .inl rfl
  | some above =>
      dsimp only
      split
      · exact .inl rfl
      · exact .inr ⟨names_isPrefix_of_parent? hparent, isAbsolute_of_parent? hparent⟩

end Path

end SchemaModels
