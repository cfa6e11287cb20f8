import SchemaModels.Proofs.Files.Entries

/-!
# Reading along a path

What is read at a path depends on where the path leads and on what stands there. A path that does
not go up enters its names one by one, so that its place is known without the tree.

* `FileSystem.entered`, `eq_entered_of_locate`: the place of a path that does not go up.
* `readText_eq_ok`, `readText_congr`: what is read, by what stands at the place of a path.
* `exists_of_readText`: a text that is read has a place.
* `locate_of_keepsPaths`: paths that lead somewhere, in a tree that keeps what there is.
-/

namespace SchemaModels

/-- Steps that do not go up enter their names one by one. -/
theorem FileTree.eq_append_of_follow {t : FileTree} {place steps start : List String}
    (hup : ".." ∉ steps) (h : t.follow steps start = .ok place) :
    place = start ++ steps.filter (· != ".") := by
  induction steps generalizing start with
  | nil =>
      rw [List.filter_nil, List.append_nil]
      exact (Except.ok.inj h).symm
  | cons step rest ih =>
      obtain ⟨hstep, hrest⟩ := not_or.mp (mt List.mem_cons.mpr hup)
      rw [follow_cons] at h
      split at h
      · split at h
        · rename_i hdot
          rw [ih hrest h, List.filter_cons_of_neg (by simp [hdot])]
        · rename_i hdot
          rw [if_neg (Ne.symm hstep)] at h
          split at h
          · rw [ih hrest h, List.filter_cons_of_pos (by simpa using hdot), List.append_assoc,
              List.singleton_append]
          · cases h
      · cases h
      · cases h

namespace FileSystem

variable {s s' : FileSystem} {path content : String} {place : List String}

/-! ### Places of paths -/

/-- The place of a path that does not go up, if it denotes anything. -/
def entered (s : FileSystem) (path : String) : List String :=
  s.start path ++ (Path.names path.toList).filter (· != ".")

theorem eq_entered_of_locate (hup : ".." ∉ Path.names path.toList)
    (h : s.locate path = .ok place) : place = s.entered path := by
  unfold locate at h
  split at h
  · cases h
  · rw [Path.steps] at h
    split at h
    · have hsteps : ".." ∉ Path.names path.toList ++ ["."] := by
        simpa using hup
      rw [FileTree.eq_append_of_follow hsteps h]
      simp [entered]
    · rw [List.append_nil] at h
      rw [FileTree.eq_append_of_follow hup h, entered]

theorem locate_of_keepsPaths {t' : FileTree} (h : s.tree.KeepsPaths t')
    (hl : s.locate path = .ok place) : (s.withTree t').locate path = .ok place := by
  unfold locate at hl ⊢
  split at hl
  · cases hl
  · rename_i hpath
    rw [if_neg hpath]
    exact h.follow hl

/-! ### Reading -/

/-- What a path holds, where it denotes a file. -/
theorem readText_eq_ok (hl : s.locate path = .ok place)
    (he : s.tree.view? place = some (.file content.toUTF8)) : s.readText path = .ok content := by
  have hget := FileTree.view?_eq_file_iff.mp he
  have htext : String.fromUTF8? content.toUTF8 = some content := dif_pos content.isValidUTF8
  unfold readText node
  simp only [hl, hget, htext, bind, Except.bind]

/-- A path that leads to the same place twice, with the same entry there. -/
theorem readText_congr (hl : s.locate path = .ok place) (hl' : s'.locate path = .ok place)
    (hview : s'.tree.view? place = s.tree.view? place) : s'.readText path = s.readText path := by
  unfold readText node
  rw [hl, hl']
  simp only [bind, Except.bind]
  cases hget : s.tree.get? place with
  | none =>
      have hnone : s.tree.view? place = none := Option.map_eq_none_iff.mpr hget
      rw [Option.map_eq_none_iff.mp (hview.trans hnone)]
  | some sub =>
      cases sub with
      | file content =>
          rw [FileTree.view?_eq_file_iff.mpr hget] at hview
          rw [FileTree.view?_eq_file_iff.mp hview]
      | directory entries =>
          rw [FileTree.view?_eq_directory_iff.mpr ⟨entries, hget⟩] at hview
          obtain ⟨entries', hget'⟩ := FileTree.view?_eq_directory_iff.mp hview
          rw [hget']

/-- A text that is read stands somewhere. -/
theorem exists_of_readText (h : s.readText path = .ok content) :
    ∃ place e, s.locate path = .ok place ∧ s.tree.view? place = some e := by
  unfold readText node at h
  cases hl : s.locate path with
  | error fault =>
      rw [hl] at h
      cases h
  | ok place =>
      cases hview : s.tree.view? place with
      | some e => exact ⟨place, e, rfl, hview⟩
      | none =>
          have hnone : s.tree.get? place = none := Option.map_eq_none_iff.mp hview
          simp only [hl, hnone, bind, Except.bind] at h
          cases h

end FileSystem

end SchemaModels
