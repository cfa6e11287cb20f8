import SchemaModels.Files.System

/-!
# What stands in a file tree

A tree is seen by what stands at each place in it: the content of a file, or a directory. The order
in which a directory lists its entries does not show.

* `view?`: what stands at a place; `view?_put`, `view?_erase`: after something was put there or
  taken away.
* `follow_cons`: a step, by what stands at its ends.
* `Keeps`: a tree that still has everything that another one has. Steps that lead somewhere lead to
  the same place in it (`KeepsPaths.follow`); those to a directory need the directories only
  (`follow_of_directories`).
* `FileSystem.exists_of_slot`: the directory that the last name of a path stands in.
-/

namespace SchemaModels

namespace FileTree

/-- What may stand at a place. -/
inductive Entry where
  | file (content : ByteArray)
  | directory

/-- A file, or a directory without what it holds. -/
def entry : FileTree → Entry
  | file content => .file content
  | directory _ => .directory

/-- What stands at a place. -/
def view? (t : FileTree) (place : List String) : Option Entry := (t.get? place).map entry

variable {t t' : FileTree} {place : List String} {name : String}

/-! ### Places -/

theorem view?_eq_directory_iff :
    t.view? place = some .directory ↔ ∃ entries, t.get? place = some (directory entries) := by
  unfold view?
  rcases t.get? place with _ | _ | _ <;> simp [entry]

theorem view?_eq_file_iff {content : ByteArray} :
    t.view? place = some (.file content) ↔ t.get? place = some (file content) := by
  unfold view?
  rcases t.get? place with _ | _ | _ <;> simp [entry]

theorem isSome_view? : (t.view? place).isSome = (t.get? place).isSome := Option.isSome_map

theorem get?_append (t : FileTree) (place rest : List String) :
    t.get? (place ++ rest) = (t.get? place).bind fun t => t.get? rest := by
  induction place generalizing t with
  | nil => rfl
  | cons name place ih =>
      rw [List.cons_append, get?, get?]
      cases t.child? name with
      | none => rfl
      | some sub => exact ih sub

/-- An entry of a directory. -/
theorem get?_concat {entries : List (String × FileTree)}
    (h : t.get? place = some (directory entries)) (name : String) :
    t.get? (place ++ [name]) = entries.lookup name := by
  rw [get?_append, h, Option.bind_some, get?, child?]
  cases entries.lookup name <;> rfl

/-- Nothing stands below what is no directory. -/
theorem get?_append_eq_none {rest : List String} (hrest : rest ≠ [])
    (h : t.view? place ≠ some .directory) : t.get? (place ++ rest) = none := by
  rw [get?_append]
  cases rest with
  | nil => exact absurd rfl hrest
  | cons name rest =>
      cases hget : t.get? place with
      | none => rfl
      | some sub =>
          cases sub with
          | file content => rfl
          | directory entries => exact absurd (view?_eq_directory_iff.mpr ⟨_, hget⟩) h

/-! ### Putting -/

/-- A file, or a directory without entries. -/
def IsLeaf (node : FileTree) : Prop := ∀ name rest, node.get? (name :: rest) = none

theorem isLeaf_file (content : ByteArray) : IsLeaf (file content) := fun _ _ => rfl

theorem isLeaf_empty : IsLeaf empty := fun _ _ => rfl

theorem view?_directory_cons (entries : List (String × FileTree)) (name : String)
    (rest : List String) : (directory entries).view? (name :: rest) =
      (entries.lookup name).bind fun sub => sub.view? rest := by
  unfold view?
  rw [get?, child?, Option.map_bind]
  rfl

/-- What stands below an entry of a directory, after something was put in the entry's place. -/
theorem view?_directory_upsert (entries : List (String × FileTree)) (name : String)
    (sub : FileTree) (first : String) (rest : List String) :
    (directory (Keyed.upsert Prod.fst (name, sub) entries)).view? (first :: rest) =
      if first = name then sub.view? rest else (directory entries).view? (first :: rest) := by
  rw [view?_directory_cons, view?_directory_cons, Keyed.lookup_upsert]
  split <;> rfl

/-- A leaf that is put into a directory, in the place of a file or of nothing, stands there. Nothing
else changes. -/
theorem view?_put {node : FileTree} (hnode : node.IsLeaf) {place : List String} {name : String}
    (hplace : t.view? place = some .directory)
    (hold : t.view? (place ++ [name]) ≠ some .directory) (q : List String) :
    (t.put (place ++ [name]) node).view? q =
      if q = place ++ [name] then some node.entry else t.view? q := by
  induction place generalizing t q with
  | nil =>
      obtain ⟨entries, hget⟩ := view?_eq_directory_iff.mp hplace
      obtain rfl : t = directory entries := Option.some.inj hget
      rw [List.nil_append, put, put]
      cases q with
      | nil => rfl
      | cons first rest =>
          rw [view?_directory_upsert]
          by_cases hfirst : first = name
          · subst hfirst
            rw [if_pos rfl]
            cases rest with
            | nil => rw [if_pos rfl]; rfl
            | cons next rest =>
                have hbelow := get?_append_eq_none (List.cons_ne_nil next rest) hold
                rw [if_neg (by simp), view?, view?, hnode]
                rw [List.nil_append, List.singleton_append] at hbelow
                rw [hbelow]
          · rw [if_neg hfirst, if_neg (by simp [hfirst])]
  | cons first place ih =>
      obtain ⟨entries, hget⟩ := view?_eq_directory_iff.mp hplace
      cases t with
      | file content => cases hget
      | directory es =>
          rw [view?_directory_cons] at hplace
          rw [List.cons_append, view?_directory_cons] at hold
          cases hsub : es.lookup first with
          | none => rw [hsub] at hplace; cases hplace
          | some sub =>
              rw [hsub, Option.bind_some] at hplace hold
              rw [List.cons_append, put, hsub, Option.getD_some]
              cases q with
              | nil => rfl
              | cons head rest =>
                  rw [view?_directory_upsert]
                  by_cases hhead : head = first
                  · subst hhead
                    rw [if_pos rfl, ih hplace hold, view?_directory_cons, hsub, Option.bind_some]
                    simp only [List.cons.injEq, true_and]
                  · rw [if_neg hhead, if_neg (by simp [hhead])]

/-! ### Taking away -/

theorem lookup_filter_ne (name other : String) : ∀ entries : List (String × FileTree),
    (entries.filter fun e => e.1 != name).lookup other =
      if other = name then none else entries.lookup other
  | [] => by
      split <;> rfl
  | (key, sub) :: entries => by
      have ih := lookup_filter_ne name other entries
      by_cases hkey : key = name
      · rw [List.filter_cons_of_neg (by simp [hkey]), ih]
        split
        · rfl
        · rename_i hother
          rw [List.lookup_cons, beq_eq_false_iff_ne.mpr (hkey ▸ hother)]
      · rw [List.filter_cons_of_pos (by simpa using hkey), List.lookup_cons, List.lookup_cons, ih]
        by_cases hother : other = key
        · simp [hother, hkey]
        · rw [beq_eq_false_iff_ne.mpr hother]

theorem erase_directory_cons (entries : List (String × FileTree)) (name : String)
    {rest : List String} (hrest : rest ≠ []) : (directory entries).erase (name :: rest) =
      match entries.lookup name with
      | some sub => directory (Keyed.upsert Prod.fst (name, sub.erase rest) entries)
      | none => directory entries := by
  cases rest with
  | nil => exact absurd rfl hrest
  | cons next rest => rfl

/-- What is no directory goes away. Nothing else changes. -/
theorem view?_erase {place : List String} {name : String}
    (hold : t.view? (place ++ [name]) ≠ some .directory) (q : List String) :
    (t.erase (place ++ [name])).view? q = if q = place ++ [name] then none else t.view? q := by
  induction place generalizing t q with
  | nil =>
      cases t with
      | file content =>
          split
          · rename_i hq
            rw [hq]
            rfl
          · rfl
      | directory entries =>
          rw [List.nil_append, erase]
          cases q with
          | nil => rfl
          | cons first rest =>
              rw [view?_directory_cons, view?_directory_cons, lookup_filter_ne]
              by_cases hfirst : first = name
              · subst hfirst
                rw [if_pos rfl, Option.bind_none]
                cases rest with
                | nil => rw [if_pos rfl]
                | cons next rest =>
                    have hbelow := get?_append_eq_none (List.cons_ne_nil next rest) hold
                    rw [if_neg (by simp), ← view?_directory_cons, view?]
                    rw [List.nil_append, List.singleton_append] at hbelow
                    rw [hbelow]
                    rfl
              · rw [if_neg hfirst, if_neg (by simp [hfirst])]
  | cons first place ih =>
      cases t with
      | file content =>
          split
          · rename_i hq
            rw [hq]
            rfl
          · rfl
      | directory entries =>
          rw [List.cons_append, view?_directory_cons] at hold
          rw [List.cons_append, erase_directory_cons entries first (by simp)]
          cases hsub : entries.lookup first with
          | none =>
              dsimp only
              split
              · rename_i hq
                rw [hq, view?_directory_cons, hsub]
                rfl
              · rfl
          | some sub =>
              rw [hsub, Option.bind_some] at hold
              dsimp only
              cases q with
              | nil => rfl
              | cons head rest =>
                  rw [view?_directory_upsert]
                  by_cases hhead : head = first
                  · subst hhead
                    rw [if_pos rfl, ih hold, view?_directory_cons, hsub, Option.bind_some]
                    simp only [List.cons.injEq, true_and]
                  · rw [if_neg hhead, if_neg (by simp [hhead])]

/-! ### Steps -/

/-- A step, by what stands at its ends. -/
theorem follow_cons (step : String) (rest place : List String) :
    t.follow (step :: rest) place =
      match t.view? place with
      | some .directory =>
          if step = "." then t.follow rest place
          else if step = ".." then t.follow rest place.dropLast
          else if (t.view? (place ++ [step])).isSome then t.follow rest (place ++ [step])
          else .error .notFound
      | some (.file _) => .error .notDirectory
      | none => .error .notFound := by
  rw [follow]
  cases hget : t.get? place with
  | none => simp [view?, hget]
  | some sub =>
      cases sub with
      | file content => simp [view?, hget, entry]
      | directory entries =>
          rw [view?_eq_directory_iff.mpr ⟨_, hget⟩, isSome_view?, get?_concat hget]

/-- Following steps, then more steps. -/
theorem follow_append (steps rest place : List String) :
    t.follow (steps ++ rest) place = t.follow steps place >>= fun p => t.follow rest p := by
  induction steps generalizing place with
  | nil => rfl
  | cons step steps ih =>
      rw [List.cons_append, follow_cons, follow_cons]
      split
      · split
        · exact ih _
        · split
          · exact ih _
          · split
            · exact ih _
            · rfl
      · rfl
      · rfl

/-- The step that stays has to be in a directory. -/
theorem follow_dot_eq_ok_iff {target : List String} :
    t.follow ["."] place = .ok target ↔ target = place ∧ t.view? place = some .directory := by
  rw [follow_cons]
  cases t.view? place with
  | none => simp
  | some e =>
      cases e with
      | file content => simp
      | directory =>
          rw [if_pos rfl, follow, Except.ok.injEq, eq_comm]
          exact (and_iff_left rfl).symm

/-- Steps that come to a directory, then the name of one of its entries. -/
theorem follow_concat {steps start : List String} (hf : t.follow steps start = .ok place)
    (hplace : t.view? place = some .directory) (hname : Path.isDots name = false)
    (hentry : (t.view? (place ++ [name])).isSome) :
    t.follow (steps ++ [name]) start = .ok (place ++ [name]) := by
  simp only [Path.isDots, Bool.or_eq_false_iff, beq_eq_false_iff_ne] at hname
  rw [follow_append, hf]
  show t.follow [name] place = _
  rw [follow_cons, hplace]
  dsimp only
  rw [if_neg hname.1, if_neg hname.2, if_pos hentry]
  rfl

/-- Steps that come to a directory pass directories only, and come to it in any tree that has the
same directories. -/
theorem follow_of_directories
    (h : ∀ q, t.view? q = some .directory → t'.view? q = some .directory) :
    ∀ {steps start : List String}, t.follow steps start = .ok place →
      t.view? place = some .directory → t'.follow steps start = .ok place
  | [], _, hf, _ => hf
  | step :: rest, start, hf, hplace => by
      have hnext : ∀ p, t.follow rest p = .ok place → t.view? p = some .directory := fun p hp => by
        cases rest with
        | nil =>
            obtain rfl : p = place := Except.ok.inj hp
            exact hplace
        | cons next rest =>
            rw [follow_cons] at hp
            split at hp
            · assumption
            · cases hp
            · cases hp
      rw [follow_cons] at hf ⊢
      split at hf
      · rename_i hdirectory
        rw [h start hdirectory]
        dsimp only
        split at hf
        · rename_i hdot
          rw [if_pos hdot]
          exact follow_of_directories h hf hplace
        · rename_i hdot
          rw [if_neg hdot]
          split at hf
          · rename_i hup
            rw [if_pos hup]
            exact follow_of_directories h hf hplace
          · rename_i hup
            rw [if_neg hup]
            split at hf
            · rw [if_pos (by rw [h _ (hnext _ hf)]; rfl)]
              exact follow_of_directories h hf hplace
            · cases hf
      · cases hf
      · cases hf

/-! ### Trees that keep what there is -/

/-- What stands in a tree stands in another one, if not with the same content. -/
structure KeepsPaths (t t' : FileTree) : Prop where
  directory : ∀ place, t.view? place = some .directory → t'.view? place = some .directory
  isSome : ∀ place, (t.view? place).isSome → (t'.view? place).isSome

/-- Steps that lead somewhere lead there in a tree that keeps what there is. -/
theorem KeepsPaths.follow (h : t.KeepsPaths t') : ∀ {steps place target : List String},
    t.follow steps place = .ok target → t'.follow steps place = .ok target
  | [], _, _, hf => hf
  | step :: rest, place, target, hf => by
      rw [follow_cons] at hf ⊢
      split at hf
      · rename_i hdirectory
        rw [h.directory place hdirectory]
        split at hf
        · rename_i hdot
          rw [if_pos hdot]
          exact h.follow hf
        · rename_i hdot
          rw [if_neg hdot]
          split at hf
          · rename_i hup
            rw [if_pos hup]
            exact h.follow hf
          · rename_i hup
            rw [if_neg hup]
            split at hf
            · rename_i hsome
              rw [if_pos (h.isSome _ hsome)]
              exact h.follow hf
            · cases hf
      · cases hf
      · cases hf

/-- What stands in a tree stands in another one. -/
def Keeps (t t' : FileTree) : Prop := ∀ place e, t.view? place = some e → t'.view? place = some e

theorem Keeps.refl (t : FileTree) : t.Keeps t := fun _ _ h => h

theorem Keeps.trans {t'' : FileTree} (h : t.Keeps t') (h' : t'.Keeps t'') : t.Keeps t'' :=
  fun place e he => h' place e (h place e he)

theorem Keeps.keepsPaths (h : t.Keeps t') : t.KeepsPaths t' where
  directory place hd := h place _ hd
  isSome place hs := by
    obtain ⟨e, he⟩ := Option.isSome_iff_exists.mp hs
    rw [h place e he]
    rfl

end FileTree

/-- A path with a slot has its last name there, in the directory that the other names lead to. -/
theorem FileSystem.exists_of_slot {s : FileSystem} {path name : String} {place : List String}
    (h : s.slot path = .ok (place, name)) (hname : Path.isDots name = false) :
    path.isEmpty = false ∧ ∃ steps, Path.names path.toList = steps ++ [name] ∧
      s.tree.follow steps (s.start path) = .ok place ∧
      s.tree.view? place = some .directory := by
  unfold slot at h
  split at h
  · cases h
  · rename_i hempty
    refine ⟨by simpa using hempty, ?_⟩
    dsimp only at h
    rw [FileTree.follow_append] at h
    cases hf : s.tree.follow (Path.names path.toList).dropLast (s.start path) with
    | error fault =>
        rw [hf] at h
        cases h
    | ok p =>
        rw [hf] at h
        cases hdot : s.tree.follow ["."] p with
        | error fault =>
            simp only [bind, Except.bind, hdot] at h
            cases h
        | ok q =>
            simp only [bind, Except.bind, hdot, Except.ok.injEq, Prod.mk.injEq] at h
            obtain ⟨rfl, hlast⟩ := h
            obtain ⟨rfl, hplace⟩ := FileTree.follow_dot_eq_ok_iff.mp hdot
            cases hgetLast : (Path.names path.toList).getLast? with
            | none =>
                rw [hgetLast] at hlast
                subst hlast
                exact absurd hname (by decide)
            | some last =>
                rw [hgetLast, Option.getD_some] at hlast
                obtain ⟨steps, hnames⟩ := List.getLast?_eq_some_iff.mp hgetLast
                rw [hnames, List.dropLast_concat] at hf
                exact ⟨steps, hlast ▸ hnames, hf, hplace⟩

end SchemaModels
