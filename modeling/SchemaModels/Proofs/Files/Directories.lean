import SchemaModels.Files.Access
import SchemaModels.Proofs.Files.Entries
import SchemaModels.Proofs.Files.Parents

/-!
# Making directories

A program that works in a monad with files is run on a file system. Each directory it makes is one
entry more, where the first names of a path lead, so that the tree only grows by the directories
that the path lies in.

* `perform`: what a program gives on a file system, with the file system it leaves.
* `makeDirectory_eq_ok_iff`: when a directory is made, and what becomes of the tree.
* `Grows`: a file system with some more directories, all along one path.
* `grows_makeDirectories`: making a directory with those above it.
-/

namespace SchemaModels

namespace FileSystem

variable {s s' s'' : FileSystem} {place : List String} {name path : String}

/-! ### Programs on a file system -/

/-- What a program gives on a file system, and the file system it leaves. -/
def perform {α : Type} (s : FileSystem) (program : StateM FileSystem α) : α × FileSystem :=
  program s

theorem perform_bind {α β : Type} (program : StateM FileSystem α)
    (next : α → StateM FileSystem β) :
    s.perform (program >>= next) =
      (s.perform program).2.perform (next (s.perform program).1) := rfl

/-- A program that may fail, then another one. -/
theorem perform_run_bind {α β ε : Type} (first : ExceptT ε (StateM FileSystem) α)
    (next : α → ExceptT ε (StateM FileSystem) β) :
    s.perform (first >>= next).run =
      match s.perform first.run with
      | (.ok a, s') => s'.perform (next a).run
      | (.error e, s') => (.error e, s') := by
  rw [ExceptT.run_bind, perform_bind]
  generalize s.perform first.run = outcome
  obtain ⟨result, s'⟩ := outcome
  cases result <;> rfl

theorem perform_readText (path : String) :
    s.perform (FileAccess.readText path) = (s.readText path, s) := rfl

theorem perform_makeDirectory (path : String) :
    s.perform (FileAccess.makeDirectory path) = s.settle (s.makeDirectory path) := rfl

theorem perform_ensureDirectory (path : String) : s.perform (ensureDirectory path) =
    match s.makeDirectory path with
    | .ok s' => (.ok (), s')
    | .error fault => (if s.hasDirectory path then .ok () else .error fault, s) := by
  unfold ensureDirectory
  rw [perform_bind, perform_makeDirectory]
  cases s.makeDirectory path with
  | ok s' => rfl
  | error fault =>
      show s.perform (_ >>= _) = _
      rw [perform_bind]
      rfl

theorem perform_ensureAll_cons (path : String) (above : List String) :
    s.perform (ensureAll (path :: above)) =
      match s.perform (ensureDirectory path) with
      | (.error .notFound, s') =>
          match s'.perform (ensureAll above) with
          | (.error fault, s'') => (.error fault, s'')
          | (.ok _, s'') => s''.perform (ensureDirectory path)
      | result => result := by
  rw [ensureAll, perform_bind]
  generalize s.perform (ensureDirectory path) = first
  obtain ⟨result, s'⟩ := first
  rcases result with fault | _
  · cases fault with
    | notFound =>
        dsimp only
        rw [perform_bind]
        generalize s'.perform (ensureAll above) = second
        obtain ⟨result, s''⟩ := second
        cases result <;> rfl
    | _ => rfl
  · rfl

/-! ### One directory -/

/-- A change is made unless the host refuses it. -/
theorem change_eq_ok_iff {c : FileChange} {t : FileTree} :
    s.change c t = .ok s' ↔ s.host.refusal? s.tree c = none ∧ s' = s.withTree t := by
  unfold change
  cases s.host.refusal? s.tree c with
  | none => simp [eq_comm]
  | some fault => simp

/-- A directory is made where the slot of its path is, if nothing stands there and the host does not
refuse. -/
theorem makeDirectory_eq_ok_iff : s.makeDirectory path = .ok s' ↔ ∃ place name,
    s.slot path = .ok (place, name) ∧ Path.isDots name = false ∧
      s.tree.view? (place ++ [name]) = none ∧
      s.host.refusal? s.tree (.makeDirectory (place ++ [name])) = none ∧
      s' = s.withTree (s.tree.put (place ++ [name]) .empty) := by
  unfold makeDirectory
  cases hslot : s.slot path with
  | error fault => simp [bind, Except.bind]
  | ok found =>
      obtain ⟨place, name⟩ := found
      simp only [bind, Except.bind]
      constructor
      · intro h
        split at h
        · cases h
        · rename_i hfree
          rw [Bool.or_eq_true, not_or, Bool.not_eq_true, ← FileTree.isSome_view?,
            Bool.not_eq_true, Option.isSome_eq_false_iff, Option.isNone_iff_eq_none] at hfree
          obtain ⟨hallowed, hs'⟩ := change_eq_ok_iff.mp h
          exact ⟨place, name, rfl, hfree.1, hfree.2, hallowed, hs'⟩
      · rintro ⟨_, _, heq, hname, hfree, hallowed, hs'⟩
        obtain ⟨rfl, rfl⟩ := Prod.mk.inj (Except.ok.inj heq)
        rw [if_neg]
        · exact change_eq_ok_iff.mpr ⟨hallowed, hs'⟩
        · rw [Bool.or_eq_true, not_or, hname, ← FileTree.isSome_view?, hfree]
          simp

/-! ### Trees that grow along a path -/

/-- A file system with everything that another one has, and with some more directories. Each of
these is where the first ones of some names lead from a place. -/
structure Grows (start names : List String) (s s' : FileSystem) : Prop where
  here_eq : s'.here = s.here
  host_eq : s'.host = s.host
  keeps : s.tree.Keeps s'.tree
  added : ∀ place e, s.tree.view? place = none → s'.tree.view? place = some e →
    e = .directory ∧ ∃ steps, steps <+: names ∧ s'.tree.follow steps start = .ok place

namespace Grows
variable {start names : List String}

theorem refl (start names : List String) (s : FileSystem) : Grows start names s s where
  here_eq := rfl
  host_eq := rfl
  keeps := FileTree.Keeps.refl s.tree
  added place e hnone hsome := by
    rw [hnone] at hsome
    cases hsome

theorem trans (h : Grows start names s s') (h' : Grows start names s' s'') :
    Grows start names s s'' where
  here_eq := h'.here_eq.trans h.here_eq
  host_eq := h'.host_eq.trans h.host_eq
  keeps := h.keeps.trans h'.keeps
  added place e hnone hsome := by
    cases hmid : s'.tree.view? place with
    | none => exact h'.added place e hmid hsome
    | some e' =>
        obtain rfl : e' = e := Option.some.inj ((h'.keeps place e' hmid).symm.trans hsome)
        obtain ⟨he, steps, hfirst, hsteps⟩ := h.added place e' hnone hmid
        exact ⟨he, steps, hfirst, h'.keeps.keepsPaths.follow hsteps⟩

theorem start_eq (h : Grows start names s s') (path : String) : s'.start path = s.start path := by
  unfold FileSystem.start
  rw [h.here_eq]

end Grows

/-- A path whose names are the first ones of a list and lead on from a place, or one that stays
where it begins. -/
def IsAlong (start names : List String) (s : FileSystem) (path : String) : Prop :=
  (s.start path = start ∧ Path.names path.toList <+: names) ∨ Path.names path.toList <+: ["."]

section grows
variable {start names : List String}

theorem grows_makeDirectory (hpath : IsAlong start names s path)
    (h : s.makeDirectory path = .ok s') : Grows start names s s' := by
  obtain ⟨place, name, hslot, hname, hfree, -, rfl⟩ := makeDirectory_eq_ok_iff.mp h
  obtain ⟨-, steps, hnames, hfollow, hplace⟩ := exists_of_slot hslot hname
  have hold : s.tree.view? (place ++ [name]) ≠ some .directory := by
    rw [hfree]
    simp
  have hput := FileTree.view?_put FileTree.isLeaf_empty hplace hold
  have hkeeps : s.tree.Keeps (s.tree.put (place ++ [name]) .empty) := fun q e he => by
    rw [hput, if_neg, he]
    rintro rfl
    rw [hfree] at he
    cases he
  refine ⟨rfl, rfl, hkeeps, fun q e hnone hsome => ?_⟩
  change (s.tree.put (place ++ [name]) .empty).view? q = some e at hsome
  rw [hput] at hsome
  split at hsome
  · rename_i hq
    subst hq
    have hhere : (s.tree.put (place ++ [name]) .empty).view? (place ++ [name]) =
        some .directory := by
      rw [hput, if_pos rfl]
      rfl
    have hsteps := FileTree.follow_concat (hkeeps.keepsPaths.follow hfollow)
      (hkeeps _ _ hplace) hname (by rw [hhere]; rfl)
    refine ⟨(Option.some.inj hsome).symm, steps ++ [name], ?_⟩
    rcases hpath with ⟨hstart, hpath⟩ | hpath
    · exact ⟨hnames ▸ hpath, hstart ▸ hsteps⟩
    · -- a path that stays makes no directory
      have hdot : name ∈ ["."] := (hnames ▸ hpath).subset (by simp)
      rw [List.mem_singleton.mp hdot] at hname
      exact absurd hname (by decide)
  · rw [hnone] at hsome
    cases hsome

theorem grows_ensureDirectory (hpath : IsAlong start names s path) :
    Grows start names s (s.perform (ensureDirectory path)).2 := by
  rw [perform_ensureDirectory]
  cases hmake : s.makeDirectory path with
  | ok s' => exact grows_makeDirectory hpath hmake
  | error fault => exact Grows.refl start names s

theorem IsAlong.of_grows (h : IsAlong start names s path) (hgrows : Grows start names s s') :
    IsAlong start names s' path := by
  unfold IsAlong
  rw [hgrows.start_eq]
  exact h

theorem grows_ensureAll : ∀ {paths : List String} {s : FileSystem},
    (∀ path ∈ paths, IsAlong start names s path) →
      Grows start names s (s.perform (ensureAll paths)).2
  | [], s, _ => Grows.refl start names s
  | path :: above, s, hpaths => by
      obtain ⟨hpath, habove⟩ := List.forall_mem_cons.mp hpaths
      have hfirst := grows_ensureDirectory hpath
      rw [perform_ensureAll_cons]
      generalize s.perform (ensureDirectory path) = first at hfirst
      obtain ⟨result, s'⟩ := first
      dsimp only at hfirst
      split
      · rename_i s₁ heq
        obtain ⟨rfl, rfl⟩ := Prod.mk.inj heq
        have hrest := hfirst.trans
          (grows_ensureAll fun p hp => (habove p hp).of_grows hfirst)
        generalize s'.perform (ensureAll above) = second at hrest
        obtain ⟨result, s''⟩ := second
        cases result with
        | error fault => exact hrest
        | ok _ => exact hrest.trans (grows_ensureDirectory (hpath.of_grows hrest))
      · exact hfirst

/-- Making the directory of a path with those above it. -/
theorem grows_makeDirectories (s : FileSystem) (path : String) :
    Grows (s.start path) (Path.names path.toList).dropLast s
      (s.perform (makeDirectories (String.ofList (Path.directoryOf path.toList)))).2 := by
  refine grows_ensureAll fun p hp => ?_
  obtain ⟨above, habove, rfl⟩ := List.mem_map.mp hp
  rw [String.toList_ofList] at habove
  have hfirst := Path.names_isPrefix_of_mem_ancestors habove
  unfold IsAlong start
  rw [String.toList_ofList]
  rcases Path.names_directoryOf path.toList with hdot | ⟨hdirectory, habsolute⟩
  · rw [hdot] at hfirst
    exact .inr hfirst
  · rw [Path.isAbsolute_of_mem_ancestors habove, habsolute]
    exact .inl ⟨rfl, hfirst.trans hdirectory⟩

end grows

end FileSystem

end SchemaModels
