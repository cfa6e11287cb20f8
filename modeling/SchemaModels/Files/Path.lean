import SchemaModels.Text.Lines

/-!
# Paths

A path is a text of names with slashes between them. Empty names count for nothing, `.` stays, `..`
goes up; a slash at the end asks for a directory, one at the beginning for the root.

* `names`: the names of a path.
* `parent?`: the path without its last name, as it is written; `directoryOf`: the directory that a
  path lies in.
* `ancestors`: a path and the paths above it.
-/

namespace SchemaModels.Path

open Text

/-- The names of a path. -/
def names (path : List Char) : List String :=
  ((pieces '/' path).filter fun name => !name.isEmpty).map String.ofList

/-- Whether a path asks for a directory. -/
def endsOpen (path : List Char) : Bool := path.getLast? = some '/'

/-- Whether a path begins at the root of all paths. -/
def isAbsolute (path : List Char) : Bool := path.head? = some '/'

/-- Whether a name stands for a directory itself or the one above it. -/
def isDots (name : String) : Bool := name == "." || name == ".."

/-- What is to be followed along a path. -/
def steps (path : List Char) : List String := names path ++ if endsOpen path then ["."] else []

/-- A reversed path without slashes and names `.` at its end; a name `.` that is all of it stays. -/
def dropOpenEnd : List Char → List Char
  | '/' :: s => dropOpenEnd s
  | ['.', '/'] => []
  | '.' :: '/' :: s => dropOpenEnd s
  | s => s

theorem length_dropOpenEnd_le (s : List Char) : (dropOpenEnd s).length ≤ s.length := by
  fun_induction dropOpenEnd s <;> simp_all <;> omega

theorem head?_dropOpenEnd (s : List Char) : (dropOpenEnd s).head? ≠ some '/' := by
  fun_induction dropOpenEnd s with
  | case1 s ih => exact ih
  | case2 => simp
  | case3 s _ ih => exact ih
  | case4 s h _ _ =>
      cases s with
      | nil => simp
      | cons c s => exact fun e => h s (by simp_all)

/-- A path before the last name of another one. Where nothing is left of an absolute path, the root
is. -/
def orRoot (path above : List Char) : List Char :=
  if above.isEmpty && isAbsolute path then ['/'] else above

/-- The path without its last name, unless it has none. -/
def parent? (path : List Char) : Option (List Char) :=
  let kept := dropOpenEnd path.reverse
  if kept.isEmpty then none
  else some (orRoot path (dropOpenEnd (kept.dropWhile (· != '/'))).reverse)

/-- An absolute path with a name has something after its first slash. -/
theorem two_le_length {path : List Char} (habsolute : isAbsolute path = true)
    (hkept : dropOpenEnd path.reverse ≠ []) : 2 ≤ path.length := by
  cases path with
  | nil => cases habsolute
  | cons c rest =>
      cases rest with
      | cons d rest => simp
      | nil =>
          obtain rfl : c = '/' := by simpa [isAbsolute] using habsolute
          exact absurd rfl hkept

theorem length_lt_of_parent? {path above : List Char} (h : parent? path = some above) :
    above.length < path.length := by
  have hle := length_dropOpenEnd_le path.reverse
  have hhead := head?_dropOpenEnd path.reverse
  have htwo : isAbsolute path = true → dropOpenEnd path.reverse ≠ [] → 2 ≤ path.length :=
    two_le_length
  simp only [parent?] at h
  generalize dropOpenEnd path.reverse = kept at h hle hhead htwo
  cases kept with
  | nil => simp at h
  | cons c rest =>
      have hc : c ≠ '/' := fun e => hhead (by simp [e])
      simp only [List.isEmpty_cons, Bool.false_eq_true, if_false, Option.some.injEq] at h
      subst h
      unfold orRoot
      split
      · rename_i hroot
        exact htwo (Bool.and_eq_true_iff.mp hroot).2 (List.cons_ne_nil c rest)
      · have hdrop := length_dropOpenEnd_le ((c :: rest).dropWhile (· != '/'))
        have hsub := (List.dropWhile_sublist (· != '/') (l := rest)).length_le
        simp only [List.dropWhile_cons, bne_iff_ne, ne_eq, hc, not_false_eq_true, if_true]
          at hdrop ⊢
        simp only [List.length_reverse, List.length_cons] at hle ⊢
        omega

/-- The path of the directory that a path lies in. -/
def directoryOf (path : List Char) : List Char :=
  match parent? path with
  | none => ['.']
  | some above => if above.isEmpty then ['.'] else above

/-- A path and the paths above it, the longest first. -/
def ancestors (path : List Char) : List (List Char) :=
  match h : parent? path with
  | none => []
  | some above =>
      have := length_lt_of_parent? h
      path :: ancestors above
termination_by path.length

end SchemaModels.Path
