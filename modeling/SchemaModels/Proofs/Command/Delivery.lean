import SchemaModels.Command.Delivery
import SchemaModels.Proofs.Files.Staging

/-!
# What a delivery changes

A text is put in place at the end of a command, and nothing else in the file system is changed by it
but for the directories on the way.

* `perform_orFail`, `perform_writeText`: the steps of a command on a file system.
* `delivers_deliver`: the outcomes of a delivery, on every file system.
-/

namespace SchemaModels

/-- The errors of a delivery: a directory could not be made, or a text not be put in place. -/
def CommandError.IsWriteFault : CommandError → Prop
  | directoryNotMade _ _ => True
  | notWritten _ _ => True
  | _ => False

namespace Command

variable {s : FileSystem}

/-! ### Commands on a file system -/

theorem perform_orFail {α : Type} (wrap : FileFault → CommandError)
    (action : StateM FileSystem (Except FileFault α)) :
    s.perform (orFail wrap action).run =
      match s.perform action with
      | (.ok a, s') => (.ok a, s')
      | (.error fault, s') => (.error (wrap fault), s') := by
  show s.perform (_ >>= _) = _
  rw [FileSystem.perform_bind]
  generalize s.perform action = first
  obtain ⟨result, s'⟩ := first
  cases result <;> rfl

/-! ### Deliveries -/

theorem perform_isPresent (path : String) :
    s.perform ((FileAccess.isPresent path : ExceptT CommandError (StateM FileSystem) Bool).run) =
      (.ok (s.isPresent path), s) := rfl

theorem perform_readText (path : String) :
    s.perform ((FileAccess.readText path :
      ExceptT CommandError (StateM FileSystem) (Except FileFault String)).run) =
      (.ok (s.readText path), s) := rfl

/-- The last step of a delivery. -/
theorem perform_replaceText (directory path content : String) :
    s.perform (ExceptT.run do
      orFail (.notWritten path) (replaceText directory path content)
      return Delivery.written path content.utf8ByteSize) =
    match s.perform (replaceText directory path content) with
    | (.error fault, s') => (.error (.notWritten path fault), s')
    | (.ok _, s') => (.ok (.written path content.utf8ByteSize), s') := by
  rw [FileSystem.perform_run_bind, perform_orFail]
  generalize s.perform (replaceText directory path content) = outcome
  obtain ⟨result, s'⟩ := outcome
  cases result <;> rfl

theorem perform_writeText (path content : String) : s.perform (writeText path content).run =
    match (if s.isPresent (directoryOf path) then (.ok (), s)
      else s.perform (makeDirectories (directoryOf path))) with
    | (.error fault, s') => (.error (.directoryNotMade (directoryOf path) fault), s')
    | (.ok _, s') =>
        match s'.perform (replaceText (directoryOf path) path content) with
        | (.error fault, s'') => (.error (.notWritten path fault), s'')
        | (.ok _, s'') => (.ok (.written path content.utf8ByteSize), s'') := by
  unfold writeText
  dsimp only
  rw [FileSystem.perform_run_bind, perform_isPresent]
  cases s.isPresent (directoryOf path) with
  | true => exact perform_replaceText (directoryOf path) path content
  | false =>
      simp only [Bool.not_false, if_true, Bool.false_eq_true, if_false]
      rw [FileSystem.perform_run_bind, perform_orFail]
      generalize s.perform (makeDirectories (directoryOf path)) = made
      obtain ⟨result, s'⟩ := made
      cases result with
      | error fault => rfl
      | ok _ => exact perform_replaceText (directoryOf path) path content

theorem perform_deliver_of_eq {path content : String} (h : s.readText path = .ok content) :
    s.perform (deliver false path content).run = (.ok (.unchanged path), s) := by
  unfold deliver
  rw [if_neg Bool.false_ne_true, FileSystem.perform_run_bind, perform_readText, h]
  dsimp only
  rw [if_pos rfl]
  rfl

theorem perform_deliver_of_ne {path content : String} (h : s.readText path ≠ .ok content) :
    s.perform (deliver false path content).run = s.perform (writeText path content).run := by
  unfold deliver
  rw [if_neg Bool.false_ne_true, FileSystem.perform_run_bind, perform_readText]
  cases hread : s.readText path with
  | error fault => rfl
  | ok existing =>
      have hne : existing ≠ content := fun he => h (hread.trans (congrArg _ he))
      dsimp only
      rw [if_neg hne]

/-! ### Outcomes -/

/-- What may come of a delivery to a path, and of the file system. -/
inductive Delivers (path content : String) (s : FileSystem) :
    Except CommandError Delivery × FileSystem → Prop
  | unchanged (h : s.readText path = .ok content) :
      Delivers path content s (.ok (.unchanged path), s)
  | written {s' : FileSystem} {place : List String} (h : s.readText path ≠ .ok content)
      (hplaces : s.Places path content s' place) :
      Delivers path content s (.ok (.written path content.utf8ByteSize), s')
  | fault {s' : FileSystem} {e : CommandError} (h : s.readText path ≠ .ok content)
      (he : e.IsWriteFault) (hspares : s.Spares path s') :
      Delivers path content s (.error e, s')

theorem delivers_writeText {path content : String} (h : s.readText path ≠ .ok content) :
    Delivers path content s (s.perform (writeText path content).run) := by
  have hgrows : s.Grows (s.start path) (Path.names path.toList).dropLast
      (if s.isPresent (directoryOf path) then (Except.ok (), s)
        else s.perform (makeDirectories (directoryOf path))).2 := by
    split
    · exact FileSystem.Grows.refl _ _ s
    · exact FileSystem.grows_makeDirectories s path
  rw [perform_writeText]
  generalize (if s.isPresent (directoryOf path) then (Except.ok (), s)
    else s.perform (makeDirectories (directoryOf path))) = made at hgrows
  obtain ⟨result, s'⟩ := made
  cases result with
  | error fault => exact .fault h trivial hgrows.spares
  | ok _ =>
      have hreplaces := s'.replaces_replaceText (directoryOf path) path content
      dsimp only
      generalize s'.perform (replaceText (directoryOf path) path content) = outcome at hreplaces
      cases hreplaces with
      | placed hplaces => exact .written h (hplaces.of_grows hgrows)
      | spared hspares => exact .fault h trivial (hspares.of_grows hgrows)

/-- A delivery has one of its outcomes on every file system. -/
theorem delivers_deliver (s : FileSystem) (path content : String) :
    Delivers path content s (s.perform (deliver false path content).run) := by
  by_cases h : s.readText path = .ok content
  · rw [perform_deliver_of_eq h]
    exact .unchanged h
  · rw [perform_deliver_of_ne h]
    exact delivers_writeText h

example : ((⟨.empty, [], .plain⟩ : FileSystem).perform
    (deliver false "/out/./py/ui.py" "x").run).2.tree.paths =
      ["out/", "out/py/", "out/py/ui.py"] := by decide +kernel

end Command

end SchemaModels
