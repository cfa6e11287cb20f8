import SchemaModels.Proofs.Files.Directories
import SchemaModels.Proofs.Files.Reading

/-!
# Staging a text

A text is put in the place of a path by way of a file that is staged under a name of its own. Each
step may fail. Until the last one all that there was stands as it did, and the staged file is one
more; with the last one the staged file is gone and the path holds the text. So there is no state in
which a file that was there holds a part of the text.

* `Stages`: a file system with one more file, which is staged; `stages_of_stage`, `Stages.write`:
  the steps before the last one.
* `Places`: a file system in which a path holds a text; `Stages.places_of_persist`: the last step.
* `Spares`: a file system after a step that failed; `Stages.spares_discard`: the staged file is
  taken away, or the host refuses that.
* `replaces_replaceText`: one of the two comes of every attempt.
-/

namespace SchemaModels

namespace FileSystem

variable {s s' s'' : FileSystem} {path content : String} {place staged : List String}

/-! ### One more file -/

/-- A file system with one more file than another one, at a place where nothing stood. -/
structure Stages (s s' : FileSystem) (staged : List String) : Prop where
  here_eq : s'.here = s.here
  host_eq : s'.host = s.host
  exists_concat : ∃ place name, staged = place ++ [name] ∧ s.tree.view? place = some .directory
  free : s.tree.view? staged = none
  isFile : ∃ content, s'.tree.view? staged = some (.file content)
  others : ∀ q, q ≠ staged → s'.tree.view? q = s.tree.view? q

/-- A file that is staged lies in the directory it was asked for. -/
theorem stages_of_stage {directory : String} (h : s.stage directory = .ok (staged, s')) :
    Stages s s' staged ∧ ∃ place name, staged = place ++ [name] ∧
      s.locate directory = .ok place := by
  unfold stage at h
  cases hl : s.locate directory with
  | error fault =>
      rw [hl] at h
      cases h
  | ok place =>
      simp only [hl, bind, Except.bind] at h
      split at h
      · rename_i entries hget
        have hplace : s.tree.view? place = some .directory :=
          FileTree.view?_eq_directory_iff.mpr ⟨entries, hget⟩
        split at h
        · rename_i name hname
          split at h
          · cases h
          · rename_i s₁ hchange
            obtain ⟨rfl, rfl⟩ := Prod.mk.inj (Except.ok.inj h)
            obtain ⟨-, rfl⟩ := change_eq_ok_iff.mp hchange
            have hfree : s.tree.view? (place ++ [name]) = none := by
              have hname := List.find?_some hname
              rw [isFree, Bool.and_eq_true_iff] at hname
              exact Option.map_eq_none_iff.mpr (Option.isNone_iff_eq_none.mp hname.2)
            have hput := FileTree.view?_put (FileTree.isLeaf_file ByteArray.empty) hplace
              (by rw [hfree]; simp)
            refine ⟨⟨rfl, rfl, ⟨place, name, rfl, hplace⟩, hfree, ⟨ByteArray.empty, ?_⟩,
              fun q hq => ?_⟩, place, name, rfl, rfl⟩
            · exact (hput _).trans (if_pos rfl)
            · exact (hput q).trans (if_neg hq)
        · cases h
      · cases h
      · cases h

namespace Stages

/-- Something is written to the staged file. -/
theorem withTree_put (h : Stages s s' staged) (bytes : ByteArray) :
    Stages s (s'.withTree (s'.tree.put staged (.file bytes))) staged ∧
      (s'.tree.put staged (.file bytes)).view? staged = some (.file bytes) := by
  obtain ⟨place, name, rfl, hplace⟩ := h.exists_concat
  have hne : place ≠ place ++ [name] := by simp
  obtain ⟨old, hold⟩ := h.isFile
  have hput := FileTree.view?_put (FileTree.isLeaf_file bytes)
    ((h.others place hne).trans hplace) (by rw [hold]; simp)
  have hhere := (hput _).trans (if_pos rfl)
  refine ⟨⟨h.here_eq, h.host_eq, h.exists_concat, h.free, ⟨bytes, hhere⟩, fun q hq => ?_⟩, hhere⟩
  exact ((hput q).trans (if_neg hq)).trans (h.others q hq)

/-- A write leaves the staged file, with the content when it succeeds. -/
theorem write (h : Stages s s' staged) (bytes : ByteArray) :
    Stages s (s'.write staged bytes).2 staged ∧ ((s'.write staged bytes).1 = .ok () →
      (s'.write staged bytes).2.tree.view? staged = some (.file bytes)) := by
  unfold FileSystem.write
  split
  · exact ⟨(h.withTree_put _).1, fun hok => by cases hok⟩
  · exact ⟨(h.withTree_put _).1, fun _ => (h.withTree_put _).2⟩

/-- Without the staged file all is as it was. -/
theorem view?_erase (h : Stages s s' staged) (q : List String) :
    (s'.tree.erase staged).view? q = s.tree.view? q := by
  obtain ⟨place, name, rfl, -⟩ := h.exists_concat
  obtain ⟨old, hold⟩ := h.isFile
  rw [FileTree.view?_erase (by rw [hold]; simp)]
  split
  · rename_i hq
    rw [hq, h.free]
  · rename_i hq
    exact h.others q hq

end Stages

/-! ### A text in place -/

/-- A file system with a text where a path leads. All else that another one has is in it, and it has
nothing else but some more directories, which the names of the path before the last one lead to. -/
structure Places (path content : String) (s s' : FileSystem) (place : List String) : Prop where
  here_eq : s'.here = s.here
  host_eq : s'.host = s.host
  locate : s'.locate path = .ok place
  content : s'.tree.view? place = some (.file content.toUTF8)
  isFile : s.tree.view? place ≠ some .directory
  keeps : ∀ q, q ≠ place → ∀ e, s.tree.view? q = some e → s'.tree.view? q = some e
  added : ∀ q, q ≠ place → ∀ e, s.tree.view? q = none → s'.tree.view? q = some e →
    e = .directory ∧ ∃ steps, steps <+: (Path.names path.toList).dropLast ∧
      s'.tree.follow steps (s.start path) = .ok q

theorem Places.keepsPaths (h : Places path content s s' place) : s.tree.KeepsPaths s'.tree where
  directory q hq := h.keeps q (by rintro rfl; exact h.isFile hq) _ hq
  isSome q hq := by
    obtain ⟨e, he⟩ := Option.isSome_iff_exists.mp hq
    by_cases hplace : q = place
    · rw [hplace, h.content]
      rfl
    · rw [h.keeps q hplace e he]
      rfl

/-- Directories that were made before. -/
theorem Places.of_grows
    (hgrows : Grows (s.start path) (Path.names path.toList).dropLast s s')
    (h : Places path content s' s'' place) : Places path content s s'' place where
  here_eq := h.here_eq.trans hgrows.here_eq
  host_eq := h.host_eq.trans hgrows.host_eq
  locate := h.locate
  content := h.content
  isFile hdirectory := h.isFile (hgrows.keeps place _ hdirectory)
  keeps q hq e he := h.keeps q hq e (hgrows.keeps q e he)
  added q hq e hnone he := by
    cases hmid : s'.tree.view? q with
    | none =>
        rw [← hgrows.start_eq]
        exact h.added q hq e hmid he
    | some e' =>
        obtain rfl : e' = e := Option.some.inj ((h.keeps q hq e' hmid).symm.trans he)
        obtain ⟨hdirectory, steps, hfirst, hsteps⟩ := hgrows.added q e' hnone hmid
        exact ⟨hdirectory, steps, hfirst, h.keepsPaths.follow hsteps⟩

/-- The place that a staged file takes, and what becomes of the tree. -/
theorem exists_of_persist (h : s.persist staged path = .ok s') : ∃ place name node,
    s.slot path = .ok (place, name) ∧ Path.isDots name = false ∧
      Path.endsOpen path.toList = false ∧ s.tree.view? (place ++ [name]) ≠ some .directory ∧
      s.tree.get? staged = some node ∧
      s' = s.withTree ((s.tree.erase staged).put (place ++ [name]) node) := by
  unfold persist at h
  cases hslot : s.slot path with
  | error fault =>
      rw [hslot] at h
      cases h
  | ok slot =>
      obtain ⟨place, name⟩ := slot
      simp only [hslot, bind, Except.bind] at h
      split at h
      · cases h
      · rename_i hname
        split at h
        · cases h
        · rename_i hopen
          split at h
          · cases h
          · rename_i hfree
            split at h
            · rename_i node hnode
              refine ⟨place, name, node, rfl, by simpa using hname, by simpa using hopen, ?_,
                hnode, (change_eq_ok_iff.mp h).2⟩
              intro hdirectory
              obtain ⟨entries, hget⟩ := FileTree.view?_eq_directory_iff.mp hdirectory
              rw [hget] at hfree
              exact hfree rfl
            · cases h

/-- A staged file with a text takes the place of a path: it stands there and nowhere else. -/
theorem Stages.places_of_persist (h : Stages s s' staged)
    (htext : s'.tree.view? staged = some (.file content.toUTF8))
    (hpersist : s'.persist staged path = .ok s'') : ∃ place, Places path content s s'' place := by
  obtain ⟨place, name, node, hslot, hname, hopen, hfile, hnode, rfl⟩ := exists_of_persist hpersist
  obtain rfl : node = .file content.toUTF8 :=
    Option.some.inj (hnode.symm.trans (FileTree.view?_eq_file_iff.mp htext))
  obtain ⟨hempty, steps, hnames, hfollow, hplace⟩ := exists_of_slot hslot hname
  -- the directories are those there were before, with or without the staged file
  have hdirectories : ∀ q,
      s'.tree.view? q = some .directory ↔ s.tree.view? q = some .directory := by
    intro q
    by_cases hq : q = staged
    · rw [hq, htext, h.free]
      simp
    · rw [h.others q hq]
  have hold : s.tree.view? (place ++ [name]) ≠ some .directory := fun hd =>
    hfile ((hdirectories _).mpr hd)
  have hput := FileTree.view?_put (t := s'.tree.erase staged)
    (FileTree.isLeaf_file content.toUTF8)
    ((h.view?_erase place).trans ((hdirectories place).mp hplace))
    (by rw [h.view?_erase]; exact hold)
  have hview : ∀ q, ((s'.tree.erase staged).put (place ++ [name])
      (.file content.toUTF8)).view? q =
        if q = place ++ [name] then some (.file content.toUTF8) else s.tree.view? q := fun q => by
    rw [hput, h.view?_erase]
    rfl
  have hkept : ∀ q, s.tree.view? q = some .directory → ((s'.tree.erase staged).put (place ++ [name])
      (.file content.toUTF8)).view? q = some .directory := fun q hq => by
    rw [hview, if_neg, hq]
    rintro rfl
    exact hold hq
  have hhere := (hview (place ++ [name])).trans (if_pos rfl)
  refine ⟨place ++ [name], h.here_eq, h.host_eq, ?_, hhere, hold, fun q hq e he => ?_,
    fun q hq e hnone he => ?_⟩
  · unfold FileSystem.locate
    rw [if_neg (by rw [hempty]; decide), Path.steps, hopen, hnames, if_neg Bool.false_ne_true,
      List.append_nil]
    have hsteps := FileTree.follow_of_directories
      (fun q hq => hkept q ((hdirectories q).mp hq)) hfollow hplace
    have hsome := congrArg Option.isSome hhere
    exact FileTree.follow_concat hsteps (hkept _ ((hdirectories place).mp hplace)) hname hsome
  · exact (hview q).trans ((if_neg hq).trans he)
  · have hsome := ((hview q).trans (if_neg hq)).symm.trans he
    rw [hnone] at hsome
    cases hsome

/-! ### A failure -/

/-- A file system after an attempt that failed. All that another one has is in it. It has nothing
else but some more directories, which the names of a path before the last one lead to, and a staged
file if the host refuses to take it away. -/
structure Spares (path : String) (s s' : FileSystem) : Prop where
  here_eq : s'.here = s.here
  host_eq : s'.host = s.host
  keeps : s.tree.Keeps s'.tree
  added : ∃ staged, ∀ q e, s.tree.view? q = none → s'.tree.view? q = some e →
    (e = .directory ∧ ∃ steps, steps <+: (Path.names path.toList).dropLast ∧
      s'.tree.follow steps (s.start path) = .ok q) ∨
    (q = staged ∧ (∃ bytes, e = .file bytes) ∧
      (s.host.refusal? s'.tree (.removeFile staged)).isSome)

theorem Grows.spares (h : Grows (s.start path) (Path.names path.toList).dropLast s s') :
    Spares path s s' where
  here_eq := h.here_eq
  host_eq := h.host_eq
  keeps := h.keeps
  added := ⟨[], fun q e hnone hsome => .inl (h.added q e hnone hsome)⟩

/-- Directories that were made before. -/
theorem Spares.of_grows
    (hgrows : Grows (s.start path) (Path.names path.toList).dropLast s s')
    (h : Spares path s' s'') : Spares path s s'' where
  here_eq := h.here_eq.trans hgrows.here_eq
  host_eq := h.host_eq.trans hgrows.host_eq
  keeps := hgrows.keeps.trans h.keeps
  added := by
    obtain ⟨staged, hadded⟩ := h.added
    rw [hgrows.host_eq, hgrows.start_eq] at hadded
    refine ⟨staged, fun q e hnone hsome => ?_⟩
    cases hmid : s'.tree.view? q with
    | none => exact hadded q e hmid hsome
    | some e' =>
        obtain rfl : e' = e := Option.some.inj ((h.keeps q e' hmid).symm.trans hsome)
        obtain ⟨hdirectory, steps, hfirst, hsteps⟩ := hgrows.added q e' hnone hmid
        exact .inl ⟨hdirectory, steps, hfirst, h.keeps.keepsPaths.follow hsteps⟩

/-- The staged file is taken away, or stays where the host refuses that. -/
theorem Stages.spares_discard (h : Stages s s' staged) (path : String) :
    Spares path s (s'.discard staged) := by
  unfold discard
  cases hrefusal : s'.host.refusal? s'.tree (.removeFile staged) with
  | none =>
      have hgone : s'.change (.removeFile staged) (s'.tree.erase staged) =
        .ok (s'.withTree (s'.tree.erase staged)) := change_eq_ok_iff.mpr ⟨hrefusal, rfl⟩
      rw [hgone]
      refine ⟨h.here_eq, h.host_eq, fun q e he => (h.view?_erase q).trans he, [],
        fun q e hnone hsome => ?_⟩
      have hsome := (h.view?_erase q).symm.trans hsome
      rw [hnone] at hsome
      cases hsome
  | some fault =>
      have hstays : s'.change (.removeFile staged) (s'.tree.erase staged) = .error fault := by
        rw [change, hrefusal]
      rw [hstays]
      refine ⟨h.here_eq, h.host_eq, fun q e he => ?_, staged, fun q e hnone hsome => .inr ?_⟩
      · refine (h.others q ?_).trans he
        rintro rfl
        rw [h.free] at he
        cases he
      · obtain rfl : q = staged := by
          by_contra hq
          have hsome := (h.others q hq).symm.trans hsome
          rw [hnone] at hsome
          cases hsome
        obtain ⟨bytes, hbytes⟩ := h.isFile
        refine ⟨rfl, ⟨bytes, Option.some.inj (hsome.symm.trans hbytes)⟩, ?_⟩
        dsimp only
        rw [← h.host_eq, hrefusal]
        rfl

/-! ### Attempts -/

theorem perform_stage (directory : String) :
    s.perform (FileAccess.stage directory) = s.settleStaged (s.stage directory) := rfl

theorem perform_orDiscard (staged : List String)
    (work : ExceptT FileFault (StateM FileSystem) Unit) :
    s.perform (orDiscard (m := StateM FileSystem) staged work) =
      match s.perform work.run with
      | (.ok _, s') => (.ok (), s')
      | (.error fault, s') => (.error fault, s'.discard staged) := by
  unfold orDiscard
  rw [perform_bind]
  generalize s.perform work.run = outcome
  obtain ⟨result, s'⟩ := outcome
  cases result <;> rfl

/-- The steps after a file is staged, each from the file system that the one before has left. -/
theorem perform_finish (staged : List String) (path content : String) :
    s.perform (finish (m := StateM FileSystem) staged path content).run =
      match s.write staged content.toUTF8 with
      | (.error fault, s') => (.error fault, s')
      | (.ok _, s') =>
          match s'.sync staged with
          | .error fault => (.error fault, s')
          | .ok _ => s'.settle (s'.persist staged path) := by
  have hwrite : s.perform (ExceptT.mk (FileAccess.write (m := StateM FileSystem) staged
      content)).run = s.write staged content.toUTF8 := rfl
  unfold finish
  rw [perform_run_bind, hwrite]
  generalize s.write staged content.toUTF8 = written
  obtain ⟨result, s'⟩ := written
  cases result with
  | error fault => rfl
  | ok _ =>
      have hsync : s'.perform (ExceptT.mk (FileAccess.sync (m := StateM FileSystem) staged)).run =
        (s'.sync staged, s') := rfl
      dsimp only
      rw [perform_run_bind, hsync]
      cases s'.sync staged <;> rfl

/-- What may come of an attempt to put a text in the place of a path, and of the file system. -/
inductive Replaces (path content : String) (s : FileSystem) :
    Except FileFault Unit × FileSystem → Prop
  | placed {s' : FileSystem} {place : List String} (h : Places path content s s' place) :
      Replaces path content s (.ok (), s')
  | spared {s' : FileSystem} {fault : FileFault} (h : Spares path s s') :
      Replaces path content s (.error fault, s')

/-- Every attempt puts the text in place or spares what there was. -/
theorem replaces_replaceText (s : FileSystem) (directory path content : String) :
    Replaces path content s (s.perform (replaceText directory path content)) := by
  unfold replaceText
  rw [perform_bind, perform_stage]
  cases hstage : s.stage directory with
  | error fault => exact .spared (Grows.refl _ _ s).spares
  | ok found =>
      obtain ⟨staged, s₁⟩ := found
      have hstaged := (stages_of_stage hstage).1
      obtain ⟨hwritten, htext⟩ := hstaged.write content.toUTF8
      dsimp only [settleStaged]
      rw [perform_orDiscard, perform_finish]
      generalize s₁.write staged content.toUTF8 = written at hwritten htext
      obtain ⟨result, s₂⟩ := written
      dsimp only at hwritten htext
      cases result with
      | error fault => exact .spared (hwritten.spares_discard path)
      | ok _ =>
          dsimp only
          cases s₂.sync staged with
          | error fault => exact .spared (hwritten.spares_discard path)
          | ok _ =>
              dsimp only
              cases hpersist : s₂.persist staged path with
              | error fault => exact .spared (hwritten.spares_discard path)
              | ok s₃ =>
                  obtain ⟨place, hplaces⟩ := hwritten.places_of_persist (htext rfl) hpersist
                  exact .placed hplaces

end FileSystem

end SchemaModels
