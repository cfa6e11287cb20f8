import SchemaModels.Proofs.Canonical.Bound

/-!
# Steps without an end

A step of a reading does not end only when a reading that it asks for does not. So whatever has no
end has an endless way down, from reading to reading.

* `exists_of_readFields_endless`, `exists_of_readItems_endless`, `exists_of_readEntries_endless`,
  `exists_of_firstAccepted_endless`: the same for the parts of a step.
* `exists_calls_of_endless`: the reading that is asked for and has no end.
* `Table.exists_calls_of_reading_endless`: the same for bounded readings.
* `Table.readWithin_chain`, `readWithin_chains`: a default that holds an object can lead to itself.
-/

namespace SchemaModels.Canonical

variable {t : Table} {read : Place → Json → Path → Reading} {path : Path}

/-! ### Parts of a step -/

theorem bind_eq_endless_iff {α β : Type} {x : Except CanonicalError α}
    {f : α → Except CanonicalError β} : x >>= f = .error .endless ↔
      x = .error .endless ∨ ∃ a, x = .ok a ∧ f a = .error .endless := by
  cases x <;> simp [bind, Except.bind]

theorem map_eq_endless_iff {α β : Type} {x : Except CanonicalError α} {f : α → β} :
    x.map f = .error .endless ↔ x = .error .endless := by
  cases x <;> simp [Except.map]

theorem exists_of_firstAccepted_endless {α : Type} {attempt : α → Reading}
    {refusal : CanonicalError} (hr : refusal ≠ .endless) : ∀ {ms : List α},
    firstAccepted attempt refusal ms = .error .endless → ∃ m ∈ ms, attempt m = .error .endless
  | [], h => absurd (Except.error.inj h) hr
  | m :: rest, h => by
      cases hm : outcome (attempt m) with
      | endless => exact ⟨m, List.mem_cons_self, outcome_eq_endless.mp hm⟩
      | refused =>
          rw [firstAccepted_cons_of_refused hm] at h
          obtain ⟨x, hx, hend⟩ := exists_of_firstAccepted_endless hr h
          exact ⟨x, List.mem_cons_of_mem m hx, hend⟩
      | value w =>
          rw [firstAccepted_cons_of_value (outcome_eq_value.mp hm)] at h
          cases h

theorem exists_of_readFields_endless {record : Record} {given : Entries} :
    ∀ {fields : List (String × Spec)}, readFields read record given path fields = .error .endless →
    ∃ f ∈ fields, ∃ v p, fieldValue (Entries.get? given f.1) f.2 (record.isRequired f.1) = some v ∧
      read (.spec f.2) v p = .error .endless
  | [], h => by cases h
  | (f, s) :: rest, h => by
      have hrest : readFields read record given path rest = .error .endless → _ :=
        exists_of_readFields_endless
      rw [readFields] at h
      cases hv : fieldValue (Entries.get? given f) s (record.isRequired f) with
      | some v =>
          simp only [hv, bind_eq_endless_iff] at h
          rcases h with h | ⟨_, _, h | ⟨_, _, h⟩⟩
          · exact ⟨(f, s), List.mem_cons_self, v, _, hv, h⟩
          · obtain ⟨g, hg, hend⟩ := hrest h
            exact ⟨g, List.mem_cons_of_mem _ hg, hend⟩
          · cases h
      | none =>
          simp only [hv] at h
          split at h
          · cases h
          · obtain ⟨g, hg, hend⟩ := hrest h
            exact ⟨g, List.mem_cons_of_mem _ hg, hend⟩

theorem exists_of_readItems_endless : ∀ {index : Nat} {pairs : List (Spec × Json)},
    readItems read path index pairs = .error .endless →
    ∃ e ∈ pairs, ∃ p, read (.spec e.1) e.2 p = .error .endless
  | _, [], h => by cases h
  | index, (s, v) :: rest, h => by
      rw [readItems] at h
      simp only [bind_eq_endless_iff] at h
      rcases h with h | ⟨_, _, h | ⟨_, _, h⟩⟩
      · exact ⟨(s, v), List.mem_cons_self, _, h⟩
      · obtain ⟨e, he, hend⟩ := exists_of_readItems_endless h
        exact ⟨e, List.mem_cons_of_mem _ he, hend⟩
      · cases h

theorem exists_of_readEntries_endless {value : Option Spec} : ∀ {entries : Entries},
    readEntries read value path entries = .error .endless →
    ∃ e ∈ entries, ∃ c ∈ value, ∃ p, read (.spec c) e.2 p = .error .endless
  | [], h => by cases h
  | (key, v) :: rest, h => by
      have hrest : readEntries read value path rest = .error .endless →
          ∃ e ∈ (key, v) :: rest, ∃ c ∈ value, ∃ p, read (.spec c) e.2 p = .error .endless := by
        intro h
        obtain ⟨e, he, hend⟩ := exists_of_readEntries_endless h
        exact ⟨e, List.mem_cons_of_mem _ he, hend⟩
      rw [readEntries] at h
      split at h
      · exact hrest h
      · cases value with
        | none =>
            simp only [bind_eq_endless_iff] at h
            rcases h with h | ⟨_, _, h | ⟨_, _, h⟩⟩
            · cases h
            · exact hrest h
            · cases h
        | some c =>
            simp only [bind_eq_endless_iff] at h
            rcases h with h | ⟨_, _, h | ⟨_, _, h⟩⟩
            · exact ⟨(key, v), List.mem_cons_self, c, rfl, _, h⟩
            · exact hrest h
            · cases h

theorem scalar_ne_endless (kind : Primitive) (v : Json) : scalar kind v path ≠ .error .endless := by
  cases kind <;> cases v <;> simp only [scalar, ne_eq, reduceCtorEq, not_false_eq_true,
    Except.error.injEq]
  · rename_i n
    cases n.toInteger? <;> simp
  · rename_i n
    cases n.toReal? <;> simp

/-! ### Steps -/

theorem exists_calls_of_readDefinition_endless {name : String} {v : Json}
    (h : readDefinition t read name v path = .error .endless) :
    ∃ place w p, Calls t (.definition name) v place w ∧ read place w p = .error .endless := by
  rw [readDefinition] at h
  cases hd : t.get? name with
  | none => simp [hd] at h
  | some d =>
      rw [hd, Option.map_some] at h
      cases hk : d.kind with
      | enum values =>
          simp only [hk] at h
          split at h <;> cases h
      | object record =>
          simp only [hk] at h
          cases v with
          | object given =>
              obtain ⟨f, hf, w, p, hw, hend⟩ :=
                exists_of_readFields_endless (map_eq_endless_iff.mp h)
              exact ⟨_, w, p, .field hd hk hf hw, hend⟩
          | _ => cases h
      | union members tag =>
          simp only [hk] at h
          cases hm : tag.bind fun tag => taggedMember t members tag v with
          | some m =>
              obtain ⟨_, _, htag⟩ := Option.bind_eq_some_iff.mp hm
              simp only [hm] at h
              exact ⟨_, v, path, .member hd hk (mem_of_taggedMember htag), h⟩
          | none =>
              simp only [hm] at h
              obtain ⟨m, hm, hend⟩ := exists_of_firstAccepted_endless (by simp) h
              exact ⟨_, v, path, .member hd hk hm, hend⟩
      | typeAlias s =>
          simp only [hk] at h
          exact ⟨_, v, path, .typeAlias hd hk, h⟩

theorem exists_calls_of_readShape_endless {s : Spec} {v : Json}
    (h : readShape t read s.shape v path = .error .endless) :
    ∃ place w p, Calls t (.spec s) v place w ∧ read place w p = .error .endless := by
  cases hs : s.shape with
  | primitive kind =>
      rw [hs] at h
      exact absurd h (scalar_ne_endless kind v)
  | literal values =>
      rw [hs, readShape] at h
      split at h <;> cases h
  | const value =>
      rw [hs, readShape] at h
      split at h <;> cases h
  | array c =>
      rw [hs, readShape.eq_def] at h
      cases v with
      | array items =>
          obtain ⟨e, he, p, hend⟩ := exists_of_readItems_endless (map_eq_endless_iff.mp h)
          obtain ⟨w, hw, rfl⟩ := List.mem_map.mp he
          exact ⟨_, w, p, .item hs hw, hend⟩
      | _ => cases h
  | tuple specs =>
      rw [hs, readShape.eq_def] at h
      cases v with
      | array items =>
          dsimp only at h
          split at h
          · obtain ⟨e, he, p, hend⟩ := exists_of_readItems_endless (map_eq_endless_iff.mp h)
            exact ⟨_, e.2, p, .element hs he, hend⟩
          · cases h
      | _ => cases h
  | map value =>
      rw [hs, readShape.eq_def] at h
      cases v with
      | object entries =>
          obtain ⟨e, he, c, hc, p, hend⟩ := exists_of_readEntries_endless (map_eq_endless_iff.mp h)
          exact ⟨_, e.2, p, .entry (hc ▸ hs) he, hend⟩
      | _ => cases h
  | reference name =>
      rw [hs] at h
      exact ⟨_, v, path, .reference hs, h⟩
  | union members tag =>
      rw [hs, readShape, readUnion] at h
      cases hm : (memberNames members).bind fun names =>
          tag.bind fun tag => taggedMember t names tag v with
      | some m =>
          obtain ⟨names, hnames, hm'⟩ := Option.bind_eq_some_iff.mp hm
          obtain ⟨_, _, htag⟩ := Option.bind_eq_some_iff.mp hm'
          rw [hm] at h
          exact ⟨_, v, path, .tagged hs hnames (mem_of_taggedMember htag), h⟩
      | none =>
          rw [hm] at h
          obtain ⟨c, hc, hend⟩ := exists_of_firstAccepted_endless (by simp) h
          exact ⟨_, v, path, .alternative hs hc, hend⟩
  | any =>
      rw [hs] at h
      cases h

/-- A step does not end only when a reading it asks for does not. -/
theorem exists_calls_of_endless {place : Place} {v : Json}
    (h : readPlace t read place v path = .error .endless) :
    ∃ place' w p, Calls t place v place' w ∧ read place' w p = .error .endless := by
  cases place with
  | definition name => exact exists_calls_of_readDefinition_endless h
  | spec s =>
      rw [readPlace, readSpec] at h
      split at h
      · split at h <;> cases h
      · exact exists_calls_of_readShape_endless h

end SchemaModels.Canonical

namespace SchemaModels.Table

open Canonical

/-- A bounded reading without an end asks for another one. -/
theorem exists_calls_of_reading_endless {t : Table} {place : Place} {v : Json} {path : Path}
    (hp : t.Has place) (h : t.reading place v path = .error .endless) :
    ∃ place' w p, Calls t place v place' w ∧ t.reading place' w p = .error .endless := by
  have hstep : outcome (readPlace t t.reading place v path) = .endless := by
    rw [← outcome_reading hp path path, h]
    rfl
  exact exists_calls_of_endless (outcome_eq_endless.mp hstep)

/-! ### A table of chains -/

/-- A chain goes on with a chain, an empty one by default. -/
def link : Spec := { shape := .reference "Chain", default := some (.object []) }

/-- Jewels tell by their kind what they are. What lies in a drawer may be chains by their names. -/
def chains : Table where
  root := { metadataType := "Box", rootType := "Jewel" }
  definitions :=
    [⟨"Chain", none, .object ⟨[("next", link)], [], false, by decide⟩⟩,
     ⟨"Knot", none, .object
       ⟨[("chain", link), ("kind", { shape := .const (.string "knot") })], ["kind"], false,
         by decide⟩⟩,
     ⟨"Bead", none, .object
       ⟨[("kind", { shape := .const (.string "bead") })], ["kind"], false, by decide⟩⟩,
     ⟨"Jewel", none, .union ["Knot", "Bead"] (some "kind")⟩,
     ⟨"Chains", none, .typeAlias { shape := .map (some { shape := .reference "Chain" }) }⟩,
     ⟨"Box", none, .object ⟨[], [], false, by decide⟩⟩,
     ⟨"Drawer", none, .union ["Chains", "Box"] none⟩]
  names_nodup := by decide

/-- Reading an empty chain has no end: each default asks for the next one. -/
theorem readWithin_chain (n : Nat) : ∀ path : Path,
    readWithin chains n (.definition "Chain") (.object []) path = .error .endless ∧
      readWithin chains n (.spec link) (.object []) path = .error .endless := by
  induction n with
  | zero => exact fun path => ⟨rfl, rfl⟩
  | succ n ih =>
      refine fun path => ⟨?_, (ih path).1⟩
      show (readWithin chains n (.spec link) (.object []) _ >>= fun w => _).map Json.object = _
      rw [(ih _).2]
      rfl

/-- Chains by their names are read in the order in which they are given, so that nothing after an
empty one is looked at. -/
theorem readWithin_chains (n : Nat) (name : String) (rest : Entries) (path : Path) :
    readWithin chains n (.definition "Chains") (.object ((name, .object []) :: rest)) path =
      .error .endless := by
  match n with
  | 0 => rfl
  | 1 => rfl
  | 2 => rfl
  | n + 3 =>
      show (readWithin chains n (.definition "Chain") (.object []) _ >>= fun w => _).map
        Json.object = _
      rw [(readWithin_chain n _).1]
      rfl

end SchemaModels.Table
