import Mathlib.Order.Basic
import SchemaModels.Canonical.Basic

/-!
# Outcomes of readings

A reading gives a value, refuses, or does not end within its steps. Outcomes are ordered so that
what does not end is below everything else and all else is apart. The words of a refusal and the
place it names are no part of the outcome.

* `Calls`: the readings that a reading asks for.
* `outcome_readPlace_le`: a step keeps the order of outcomes of the readings it asks for.
* `outcome_readWithin_path`: the place of the document does not matter.
* `outcome_readWithin_mono`: more steps only change what did not end.
-/

namespace SchemaModels.Canonical

/-- What comes of a reading. -/
inductive Outcome (α : Type) where
  | endless
  | refused
  | value (a : α)

namespace Outcome
variable {α β : Type}

instance : PartialOrder (Outcome α) where
  le a b := a = endless ∨ a = b
  le_refl _ := .inr rfl
  le_trans _ _ _ h h' := h.elim .inl fun e => e ▸ h'
  le_antisymm a b h h' := by
    rcases h with rfl | h
    · exact (h'.elim id id).symm
    · exact h

theorem eq_of_le {a b : Outcome α} (h : a ≤ b) (ha : a ≠ endless) : b = a :=
  (h.resolve_left ha).symm

end Outcome

section outcome
variable {α β : Type}

def outcome : Except CanonicalError α → Outcome α
  | .ok a => .value a
  | .error .endless => .endless
  | .error _ => .refused

theorem outcome_eq_value {x : Except CanonicalError α} {a : α} :
    outcome x = .value a ↔ x = .ok a := by
  cases x with
  | ok b => simp [outcome]
  | error e => cases e <;> simp [outcome]

theorem outcome_eq_endless {x : Except CanonicalError α} :
    outcome x = .endless ↔ x = .error .endless := by
  cases x with
  | ok b => simp [outcome]
  | error e => cases e <;> simp [outcome]

/-- A refusal is an error, but for the one that stands for no end. -/
theorem outcome_eq_refused {x : Except CanonicalError α} :
    outcome x = .refused ↔ ∃ e, x = .error e ∧ e ≠ .endless := by
  cases x with
  | ok b => simp [outcome]
  | error e => cases e <;> simp [outcome]

theorem outcome_bind_le {x y : Except CanonicalError α} {f g : α → Except CanonicalError β}
    (h : outcome x ≤ outcome y) (hf : ∀ a, outcome (f a) ≤ outcome (g a)) :
    outcome (x >>= f) ≤ outcome (y >>= g) := by
  rcases h with h | h
  · rw [outcome_eq_endless.mp h]
    exact .inl rfl
  · cases x with
    | ok a =>
        rw [outcome_eq_value.mp h.symm]
        exact hf a
    | error e =>
        cases y with
        | ok b => exact absurd (outcome_eq_value.mp h) (by simp)
        | error e' =>
            right
            cases e with
            | endless =>
                obtain rfl := Except.error.inj (outcome_eq_endless.mp h.symm)
                rfl
            | _ =>
                cases e' with
                | endless => cases h
                | _ => rfl

theorem outcome_map_le {x y : Except CanonicalError α} (f : α → β)
    (h : outcome x ≤ outcome y) : outcome (x.map f) ≤ outcome (y.map f) := by
  have hm : ∀ z : Except CanonicalError α, z.map f = z >>= fun a => .ok (f a) := fun z => by
    cases z <;> rfl
  rw [hm, hm]
  exact outcome_bind_le h fun _ => .inr rfl

end outcome

/-! ### Calls -/

/-- The readings that a reading of a value at a place asks for. -/
inductive Calls (t : Table) : Place → Json → Place → Json → Prop
  /-- A field is read from what is given, or from what is implied. -/
  | field {name : String} {d : Definition} {record : Record} {given : Entries} {f : String}
      {s : Spec} {v : Json} (hd : t.get? name = some d) (hk : d.kind = .object record)
      (hf : (f, s) ∈ record.fields)
      (hv : fieldValue (Entries.get? given f) s (record.isRequired f) = some v) :
      Calls t (.definition name) (.object given) (.spec s) v
  | member {name : String} {d : Definition} {members : List String} {tag : Option String}
      {m : String} {v : Json} (hd : t.get? name = some d) (hk : d.kind = .union members tag)
      (hm : m ∈ members) : Calls t (.definition name) v (.definition m) v
  | typeAlias {name : String} {d : Definition} {s : Spec} {v : Json}
      (hd : t.get? name = some d) (hk : d.kind = .typeAlias s) :
      Calls t (.definition name) v (.spec s) v
  | item {s c : Spec} {items : List Json} {v : Json} (hs : s.shape = .array c)
      (hv : v ∈ items) : Calls t (.spec s) (.array items) (.spec c) v
  | element {s c : Spec} {specs : List Spec} {items : List Json} {v : Json}
      (hs : s.shape = .tuple specs) (hv : (c, v) ∈ List.zip specs items) :
      Calls t (.spec s) (.array items) (.spec c) v
  | entry {s c : Spec} {entries : Entries} {e : String × Json} (hs : s.shape = .map (some c))
      (he : e ∈ entries) : Calls t (.spec s) (.object entries) (.spec c) e.2
  | reference {s : Spec} {name : String} {v : Json} (hs : s.shape = .reference name) :
      Calls t (.spec s) v (.definition name) v
  /-- A union of bare references is read as the definition that the tag tells. -/
  | tagged {s : Spec} {members : List Spec} {tag : Option String} {names : List String}
      {m : String} {v : Json} (hs : s.shape = .union members tag)
      (hn : memberNames members = some names) (hm : m ∈ names) :
      Calls t (.spec s) v (.definition m) v
  | alternative {s c : Spec} {members : List Spec} {tag : Option String} {v : Json}
      (hs : s.shape = .union members tag) (hc : c ∈ members) : Calls t (.spec s) v (.spec c) v

/-! ### One step -/

theorem mem_of_taggedMember {t : Table} {members : List String} {tag : String} {v : Json}
    {m : String} (h : taggedMember t members tag v = some m) : m ∈ members := by
  obtain ⟨_, _, hfind⟩ := Option.bind_eq_some_iff.mp h
  exact List.mem_of_find?_eq_some hfind

section step
variable {t : Table} {read read' : Place → Json → Path → Reading}

section firstAccepted
variable {α : Type} {attempt attempt' : α → Reading} {refusal refusal' : CanonicalError} {m : α}
  {rest : List α}

theorem firstAccepted_cons_of_value {w : Json} (h : attempt m = .ok w) :
    firstAccepted attempt refusal (m :: rest) = .ok w := by
  rw [firstAccepted, h]

theorem firstAccepted_cons_of_endless (h : attempt m = .error .endless) :
    firstAccepted attempt refusal (m :: rest) = .error .endless := by
  rw [firstAccepted, h]

theorem firstAccepted_cons_of_refused (h : outcome (attempt m) = .refused) :
    firstAccepted attempt refusal (m :: rest) = firstAccepted attempt refusal rest := by
  obtain ⟨e, he, hne⟩ := outcome_eq_refused.mp h
  rw [firstAccepted, he]
  cases e with
  | endless => exact absurd rfl hne
  | _ => rfl

end firstAccepted

theorem outcome_firstAccepted_le {α : Type} {attempt attempt' : α → Reading}
    {refusal refusal' : CanonicalError} (hr : outcome (.error refusal : Reading) = .refused)
    (hr' : outcome (.error refusal' : Reading) = .refused) : ∀ {ms : List α},
    (∀ m ∈ ms, outcome (attempt m) ≤ outcome (attempt' m)) →
    outcome (firstAccepted attempt refusal ms) ≤ outcome (firstAccepted attempt' refusal' ms)
  | [], _ => .inr (hr.trans hr'.symm)
  | m :: rest, h => by
      obtain ⟨hm, hrest⟩ := List.forall_mem_cons.mp h
      cases hx : outcome (attempt m) with
      | endless =>
          rw [firstAccepted_cons_of_endless (outcome_eq_endless.mp hx)]
          exact .inl rfl
      | refused =>
          have hx' := Outcome.eq_of_le hm (by simp [hx])
          rw [firstAccepted_cons_of_refused hx, firstAccepted_cons_of_refused (hx'.trans hx)]
          exact outcome_firstAccepted_le hr hr' hrest
      | value w =>
          have hx' := Outcome.eq_of_le hm (by simp [hx])
          rw [firstAccepted_cons_of_value (outcome_eq_value.mp hx),
            firstAccepted_cons_of_value (outcome_eq_value.mp (hx'.trans hx))]

theorem outcome_readFields_le {record : Record} {given : Entries} {path path' : Path} :
    ∀ {fields : List (String × Spec)},
    (∀ f ∈ fields, ∀ v, fieldValue (Entries.get? given f.1) f.2 (record.isRequired f.1) = some v →
      ∀ p p', outcome (read (.spec f.2) v p) ≤ outcome (read' (.spec f.2) v p')) →
    outcome (readFields read record given path fields) ≤
      outcome (readFields read' record given path' fields)
  | [], _ => .inr rfl
  | f :: rest, h => by
      obtain ⟨hf, hrest⟩ := List.forall_mem_cons.mp h
      rw [readFields, readFields]
      cases hv : fieldValue (Entries.get? given f.1) f.2 (record.isRequired f.1) with
      | some v =>
          exact outcome_bind_le (hf v hv _ _) fun w =>
            outcome_bind_le (outcome_readFields_le hrest) fun _ => .inr rfl
      | none =>
          cases record.isRequired f.1 with
          | true => exact .inr rfl
          | false => exact outcome_readFields_le hrest

theorem outcome_readItems_le {path path' : Path} : ∀ {index : Nat} {pairs : List (Spec × Json)},
    (∀ e ∈ pairs, ∀ p p', outcome (read (.spec e.1) e.2 p) ≤ outcome (read' (.spec e.1) e.2 p')) →
    outcome (readItems read path index pairs) ≤ outcome (readItems read' path' index pairs)
  | _, [], _ => .inr rfl
  | index, e :: rest, h => by
      obtain ⟨he, hrest⟩ := List.forall_mem_cons.mp h
      exact outcome_bind_le (he _ _) fun w =>
        outcome_bind_le (outcome_readItems_le hrest) fun _ => .inr rfl

theorem outcome_readEntries_le {value : Option Spec} {path path' : Path} : ∀ {entries : Entries},
    (∀ e ∈ entries, ∀ c, value = some c →
      ∀ p p', outcome (read (.spec c) e.2 p) ≤ outcome (read' (.spec c) e.2 p')) →
    outcome (readEntries read value path entries) ≤ outcome (readEntries read' value path' entries)
  | [], _ => .inr rfl
  | e :: rest, h => by
      obtain ⟨he, hrest⟩ := List.forall_mem_cons.mp h
      rw [readEntries, readEntries]
      cases e.2.isNull with
      | true => exact outcome_readEntries_le hrest
      | false =>
          cases value with
          | some c =>
              exact outcome_bind_le (he c rfl _ _) fun w =>
                outcome_bind_le (outcome_readEntries_le hrest) fun _ => .inr rfl
          | none =>
              exact outcome_bind_le (.inr rfl) fun w =>
                outcome_bind_le (outcome_readEntries_le hrest) fun _ => .inr rfl

theorem outcome_readDefinition_le {name : String} {v : Json}
    (h : ∀ place w, Calls t (.definition name) v place w →
      ∀ p p', outcome (read place w p) ≤ outcome (read' place w p')) (path path' : Path) :
    outcome (readDefinition t read name v path) ≤
      outcome (readDefinition t read' name v path') := by
  rw [readDefinition, readDefinition]
  cases hd : t.get? name with
  | none => exact .inr rfl
  | some d =>
      rw [Option.map_some]
      cases hk : d.kind with
      | enum values =>
          dsimp only
          split <;> exact .inr rfl
      | object record =>
          cases v with
          | object given =>
              refine outcome_map_le _ (outcome_readFields_le fun f hf w hw => ?_)
              exact h _ _ (.field hd hk hf hw)
          | _ => exact .inr rfl
      | union members tag =>
          dsimp only
          cases hm : tag.bind fun tag => taggedMember t members tag v with
          | some m =>
              obtain ⟨_, _, hm⟩ := Option.bind_eq_some_iff.mp hm
              exact h _ _ (.member hd hk (mem_of_taggedMember hm)) _ _
          | none =>
              exact outcome_firstAccepted_le rfl rfl fun m hm => h _ _ (.member hd hk hm) _ _
      | typeAlias s => exact h _ _ (.typeAlias hd hk) _ _

theorem outcome_readUnion_le {members : List Spec} {tag : Option String} {v : Json}
    {path path' : Path}
    (hnames : ∀ names, memberNames members = some names → ∀ m ∈ names,
      ∀ p p', outcome (read (.definition m) v p) ≤ outcome (read' (.definition m) v p'))
    (hmembers : ∀ c ∈ members,
      ∀ p p', outcome (read (.spec c) v p) ≤ outcome (read' (.spec c) v p')) :
    outcome (readUnion t read members tag v path) ≤
      outcome (readUnion t read' members tag v path') := by
  rw [readUnion, readUnion]
  cases hm : (memberNames members).bind fun names =>
      tag.bind fun tag => taggedMember t names tag v with
  | some m =>
      obtain ⟨names, hn, hm⟩ := Option.bind_eq_some_iff.mp hm
      obtain ⟨_, _, hm⟩ := Option.bind_eq_some_iff.mp hm
      exact hnames names hn m (mem_of_taggedMember hm) _ _
  | none => exact outcome_firstAccepted_le rfl rfl fun c hc => hmembers c hc _ _

theorem outcome_scalar_path (kind : Primitive) (v : Json) (path path' : Path) :
    outcome (scalar kind v path) = outcome (scalar kind v path') := by
  cases kind <;> cases v <;> try rfl
  · rename_i n
    cases h : n.toInteger? <;> simp [scalar, h, outcome]
  · rename_i n
    cases h : n.toReal? <;> simp [scalar, h, outcome]

theorem outcome_readShape_le {s : Spec} {v : Json}
    (h : ∀ place w, Calls t (.spec s) v place w →
      ∀ p p', outcome (read place w p) ≤ outcome (read' place w p')) (path path' : Path) :
    outcome (readShape t read s.shape v path) ≤ outcome (readShape t read' s.shape v path') := by
  cases hs : s.shape with
  | primitive kind => exact .inr (outcome_scalar_path kind v path path')
  | literal values =>
      rw [readShape, readShape]
      split <;> exact .inr rfl
  | const value =>
      rw [readShape, readShape]
      split <;> exact .inr rfl
  | array c =>
      cases v with
      | array items =>
          refine outcome_map_le _ (outcome_readItems_le fun e he => ?_)
          obtain ⟨w, hw, rfl⟩ := List.mem_map.mp he
          exact h _ _ (.item hs hw)
      | _ => exact .inr rfl
  | tuple specs =>
      cases v with
      | array items =>
          rw [readShape, readShape]
          split
          · exact outcome_map_le _ (outcome_readItems_le fun e he => h _ _ (.element hs he))
          · exact .inr rfl
      | _ => exact .inr rfl
  | map value =>
      cases v with
      | object entries =>
          refine outcome_map_le _ (outcome_readEntries_le fun e he c hc => ?_)
          exact h _ _ (.entry (hc ▸ hs) he)
      | _ => exact .inr rfl
  | reference name => exact h _ _ (.reference hs) _ _
  | union members tag =>
      exact outcome_readUnion_le (fun names hn m hm => h _ _ (.tagged hs hn hm))
        fun c hc => h _ _ (.alternative hs hc)
  | any => exact .inr rfl

/-- When the readings that a step asks for are in order, so is what it gives, wherever the value
stands. -/
theorem outcome_readPlace_le {place : Place} {v : Json}
    (h : ∀ place' w, Calls t place v place' w →
      ∀ p p', outcome (read place' w p) ≤ outcome (read' place' w p')) (path path' : Path) :
    outcome (readPlace t read place v path) ≤ outcome (readPlace t read' place v path') := by
  cases place with
  | definition name => exact outcome_readDefinition_le h path path'
  | spec s =>
      rw [readPlace, readPlace, readSpec, readSpec]
      split
      · split <;> exact .inr rfl
      · exact outcome_readShape_le h path path'

/-- What a step gives depends on the outcomes of the readings it asks for only. -/
theorem outcome_readPlace_congr {place : Place} {v : Json}
    (h : ∀ place' w, Calls t place v place' w →
      ∀ p p', outcome (read place' w p) = outcome (read' place' w p')) (path path' : Path) :
    outcome (readPlace t read place v path) = outcome (readPlace t read' place v path') :=
  le_antisymm (outcome_readPlace_le (fun _ _ hc p p' => (h _ _ hc p p').le) path path')
    (outcome_readPlace_le (fun _ _ hc p p' => (h _ _ hc p' p).ge) path' path)

end step

/-! ### Any number of steps -/

section steps
variable {t : Table}

/-- The place of the document does not matter. -/
theorem outcome_readWithin_path : ∀ (n : Nat) (place : Place) (v : Json) (p p' : Path),
    outcome (readWithin t n place v p) = outcome (readWithin t n place v p')
  | 0, _, _, _, _ => rfl
  | n + 1, _, _, p, p' =>
      outcome_readPlace_congr (fun place' w _ => outcome_readWithin_path n place' w) p p'

theorem outcome_readWithin_succ : ∀ (n : Nat) (place : Place) (v : Json) (p p' : Path),
    outcome (readWithin t n place v p) ≤ outcome (readWithin t (n + 1) place v p')
  | 0, _, _, _, _ => .inl rfl
  | n + 1, _, _, p, p' =>
      outcome_readPlace_le (fun place' w _ => outcome_readWithin_succ n place' w) p p'

/-- More steps only change what did not end. -/
theorem outcome_readWithin_mono {n m : Nat} (h : n ≤ m) (place : Place) (v : Json) (p p' : Path) :
    outcome (readWithin t n place v p) ≤ outcome (readWithin t m place v p') := by
  induction h with
  | refl => exact (outcome_readWithin_path n place v p p').le
  | step _ ih => exact ih.trans (outcome_readWithin_succ _ place v p' p')

end steps

end SchemaModels.Canonical
