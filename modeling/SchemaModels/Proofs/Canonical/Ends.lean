import Mathlib.Data.Finset.Lattice.Fold
import Mathlib.Data.Prod.Lex
import Mathlib.Order.Lattice.Nat
import SchemaModels.Proofs.Canonical.Accepts
import SchemaModels.Proofs.Canonical.Endless
import SchemaModels.Proofs.Plan.Forward

/-!
# Readings end

A reading follows unions, aliases and references without taking anything from the value, and it
goes on with defaults, which are no parts of the value. When the table has a plan, the first leads
down in the plan. When no default holds an object, the second happens once on any way down.

* `Table.weight`: what a reading asks for weighs less.
* `weight_lt_and_ends`: so there is an end for every value and every definition.
-/

namespace SchemaModels

open Canonical

/-! ### Weights -/

namespace Table
variable {t : Table}

/-- No default of a field holds an object. -/
def PlainDefaults (t : Table) : Prop :=
  ∀ d ∈ t.definitions, ∀ record ∈ d.record?, ∀ f ∈ record.fields, ∀ v ∈ f.2.default,
    v.holdsObject = false

instance (t : Table) : Decidable t.PlainDefaults :=
  inferInstanceAs (Decidable (∀ d ∈ t.definitions, ∀ record ∈ d.record?, ∀ f ∈ record.fields,
    ∀ v ∈ f.2.default, v.holdsObject = false))

/-- How much of a value can lead into a record, which is nothing at a constant. -/
def load (place : Place) (v : Json) : Nat :=
  match place with
  | .definition _ => if v.holdsObject then v.size else 0
  | .spec s => if s.shape.asConst?.isNone ∧ v.holdsObject then v.size else 0

/-- How far down a plan a place can lead without taking anything from a value. -/
def rank (plan : Plan) : Place → Nat
  | .definition name => plan.position name + 1
  | .spec s => s.mentions.toFinset.sup fun name => plan.position name + 1

/-- How deep a place can lead inside a specification. -/
def depth : Place → Nat
  | .definition _ => 0
  | .spec s => s.specs.length

/-- What a reading weighs: what can lead into a record, all of the value, the way down the plan, and
the way into the specification, in this order. -/
def weight (plan : Plan) (place : Place) (v : Json) : ℕ ×ₗ ℕ ×ₗ ℕ ×ₗ ℕ :=
  toLex (load place v, toLex (v.size, toLex (rank plan place, depth place)))

section weight
variable {plan : Plan} {place place' : Place} {v w : Json}

theorem weight_lt_of_load (h : load place' w < load place v) :
    weight plan place' w < weight plan place v := by
  simp [weight, Prod.Lex.toLex_lt_toLex, h]

theorem weight_lt_of_size (hl : load place' w ≤ load place v) (h : w.size < v.size) :
    weight plan place' w < weight plan place v := by
  rcases Nat.lt_or_eq_of_le hl with hl | hl
  · exact weight_lt_of_load hl
  · simp [weight, Prod.Lex.toLex_lt_toLex, hl, h]

theorem weight_lt_of_rank (hl : load place' v ≤ load place v)
    (h : rank plan place' < rank plan place) : weight plan place' v < weight plan place v := by
  rcases Nat.lt_or_eq_of_le hl with hl | hl
  · exact weight_lt_of_load hl
  · simp [weight, Prod.Lex.toLex_lt_toLex, hl, h]

theorem weight_lt_of_depth (hl : load place' v ≤ load place v)
    (hr : rank plan place' ≤ rank plan place) (h : depth place' < depth place) :
    weight plan place' v < weight plan place v := by
  rcases Nat.lt_or_eq_of_le hr with hr | hr
  · exact weight_lt_of_rank hl hr
  · rcases Nat.lt_or_eq_of_le hl with hl | hl
    · exact weight_lt_of_load hl
    · simp [weight, Prod.Lex.toLex_lt_toLex, hl, hr, h]

end weight

/-- A constant asks for nothing. -/
theorem asConst?_of_calls {place place' : Place} {v w : Json} (hc : Calls t place v place' w) :
    ∀ s, place = .spec s → s.shape.asConst? = none := by
  rintro s rfl
  cases hc <;> simp [*, Shape.asConst?]

/-- At a place that is no constant the load follows the value. -/
theorem load_le {place place' : Place} {v w : Json}
    (hplace : ∀ s, place = .spec s → s.shape.asConst? = none) (hsize : w.size ≤ v.size)
    (hobj : w.holdsObject = true → v.holdsObject = true) : load place' w ≤ load place v := by
  have hv : load place v = if v.holdsObject then v.size else 0 := by
    cases place with
    | definition name => rfl
    | spec s => simp [load, hplace s rfl]
  have hw : load place' w ≤ if w.holdsObject then w.size else 0 := by
    cases place' with
    | definition name => exact le_rfl
    | spec s =>
        unfold load
        dsimp only
        split <;> simp_all
  rw [hv]
  refine hw.trans ?_
  cases hwo : w.holdsObject with
  | false => simp
  | true => simpa [hobj hwo] using hsize

/-! ### Ranks -/

section rank
variable {plan : Plan} {s c : Spec}

theorem mentions_eq (s : Spec) : s.mentions = s.shape.mentions := by
  cases s
  rfl

theorem rank_definition_le {name : String} (h : name ∈ s.mentions) :
    rank plan (.definition name) ≤ rank plan (.spec s) :=
  Finset.le_sup (f := fun name => plan.position name + 1) (List.mem_toFinset.mpr h)

theorem rank_spec_le {n : Nat} (h : ∀ name ∈ s.mentions, plan.position name + 1 ≤ n) :
    rank plan (.spec s) ≤ n :=
  Finset.sup_le fun name hname => h name (List.mem_toFinset.mp hname)

theorem depth_pos (s : Spec) : 0 < depth (.spec s) := by
  rw [depth, Spec.specs_eq]
  exact Nat.succ_pos _

theorem mem_mentions_of_alternative {members : List Spec} {tag : Option String}
    (hs : s.shape = .union members tag) (hc : c ∈ members) {name : String}
    (hname : name ∈ c.mentions) : name ∈ s.mentions := by
  rw [mentions_eq, hs, Shape.mentions, Spec.mentionsAll_eq_flatMap]
  exact List.mem_flatMap.mpr ⟨c, hc, hname⟩

theorem mem_mentions_of_reference {name : String} (hs : s.shape = .reference name) :
    name ∈ s.mentions := by
  simp [mentions_eq, hs, Shape.mentions]

end rank

/-! ### The top-level type -/

theorem exists_of_canonicalField_endless {es : Entries} {field type : String}
    (h : t.canonicalField es field type = .error .endless) :
    ∃ v path, t.canonicalAt type v path = .error .endless := by
  unfold canonicalField at h
  split at h
  · exact ⟨_, _, h⟩
  · cases h

/-- An instance of the top-level type has no end only when one of its two fields has none. -/
theorem exists_of_canonical_endless {v : Json} (h : t.canonical v = .error .endless) :
    ∃ name w path, t.canonicalAt name w path = .error .endless := by
  cases v with
  | object es =>
      simp only [canonical, bind_eq_endless_iff] at h
      rcases h with h | ⟨_, _, h | ⟨_, _, h⟩⟩
      · exact ⟨_, exists_of_canonicalField_endless h⟩
      · exact ⟨_, exists_of_canonicalField_endless h⟩
      · cases h
  | _ => cases h

/-! ### The way down -/

section planWith
variable {blocks : List (List Nat)} {order : SectionOrder} {plan : Plan}
  (hb : t.graph.IsComponents blocks) (h : t.planWith blocks order = .ok plan)
include hb h

/-- What a union or an alias refers to stands before it. -/
theorem position_lt {name r : String} {d : Definition} (hd : t.get? name = some d)
    (hobj : d.isObject = false) (hr : r ∈ d.mentions) : plan.position r < plan.position name := by
  have hperm := perm_names_plan hb h
  have hn : (plan.map Planned.name).Nodup := hperm.nodup_iff.mpr t.names_nodup
  obtain ⟨hmem, rfl⟩ := get?_eq_some_iff.mp hd
  obtain ⟨p, hp, hname⟩ := List.mem_map.mp (hperm.mem_iff.mpr (mem_names.mpr ⟨d, hmem, rfl⟩))
  obtain ⟨m, hm⟩ := List.mem_iff_getElem?.mp hp
  obtain ⟨n, q, hlt, hq, rfl⟩ := exists_lt_of_mem_mentions hb h hm (hname ▸ hd) hobj hr
  rw [← hname, Plan.position_eq hn hm, Plan.position_eq hn hq]
  exact hlt

/-- What a reading asks for weighs less. -/
theorem weight_lt_of_calls (hdef : t.PlainDefaults) {place place' : Place} {v w : Json}
    (hc : Calls t place v place' w) : weight plan place' w < weight plan place v := by
  have hplace := asConst?_of_calls hc
  cases hc with
  | @field name d record given f s u hd hk hf hu =>
      rcases mem_of_fieldValue hu with ⟨hgiven, _⟩ | hstored
      · have hentry := Keyed.mem_of_lookup hgiven
        have hlt := Json.size_lt_of_entry hentry
        exact weight_lt_of_size (load_le hplace hlt.le
          (Json.holdsObject_of_mem_parts (Json.mem_parts_of_entry hentry))) hlt
      · -- a stored value holds no object, or is a constant
        have hzero : load (.spec s) w = 0 := by
          rcases List.mem_append.mp hstored with hdefault | hconst
          · have hrecord : record ∈ d.record? := by simp [Definition.record?, hk]
            have hplain := hdef d (get?_eq_some_iff.mp hd).1 record hrecord _ hf w
              (Option.mem_toList.mp hdefault)
            simp [load, hplain]
          · have hc := Option.mem_toList.mp hconst
            simp [load, Option.mem_def.mp hc]
        refine weight_lt_of_load ?_
        rw [hzero, load, Json.holdsObject, Json.parts]
        simpa [Json.isObject] using Json.size_pos (.object given)
  | member hd hk hm =>
      refine weight_lt_of_rank (load_le hplace le_rfl id) (Nat.succ_lt_succ ?_)
      refine position_lt hb h hd (by rw [Definition.isObject, hk]) ?_
      rwa [Definition.mentions, hk]
  | @typeAlias name d s v hd hk =>
      refine weight_lt_of_rank (load_le hplace le_rfl id) (Nat.lt_succ_of_le (rank_spec_le ?_))
      intro r hr
      refine position_lt hb h hd (by rw [Definition.isObject, hk]) ?_
      rwa [Definition.mentions, hk]
  | item hs hw =>
      have hlt := Json.size_lt_of_mem hw
      exact weight_lt_of_size (load_le hplace hlt.le
        (Json.holdsObject_of_mem_parts (Json.mem_parts_of_mem hw))) hlt
  | element hs hw =>
      have hw := (List.of_mem_zip hw).2
      have hlt := Json.size_lt_of_mem hw
      exact weight_lt_of_size (load_le hplace hlt.le
        (Json.holdsObject_of_mem_parts (Json.mem_parts_of_mem hw))) hlt
  | entry hs he =>
      have hlt := Json.size_lt_of_entry he
      exact weight_lt_of_size (load_le hplace hlt.le
        (Json.holdsObject_of_mem_parts (Json.mem_parts_of_entry he))) hlt
  | @reference s name v hs =>
      exact weight_lt_of_depth (load_le hplace le_rfl id)
        (rank_definition_le (mem_mentions_of_reference hs)) (depth_pos s)
  | @tagged s members tag names m v hs hnames hm =>
      obtain ⟨c, hc, hshape⟩ := exists_of_forall₂ (memberNames_eq_some_iff.mp hnames) hm
      exact weight_lt_of_depth (load_le hplace le_rfl id) (rank_definition_le
        (mem_mentions_of_alternative hs hc (mem_mentions_of_reference hshape))) (depth_pos s)
  | @alternative s c members tag v hs hc =>
      have hrank : rank plan (.spec c) ≤ rank plan (.spec s) :=
        rank_spec_le fun name hname => rank_definition_le (mem_mentions_of_alternative hs hc hname)
      exact weight_lt_of_depth (load_le hplace le_rfl id) hrank
        (Spec.length_specs_lt_of_mem_inner (by simpa [hs, Shape.inner] using hc))

/-- A reading at a place of the table ends: the induction is on the weight. -/
theorem reading_ne_endless (hdef : t.PlainDefaults) {place : Place} (hp : t.Has place) (v : Json)
    (path : Path) : t.reading place v path ≠ .error .endless := by
  induction hw : weight plan place v using WellFoundedLT.induction generalizing place v path with
  | ind _ ih =>
      subst hw
      intro hend
      obtain ⟨place', w, p, hc, hend'⟩ := exists_calls_of_reading_endless hp hend
      exact ih _ (weight_lt_of_calls hb h hdef hc) (has_of_calls hc hp) w p rfl hend'

/-- What a reading asks for weighs less, so that there is an end for every value of every
definition, and of the top-level type. -/
theorem weight_lt_and_ends (hdef : t.PlainDefaults) :
    (∀ place v place' w, Calls t place v place' w →
        weight plan place' w < weight plan place v) ∧
      (∀ name v, t.canonicalAs name v ≠ .error .endless) ∧
      ∀ v, t.canonical v ≠ .error .endless := by
  have hends : ∀ name v path, t.canonicalAt name v path ≠ .error .endless :=
    fun name v path => reading_ne_endless hb h hdef (t.has_definition name) v path
  refine ⟨fun _ _ _ _ => weight_lt_of_calls hb h hdef, fun name v => hends name v [],
    fun v hend => ?_⟩
  obtain ⟨name, w, path, hend⟩ := exists_of_canonical_endless hend
  exact hends name w path hend

end planWith

/-- Groups hold figures and figures may be groups, yet all readings of drawings end. -/
theorem weight_lt_and_ends_drawings : drawings.graph.IsComponents drawings.blocks ∧
    drawings.PlainDefaults ∧ (∃ plan, drawings.planWith drawings.blocks {} = .ok plan) ∧
      (∀ name v, drawings.canonicalAs name v ≠ .error .endless) ∧
      ∀ v, drawings.canonical v ≠ .error .endless := by
  have hb : drawings.graph.IsComponents drawings.blocks := isComponents_blocks
  have h : drawings.planWith drawings.blocks {} = .ok _ := rfl
  have hdef : drawings.PlainDefaults := by decide
  exact ⟨hb, hdef, ⟨_, h⟩, (weight_lt_and_ends hb h hdef).2⟩

end Table

end SchemaModels
