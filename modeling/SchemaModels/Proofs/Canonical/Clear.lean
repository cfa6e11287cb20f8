import SchemaModels.Proofs.Canonical.Dispatch
import SchemaModels.Proofs.Canonical.Endless

/-!
# Clear unions

A union is clear when a value that it took is taken by the same member again: its members tell by
a field what they are and fill that field in, or they are scalars, of which none takes a number
from another one.

* `WellTagged`: members that tell what they are, by constants without a default of their own.
* `IsScalar`: primitives, literals, constants and references to enums.
* `taggedMember_of_readWithin`: what a well tagged member gives carries its tag.
* `IsScalar.again`: what a scalar gives is not taken for something else by another one.
-/

namespace SchemaModels

open Canonical

namespace Table
variable {t : Table}

/-- The members tell by constants, which have no other default, what they are. -/
structure WellTagged (t : Table) (tag : String) (names : List String) : Prop
    extends t.Tagged tag names where
  unstated : ∀ m ∈ names, ∀ s ∈ t.field? m tag, s.default = none

/-- The names of enums. -/
def IsEnum (t : Table) (name : String) : Prop :=
  ∃ d values, t.get? name = some d ∧ d.kind = .enum values

/-- Primitives, literals, constants and references to enums. -/
inductive IsScalar (t : Table) (s : Spec) : Prop
  | primitive {kind : Primitive} (hs : s.shape = .primitive kind)
  | literal {values : List Json} (hs : s.shape = .literal values)
  | const {value : Json} (hs : s.shape = .const value)
  | enum {name : String} (hs : s.shape = .reference name) (h : t.IsEnum name)

/-- Every union is well tagged, or has scalar members only. -/
structure ClearUnions (t : Table) : Prop where
  named : ∀ d ∈ t.definitions, ∀ names tag, d.kind = .union names tag →
    (∃ x ∈ tag, t.WellTagged x names) ∨ ∀ m ∈ names, t.IsEnum m
  inline : ∀ s ∈ t.specs, ∀ members tag, s.shape = .union members tag →
    (∃ x ∈ tag, ∃ names ∈ memberNames members, t.WellTagged x names) ∨
      ∀ c ∈ members, t.IsScalar c

/-! ### Well tagged members -/

/-- The value of a field that is a constant without a default, if it has one, is given or the
constant. -/
theorem eq_of_fieldValue_const {given : Option Json} {s : Spec} {required : Bool} {c v : Json}
    (hs : s.shape = .const c) (hd : s.default = none)
    (h : fieldValue given s required = some v) : given = some v ∧ v.isNull = false ∨ v = c := by
  rcases Option.or_eq_some_iff.mp h with h | ⟨_, h⟩
  · obtain ⟨hg, hn⟩ := Option.filter_eq_some_iff.mp h
    exact .inl ⟨hg, by simpa using hn⟩
  · refine .inr ?_
    cases required <;> simp [impliedValue, hd, hs] at h
    exact h.symm

/-- A tag that is the same as the constant of a member, both ways, tells that member. -/
theorem Tagged.taggedMember_eq {tag m : String} {names : List String} {v c actual : Json}
    (h : t.Tagged tag names) (hm : m ∈ names) (hc : t.constant? m tag = some c)
    (hv : v.get? tag = some actual) (hleft : c.same actual = true)
    (hright : actual.same c = true) : taggedMember t names tag v = some m := by
  rw [taggedMember, hv, Option.bind_some]
  cases hfind : names.find? fun m => (t.get? m).any (isTagged tag actual) with
  | none =>
      have hnot := List.find?_eq_none.mp hfind m hm
      exact absurd (by simp [any_isTagged, hc, hleft]) hnot
  | some m' =>
      have hm' := List.mem_of_find?_eq_some hfind
      have hany := List.find?_some hfind
      rw [any_isTagged, Option.any_eq_true] at hany
      obtain ⟨c', hc', hsame⟩ := hany
      by_contra hne
      have hdiff := h.different m' hm' m hm (fun he => hne (he ▸ rfl)) c' hc' c hc
      exact absurd (Json.same_trans hsame hright) (by simp [hdiff])

/-- What a well tagged member gives carries its tag. -/
theorem WellTagged.taggedMember_of_readWithin {tag m : String} {names : List String} {n : Nat}
    {v w : Json} {path : Path} (h : t.WellTagged tag names) (hm : m ∈ names) (hv : v.Distinct)
    (hr : readWithin t n (.definition m) v path = .ok w) :
    taggedMember t names tag w = some m := by
  obtain ⟨c, hc, hcnull⟩ := h.constant m hm
  obtain ⟨d, record, s, hd, hk, hs, hshape⟩ := constant?_eq_some_iff.mp hc
  have hdefault : s.default = none :=
    h.unstated m hm s (by simp [field?, hd, Definition.record?, hk, hs])
  have hfield : (tag, s) ∈ record.fields := Keyed.mem_of_lookup hs
  cases n with
  | zero => cases hr
  | succ n =>
      obtain ⟨given, out, rfl, rfl, hfields⟩ := (readPlace_eq_ok_iff.mp hr).exists_fields hd hk
      cases ha : fieldValue (Entries.get? given tag) s (record.isRequired tag) with
      | none =>
          have hreq := hfields.isRequired_eq_false hfield ha
          obtain ⟨_, himplied⟩ := Option.or_eq_none_iff.mp ha
          simp [impliedValue, hdefault, hshape, hreq] at himplied
      | some a =>
          obtain ⟨b, hb, hread⟩ := hfields.exists_mem hfield ha
          have hcases := eq_of_fieldValue_const hshape hdefault ha
          have hnull : a.isNull = false := hcases.elim And.right fun he => he ▸ hcnull
          cases n with
          | zero => cases hread
          | succ n =>
              obtain ⟨hright, rfl⟩ := (readPlace_eq_ok_iff.mp hread).const_inv hshape hnull
              have hleft : c.same b = true := by
                rcases hcases with ⟨hgiven, _⟩ | rfl
                · have hentry := Keyed.mem_of_lookup hgiven
                  exact Json.same_symm (hv.of_mem_parts (Json.mem_parts_of_entry hentry)) hright
                · exact hright
              have hnodup : (out.map Prod.fst).Nodup := hfields.sublist.nodup record.names_nodup
              exact h.taggedMember_eq hm hc ((Keyed.lookup_eq_some_iff hnodup).mpr hb) hleft hright

/-! ### Scalar members -/

theorem IsEnum.constant?_eq_none {name : String} (h : t.IsEnum name) (tag : String) :
    t.constant? name tag = none := by
  obtain ⟨d, values, hd, hk⟩ := h
  simp [constant?, field?, hd, Definition.record?, hk]

/-- No tag tells an enum. -/
theorem taggedMember_of_isEnum {names : List String} (h : ∀ m ∈ names, t.IsEnum m) (tag : String)
    (v : Json) : taggedMember t names tag v = none := by
  cases hm : taggedMember t names tag v with
  | none => rfl
  | some m =>
      obtain ⟨_, c, _, hc, _⟩ := constant_of_taggedMember hm
      rw [(h m (mem_of_taggedMember hm)).constant?_eq_none tag] at hc
      cases hc

/-- Scalars that are bare references are enums. -/
theorem isEnum_of_isScalar {members : List Spec} {names : List String}
    (h : ∀ c ∈ members, t.IsScalar c) (hn : memberNames members = some names) :
    ∀ m ∈ names, t.IsEnum m := by
  intro m hm
  obtain ⟨c, hc, hshape⟩ := exists_of_forall₂ (memberNames_eq_some_iff.mp hn) hm
  cases h c hc with
  | enum hs hname => exact Shape.reference.inj (hs.symm.trans hshape) ▸ hname
  | _ => simp_all

/-- An enum leaves a value as it is. -/
theorem IsEnum.eq_of_accepts {read : Place → Json → Path → Reading} {name : String} {v w : Json}
    {path : Path} (h : t.IsEnum name) (ha : Accepts t read path (.definition name) v w) :
    w = v := by
  obtain ⟨d, values, hd, hk⟩ := h
  cases ha with
  | enum => rfl
  | record hd' hk' => simp_all
  | tagged hd' hk' => simp_all
  | member hd' hk' => simp_all
  | typeAlias hd' hk' => simp_all

/-- A scalar leaves a value as it is, or turns a number into the kind of number it stands for. -/
theorem IsScalar.eq_or_number {s : Spec} {v w : Json} {path : Path} (h : t.IsScalar s)
    (ha : Accepts t t.reading path (.spec s) v w) : w = v ∨ ∃ n, v = .number n ∧
      ((s.shape = .primitive .number ∧ ∃ x, n.toReal? = some x ∧ w = .number (.real x)) ∨
        s.shape = .primitive .integer ∧
          ∃ i, n.toInteger? = some i ∧ w = .number (.integer i)) := by
  cases ha with
  | number hs hx => exact .inr ⟨_, rfl, .inl ⟨hs, _, hx, rfl⟩⟩
  | integer hs hi => exact .inr ⟨_, rfl, .inr ⟨hs, _, hi, rfl⟩⟩
  | @reference _ name _ _ hs hv hr =>
      have hp := t.has_definition name
      have haccepts := (reading_eq_ok_iff hp).mp hr
      cases h with
      | enum hs' hname =>
          obtain rfl := Shape.reference.inj (hs'.symm.trans hs)
          exact .inl (hname.eq_of_accepts haccepts)
      | _ => simp_all
  | array hs | tuple hs | map hs | inlineTagged hs | inlineMember hs => cases h <;> simp_all
  | _ => exact .inl rfl

/-- The reading of a scalar ends. -/
theorem IsScalar.reading_ne_endless {s : Spec} (h : t.IsScalar s) (hp : t.Has (.spec s)) (v : Json)
    (path : Path) : t.reading (.spec s) v path ≠ .error .endless := by
  intro hend
  obtain ⟨place', w, p, hc, hend'⟩ := exists_calls_of_reading_endless hp hend
  have hp' := has_of_calls hc hp
  cases h with
  | enum hs hname =>
      obtain ⟨d, values, hd, hk⟩ := hname
      cases hc with
      | reference hs' =>
          obtain rfl := Shape.reference.inj (hs.symm.trans hs')
          obtain ⟨_, _, _, hc', _⟩ := exists_calls_of_reading_endless hp' hend'
          cases hc' <;> simp_all
      | _ => simp_all
  | _ => cases hc <;> simp_all

/-- What a scalar gives is refused by another one that refused the value, or is left as it is. -/
theorem IsScalar.again {s e : Spec} {v w : Json} {path : Path} (hs : t.IsScalar s)
    (he : t.IsScalar e) (hps : t.Has (.spec s)) (hpe : t.Has (.spec e))
    (hr : t.reading (.spec s) v path = .ok w)
    (hrefused : outcome (t.reading (.spec e) v path) = .refused) :
    outcome (t.reading (.spec e) w path) = .refused ∨ t.reading (.spec e) w path = .ok w := by
  cases h : outcome (t.reading (.spec e) w path) with
  | endless => exact absurd (outcome_eq_endless.mp h) (he.reading_ne_endless hpe w path)
  | refused => exact .inl rfl
  | value u =>
      have hu := outcome_eq_value.mp h
      have hnot : ∀ x, ¬Accepts t t.reading path (.spec e) v x := fun x hx => by
        rw [outcome_eq_value.mpr ((reading_eq_ok_iff hpe).mpr hx)] at hrefused
        cases hrefused
      have haccepts := (reading_eq_ok_iff hpe).mp hu
      have hne : w ≠ v := fun hwv => hnot u (hwv ▸ haccepts)
      obtain ⟨n, rfl, hn⟩ := (hs.eq_or_number ((reading_eq_ok_iff hps).mp hr)).resolve_left hne
      refine .inr (hu.trans (congrArg Except.ok ?_))
      rcases he.eq_or_number haccepts with rfl | ⟨k, hk, he'⟩
      · rfl
      -- the number that was given would have suited the scalar for the other kind of numbers
      rcases hn with ⟨_, x, hx, rfl⟩ | ⟨_, i, hi, rfl⟩ <;> obtain rfl := Json.number.inj hk <;>
        rcases he' with ⟨hshape, y, hy, rfl⟩ | ⟨hshape, j, hj, rfl⟩
      · rw [← Option.some.inj hy]
      · cases n with
        | integer m => exact absurd (.integer hshape rfl) (hnot (.number (.integer m)))
        | real z => exact absurd (by rw [← Option.some.inj hx]) hne
      · cases n with
        | integer m => exact absurd (by rw [← Option.some.inj hi]) hne
        | real z => exact absurd (.number hshape rfl) (hnot (.number (.real z)))
      · rw [← Option.some.inj hj]

end Table

end SchemaModels
