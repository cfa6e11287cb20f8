import SchemaModels.Proofs.Canonical.Idempotent
import SchemaModels.Proofs.Canonical.Ends
import SchemaModels.Proofs.Json.Outline

/-!
# Instances that differ in the order of keys

Two instances that are the same are read in step: union members are told or tried alike, choices and
constants are met alike, and fields are looked up by name. Only the entries of a dictionary are
visited in the order of the instance, so that two runs may come to different refusals first; and
where an entry has no end, one run may refuse before it comes to it.

* `Agree`: both readings give related values, both refuse, or one of them has no end.
* `agree_readEntries`: dictionaries, whose entries are read in different orders.
* `Respectful`: a reader for which values that are the same are alike; a step keeps it.
* `canonicalAs_congr`: so for any number of steps, and for the canonical form of a definition.
* `drawer_endless_turned`: a reading may end in one order of the keys only.
-/

namespace SchemaModels

open Canonical

namespace Canonical

/-! ### Agreement -/

/-- What comes of two readings that are alike, for a relation between the values. -/
inductive Agree {α β : Type} (R : α → β → Prop) :
    Except CanonicalError α → Except CanonicalError β → Prop
  | value {a : α} {b : β} (h : R a b) : Agree R (.ok a) (.ok b)
  | refused {e e' : CanonicalError} : Agree R (.error e) (.error e')
  | endlessLeft {y : Except CanonicalError β} : Agree R (.error .endless) y
  | endlessRight {x : Except CanonicalError α} : Agree R x (.error .endless)

namespace Agree
variable {α β γ δ : Type} {R : α → β → Prop} {S : γ → δ → Prop} {x : Except CanonicalError α}
  {y : Except CanonicalError β}

theorem mono {R' : α → β → Prop} (h : Agree R x y) (hR : ∀ a b, R a b → R' a b) :
    Agree R' x y := by
  cases h with
  | value h => exact .value (hR _ _ h)
  | refused => exact .refused
  | endlessLeft => exact .endlessLeft
  | endlessRight => exact .endlessRight

theorem bind {f : α → Except CanonicalError γ} {g : β → Except CanonicalError δ}
    (h : Agree R x y) (hf : ∀ a b, R a b → Agree S (f a) (g b)) : Agree S (x >>= f) (y >>= g) := by
  cases h with
  | value h => exact hf _ _ h
  | refused => exact .refused
  | endlessLeft => exact .endlessLeft
  | endlessRight => exact .endlessRight

theorem map {f : α → γ} {g : β → δ} (h : Agree R x y) (hf : ∀ a b, R a b → S (f a) (g b)) :
    Agree S (x.map f) (y.map g) := by
  cases h with
  | value h => exact .value (hf _ _ h)
  | refused => exact .refused
  | endlessLeft => exact .endlessLeft
  | endlessRight => exact .endlessRight

/-- Agreement only depends on the outcomes. -/
theorem congr {x' : Except CanonicalError α} {y' : Except CanonicalError β}
    (hx : outcome x = outcome x') (hy : outcome y = outcome y') (h : Agree R x y) :
    Agree R x' y' := by
  cases h with
  | value h =>
      rw [outcome_eq_value.mp hx.symm, outcome_eq_value.mp hy.symm]
      exact .value h
  | refused =>
      cases x' with
      | ok a => exact absurd (outcome_eq_value.mp hx) (by simp)
      | error e =>
          cases y' with
          | ok b => exact absurd (outcome_eq_value.mp hy) (by simp)
          | error e' => exact .refused
  | endlessLeft =>
      rw [outcome_eq_endless.mp hx.symm]
      exact .endlessLeft
  | endlessRight =>
      rw [outcome_eq_endless.mp hy.symm]
      exact .endlessRight

/-- The ways to agree, one by one. -/
theorem cases_outcome (h : Agree R x y) : x = .error .endless ∨ y = .error .endless ∨
    (outcome x = .refused ∧ outcome y = .refused) ∨ ∃ a b, x = .ok a ∧ y = .ok b ∧ R a b := by
  by_cases hx : x = .error .endless
  · exact .inl hx
  by_cases hy : y = .error .endless
  · exact .inr (.inl hy)
  cases h with
  | value h => exact .inr (.inr (.inr ⟨_, _, rfl, rfl, h⟩))
  | refused =>
      refine .inr (.inr (.inl ⟨outcome_eq_refused.mpr ⟨_, rfl, ?_⟩,
        outcome_eq_refused.mpr ⟨_, rfl, ?_⟩⟩))
      · exact fun he => hx (congrArg _ he)
      · exact fun he => hy (congrArg _ he)
  | endlessLeft => exact absurd rfl hx
  | endlessRight => exact absurd rfl hy

end Agree

/-- Members that are tried in turn on two values agree when each of them does. -/
theorem agree_firstAccepted {α : Type} {R : Json → Json → Prop} {attempt attempt' : α → Reading}
    {refusal refusal' : CanonicalError} : ∀ {ms : List α},
    (∀ m ∈ ms, Agree R (attempt m) (attempt' m)) →
    Agree R (firstAccepted attempt refusal ms) (firstAccepted attempt' refusal' ms)
  | [], _ => .refused
  | m :: rest, h => by
      obtain ⟨hm, hrest⟩ := List.forall_mem_cons.mp h
      rcases hm.cases_outcome with hx | hy | ⟨hx, hy⟩ | ⟨a, b, hx, hy, hab⟩
      · rw [firstAccepted_cons_of_endless hx]
        exact .endlessLeft
      · rw [firstAccepted_cons_of_endless hy]
        exact .endlessRight
      · rw [firstAccepted_cons_of_refused hx, firstAccepted_cons_of_refused hy]
        exact agree_firstAccepted hrest
      · rw [firstAccepted_cons_of_value hx, firstAccepted_cons_of_value hy]
        exact .value hab

end Canonical

/-! ### Values that are alike -/

/-- Whether a shape leaves no object as it was given. -/
def Shape.ordersKeys : Shape → Bool
  | .map _ => false
  | .any => false
  | .literal values => values.all fun v => !v.holdsObject
  | .const value => !value.holdsObject
  | _ => true

namespace Table
variable {t : Table}

/-- Whether the objects in canonical forms are those of records, whose keys have an order: there is
no dictionary, nothing untyped, and no object in a choice or a constant. -/
def OrdersKeys (t : Table) : Prop := ∀ s ∈ t.specs, s.shape.ordersKeys = true

instance (t : Table) : Decidable t.OrdersKeys :=
  inferInstanceAs (Decidable (∀ s ∈ t.specs, s.shape.ordersKeys = true))

/-- Canonical forms that are the same, and have their keys in one order where the table orders
them. -/
structure Alike (t : Table) (v w : Json) : Prop where
  same : v.same w = true
  outline : t.OrdersKeys → v.outline = w.outline

/-- Values that are the same as one without objects, where the table orders keys, are alike. -/
theorem alike_of_plain {u v w : Json} (hu : t.OrdersKeys → u.holdsObject = false)
    (hvu : v.same u = true) (h : v.same w = true) : t.Alike v w where
  same := h
  outline hk := Json.outline_eq_of_same_plain (hu hk) hvu h

theorem alike_array {xs ys : List Json} (h : List.Forall₂ t.Alike xs ys) :
    t.Alike (.array xs) (.array ys) where
  same := Json.same_array.mpr (h.imp fun _ _ h => h.same)
  outline hk := congrArg Json.array (Json.outlines_congr (h.imp fun _ _ h => h.outline hk))

/-- Entries that are alike place by place, under the same keys. -/
def AlikeUnder (t : Table) (e f : String × Json) : Prop := e.1 = f.1 ∧ t.Alike e.2 f.2

theorem alike_object {es fs : Entries} (hn : (fs.map Prod.fst).Nodup)
    (h : List.Forall₂ t.AlikeUnder es fs) : t.Alike (.object es) (.object fs) where
  same := Json.same_object_of_forall₂ hn (h.imp fun _ _ h => ⟨h.1, h.2.same⟩)
  outline hk := congrArg Json.object
    (Json.outlinesUnder_congr (h.imp fun _ _ h => ⟨h.1, h.2.outline hk⟩))

end Table

namespace Canonical
variable {t : Table} {read : Place → Json → Path → Reading}

/-- A reader for which values that are the same are alike, wherever they stand. -/
def Respectful (t : Table) (read : Place → Json → Path → Reading) : Prop :=
  ∀ place v w, t.Has place → v.Distinct → v.same w = true →
    ∀ p p', Agree t.Alike (read place v p) (read place w p')

/-! ### Scalars -/

theorem toReal?_of_same {m n : Number} (h : m.same n = true) :
    Option.Rel (fun x y => x.same y = true) m.toReal? n.toReal? := by
  cases m with
  | integer a =>
      cases n with
      | integer b =>
          obtain rfl := beq_iff_eq.mp h
          cases (Number.integer a).toReal? with
          | none => exact .none
          | some x => exact .some (by simp [Binary64.same])
      | real y => cases h
  | real x =>
      cases n with
      | integer b => cases h
      | real y => exact .some h

/-- Both zeros are the integer zero. -/
theorem toInt?_of_same {x y : Binary64} (h : x.same y = true) : x.toInt? = y.toInt? := by
  simp only [Binary64.same, Bool.or_eq_true, beq_iff_eq, Bool.and_eq_true] at h
  rcases h with rfl | ⟨hx, hy⟩
  · rfl
  · have hzero : ∀ z : Binary64, z.isZero = true → z.toInt? = some 0 := fun z hz => by
      have hw : z.word.val = 0 := beq_iff_eq.mp hz
      have hs : z.scaled = 0 := by simp [Binary64.scaled, hw, Binary64.significand]
      unfold Binary64.toInt?
      rw [hs]
      generalize Nat.pow 2 1074 = unit
      simp
    rw [hzero x hx, hzero y hy]

theorem toInteger?_of_same {m n : Number} (h : m.same n = true) :
    m.toInteger? = n.toInteger? := by
  cases m with
  | integer a =>
      cases n with
      | integer b => rw [beq_iff_eq.mp h]
      | real y => cases h
  | real x =>
      cases n with
      | integer b => cases h
      | real y => rw [Number.toInteger?, Number.toInteger?, toInt?_of_same h]

theorem agree_scalar {v w : Json} (h : v.same w = true) (kind : Primitive) (p p' : Path) :
    Agree t.Alike (scalar kind v p) (scalar kind w p') := by
  cases Json.matches_of_same h with
  | @number m n hmn =>
      cases kind with
      | number =>
          have hrel := toReal?_of_same hmn
          rw [scalar, scalar]
          revert hrel
          generalize m.toReal? = x
          generalize n.toReal? = y
          rintro (hxy | _)
          · exact .value ⟨hxy, fun _ => rfl⟩
          · exact .refused
      | integer =>
          rw [scalar, scalar, toInteger?_of_same hmn]
          cases n.toInteger? with
          | none => exact .refused
          | some i => exact .value ⟨beq_self_eq_true i, fun _ => rfl⟩
      | string => exact .refused
      | boolean => exact .refused
  | bool a =>
      cases kind with
      | boolean => exact .value ⟨h, fun _ => rfl⟩
      | _ => exact .refused
  | string a =>
      cases kind with
      | string => exact .value ⟨h, fun _ => rfl⟩
      | _ => exact .refused
  | null => cases kind <;> exact .refused
  | array _ => cases kind <;> exact .refused
  | object _ => cases kind <;> exact .refused

/-! ### Parts of a value -/

/-- A field is read from values that are the same, or from what is implied both times. -/
theorem rel_fieldValue {x y : Option Json} (h : Option.Rel (fun v w => v.same w = true) x y)
    (s : Spec) (required : Bool) :
    (∃ v w, fieldValue x s required = some v ∧ fieldValue y s required = some w ∧
      v.same w = true ∧ x = some v) ∨ fieldValue x s required = fieldValue y s required := by
  cases h with
  | none => exact .inr rfl
  | @some v w h =>
      have hnull := Json.isNull_of_same h
      cases hw : w.isNull with
      | true => exact .inr (by simp [fieldValue, Option.filter_some, hnull, hw])
      | false => exact .inl ⟨v, w, by simp [fieldValue, hnull, hw], by simp [fieldValue, hw], h, rfl⟩

theorem agree_readFields {record : Record} {given given' : Entries} {path path' : Path} :
    ∀ {fields : List (String × Spec)},
    (∀ f ∈ fields, Option.Rel
      (fun v w => ∀ p p', Agree t.Alike (read (.spec f.2) v p) (read (.spec f.2) w p'))
      (fieldValue (Entries.get? given f.1) f.2 (record.isRequired f.1))
      (fieldValue (Entries.get? given' f.1) f.2 (record.isRequired f.1))) →
    Agree (fun out out' => List.Forall₂ t.AlikeUnder out out' ∧
        (out'.map Prod.fst).Sublist (fields.map Prod.fst))
      (readFields read record given path fields) (readFields read record given' path' fields)
  | [], _ => .value ⟨.nil, .slnil⟩
  | (f, s) :: rest, h => by
      obtain ⟨hf, hrest⟩ := List.forall_mem_cons.mp h
      rw [readFields, readFields]
      dsimp only at hf ⊢
      revert hf
      generalize fieldValue (Entries.get? given f) s (record.isRequired f) = x
      generalize fieldValue (Entries.get? given' f) s (record.isRequired f) = y
      rintro (hvw | _)
      · refine (hvw _ _).bind fun a b hab => ?_
        refine (agree_readFields hrest).bind fun _ _ hout => .value ⟨?_, hout.2.cons_cons f⟩
        exact .cons ⟨rfl, hab⟩ hout.1
      · cases record.isRequired f with
        | true => exact .refused
        | false => exact (agree_readFields hrest).mono fun _ _ hout => ⟨hout.1, hout.2.cons f⟩

theorem agree_readItems {path path' : Path} : ∀ {index : Nat} {ps qs : List (Spec × Json)},
    List.Forall₂ (fun e f => ∀ p p', Agree t.Alike (read (.spec e.1) e.2 p)
      (read (.spec f.1) f.2 p')) ps qs →
    Agree (List.Forall₂ t.Alike) (readItems read path index ps) (readItems read path' index qs)
  | _, [], [], _ => .value .nil
  | index, e :: ps, f :: qs, h => by
      obtain ⟨hef, hrest⟩ := List.forall₂_cons.mp h
      refine (hef _ _).bind fun a b hab => ?_
      exact (agree_readItems hrest).bind fun _ _ hout => .value (.cons hab hout)
  | _, [], _ :: _, h => nomatch h
  | _, _ :: _, [], h => nomatch h

/-! ### Dictionaries -/

/-- A dictionary is refused for one of its entries. -/
theorem exists_of_readEntries_error {value : Option Spec} {path : Path} {e : CanonicalError} :
    ∀ {entries : Entries}, readEntries read value path entries = .error e →
    ∃ f ∈ entries, f.2.isNull = false ∧ ∃ c ∈ value, ∃ p, read (.spec c) f.2 p = .error e
  | [], h => nomatch h
  | (key, v) :: rest, h => by
      have hrest : readEntries read value path rest = .error e →
          ∃ f ∈ (key, v) :: rest, f.2.isNull = false ∧
            ∃ c ∈ value, ∃ p, read (.spec c) f.2 p = .error e := fun h => by
        obtain ⟨f, hf, hread⟩ := exists_of_readEntries_error h
        exact ⟨f, List.mem_cons_of_mem _ hf, hread⟩
      rw [readEntries] at h
      cases hv : v.isNull with
      | true =>
          rw [hv] at h
          exact hrest h
      | false =>
          rw [hv] at h
          simp only [Bool.false_eq_true, if_false] at h
          cases value with
          | none =>
              cases hout : readEntries read none path rest with
              | ok out => simp [hout, bind, Except.bind, pure, Except.pure] at h
              | error e' =>
                  simp only [hout, bind, Except.bind, Except.error.injEq] at h
                  exact hrest (h ▸ hout)
          | some c =>
              cases hw : read (.spec c) v (.key key :: path) with
              | error e' =>
                  simp only [hw, bind, Except.bind, Except.error.injEq] at h
                  exact ⟨_, List.mem_cons_self, hv, c, rfl, _, h ▸ hw⟩
              | ok w =>
                  cases hout : readEntries read (some c) path rest with
                  | ok out => simp [hw, hout, bind, Except.bind, pure, Except.pure] at h
                  | error e' =>
                      simp only [hw, hout, bind, Except.bind, Except.error.injEq] at h
                      exact hrest (h ▸ hout)

/-- What stands for an entry that is not null. -/
def ReadAs (read : Place → Json → Path → Reading) (value : Option Spec) (e o : String × Json) :
    Prop :=
  e.1 = o.1 ∧ (value = none → o.2 = e.2) ∧ ∀ c ∈ value, ∃ p, read (.spec c) e.2 p = .ok o.2

section entries
variable {value : Option Spec} {es fs out out' : Entries} {path path' : Path}

theorem EntriesRead.forall₂_readAs (h : EntriesRead read value path es out) :
    List.Forall₂ (ReadAs read value) (es.filter fun e => !e.2.isNull) out := by
  cases value with
  | none =>
      rw [h.out_eq]
      exact List.forall₂_same.mpr fun e _ => ⟨rfl, fun _ => rfl, fun c hc => nomatch hc⟩
  | some c => exact h.forall₂.imp fun e o ⟨hkey, _, hr⟩ => ⟨hkey, (nomatch ·), hr⟩

theorem EntriesRead.map_fst_eq (h : EntriesRead read value path es out) :
    out.map Prod.fst = (es.filter fun e => !e.2.isNull).map Prod.fst := by
  have hkeys := h.forall₂_readAs.imp fun _ _ h => h.1
  rw [← List.forall₂_eq_eq_eq, List.forall₂_map_left_iff, List.forall₂_map_right_iff]
  exact hkeys.flip.imp fun _ _ h => h.symm

theorem EntriesRead.nodup (h : EntriesRead read value path es out)
    (hn : (es.map Prod.fst).Nodup) : (out.map Prod.fst).Nodup := by
  rw [h.map_fst_eq]
  exact (List.filter_sublist.map Prod.fst).nodup hn

/-- Values that are the same are read as values that are the same. -/
theorem ReadAs.same {e f o o' : String × Json} (he : ReadAs read value e o)
    (hf : ReadAs read value f o') (hsame : e.2.same f.2 = true)
    (hread : ∀ c ∈ value, ∀ p p', Agree t.Alike (read (.spec c) e.2 p) (read (.spec c) f.2 p')) :
    o.2.same o'.2 = true := by
  cases value with
  | none =>
      rw [he.2.1 rfl, hf.2.1 rfl]
      exact hsame
  | some c =>
      obtain ⟨p, hp⟩ := he.2.2 c rfl
      obtain ⟨p', hp'⟩ := hf.2.2 c rfl
      have h := hread c rfl p p'
      rw [hp, hp'] at h
      cases h with
      | value h => exact h.same

section agree
variable (hn : (es.map Prod.fst).Nodup) (h : (Json.object es).same (.object fs) = true)
  (hread : ∀ e ∈ es, ∀ w, e.2.same w = true → ∀ c ∈ value, ∀ p p',
    Agree t.Alike (read (.spec c) e.2 p) (read (.spec c) w p'))
include hn h hread

/-- Canonical entries that were read from objects that are the same. -/
theorem same_of_entriesRead (hout : EntriesRead read value path es out)
    (hout' : EntriesRead read value path' fs out') :
    (Json.object out).same (.object out') = true := by
  have hfs := Json.nodup_of_same hn h
  refine Json.same_object_of_exists (hout.nodup hn) (hout'.nodup hfs) (fun o ho => ?_) ?_
  · obtain ⟨e, he, heo⟩ := exists_of_forall₂ hout.forall₂_readAs ho
    obtain ⟨he, hnull⟩ := List.mem_filter.mp he
    obtain ⟨f, hf, hkey, hsame⟩ := Json.exists_right_of_same h he
    have hnull' : (!f.2.isNull) = true := by rwa [← Json.isNull_of_same hsame]
    have hflip : List.Forall₂ (fun o f => ReadAs read value f o) out' _ :=
      hout'.forall₂_readAs.flip
    obtain ⟨o', ho', hfo⟩ := exists_of_forall₂ hflip (List.mem_filter.mpr ⟨hf, hnull'⟩)
    exact ⟨o', ho', heo.1.symm.trans (hkey.trans hfo.1),
      heo.same hfo hsame (hread e he f.2 hsame)⟩
  · rw [hout.map_fst_eq, hout'.map_fst_eq]
    intro k hk
    obtain ⟨f, hf, rfl⟩ := List.mem_map.mp hk
    obtain ⟨hf, hnull⟩ := List.mem_filter.mp hf
    obtain ⟨e, he, hkey, hsame⟩ := Json.exists_left_of_same hn h hf
    refine List.mem_map.mpr ⟨e, List.mem_filter.mpr ⟨he, ?_⟩, hkey⟩
    rwa [Json.isNull_of_same hsame]

/-- The entries of objects that are the same are visited in different orders. If one object is
taken, then all its entries are, so that the other one can only be taken or have no end. -/
theorem agree_readEntries :
    Agree (fun out out' => (Json.object out).same (.object out') = true)
      (readEntries read value path es) (readEntries read value path' fs) := by
  cases hx : readEntries read value path es with
  | ok out =>
      have hout := readEntries_eq_ok_iff.mp hx
      cases hy : readEntries read value path' fs with
      | ok out' => exact .value (same_of_entriesRead hn h hread hout (readEntries_eq_ok_iff.mp hy))
      | error e' =>
          obtain ⟨f, hf, hnull, c, hc, p', hp'⟩ := exists_of_readEntries_error hy
          obtain ⟨e, he, _, hsame⟩ := Json.exists_left_of_same hn h hf
          have hnull' : (!e.2.isNull) = true := by rw [Json.isNull_of_same hsame, hnull]; rfl
          have hflip : List.Forall₂ (fun o e => ReadAs read value e o) out _ :=
            hout.forall₂_readAs.flip
          obtain ⟨o, _, hreadAs⟩ := exists_of_forall₂ hflip (List.mem_filter.mpr ⟨he, hnull'⟩)
          obtain ⟨p, hp⟩ := hreadAs.2.2 c hc
          have hagree := hread e he f.2 hsame c hc p p'
          rw [hp, hp'] at hagree
          cases hagree with
          | endlessRight => exact .endlessRight
  | error e' =>
      cases hy : readEntries read value path' fs with
      | error e'' => exact .refused
      | ok out' =>
          have hout' := readEntries_eq_ok_iff.mp hy
          obtain ⟨e, he, hnull, c, hc, p, hp⟩ := exists_of_readEntries_error hx
          obtain ⟨f, hf, _, hsame⟩ := Json.exists_right_of_same h he
          have hnull' : (!f.2.isNull) = true := by rw [← Json.isNull_of_same hsame, hnull]; rfl
          have hflip : List.Forall₂ (fun o f => ReadAs read value f o) out' _ :=
            hout'.forall₂_readAs.flip
          obtain ⟨o, _, hreadAs⟩ := exists_of_forall₂ hflip (List.mem_filter.mpr ⟨hf, hnull'⟩)
          obtain ⟨p', hp'⟩ := hreadAs.2.2 c hc
          have hagree := hread e he f.2 hsame c hc p p'
          rw [hp, hp'] at hagree
          cases hagree with
          | endlessLeft => exact .endlessLeft

end agree

end entries

/-! ### Unions -/

theorem isTagged_congr {a b : Json} (ha : a.Distinct) (h : a.same b = true) (tag : String) :
    isTagged tag a = isTagged tag b := by
  funext d
  simp only [isTagged, Json.same_congr_right ha h]

/-- Values that are the same carry the tag of one member. -/
theorem taggedMember_congr {v w : Json} (hv : v.Distinct) (h : v.same w = true)
    (members : List String) (tag : String) :
    taggedMember t members tag v = taggedMember t members tag w := by
  unfold taggedMember
  have hrel := Json.rel_get? hv h tag
  generalize w.get? tag = y at hrel ⊢
  cases ha : v.get? tag with
  | none =>
      rw [ha] at hrel
      cases hrel
      rfl
  | some a =>
      have hdistinct : a.Distinct := by
        cases v with
        | object es => exact hv.of_mem_parts (Json.mem_parts_of_entry (Keyed.mem_of_lookup ha))
        | _ => cases ha
      rw [ha] at hrel
      cases hrel with
      | some hab => rw [Option.bind_some, Option.bind_some, isTagged_congr hdistinct hab]

/-- A field of a record is read from values that are the same, or from one value stored in the
table. -/
theorem rel_readField (hread : Respectful t read) (hkeys : t.DistinctKeys) {name : String}
    {d : Definition} {record : Record} (hd : t.get? name = some d) (hk : d.kind = .object record)
    {given given' : Entries} (hv : (Json.object given).Distinct)
    (h : (Json.object given).same (.object given') = true) {f : String × Spec}
    (hf : f ∈ record.fields) : Option.Rel
      (fun v w => ∀ p p', Agree t.Alike (read (.spec f.2) v p) (read (.spec f.2) w p'))
      (fieldValue (Entries.get? given f.1) f.2 (record.isRequired f.1))
      (fieldValue (Entries.get? given' f.1) f.2 (record.isRequired f.1)) := by
  have hspec : t.Has (.spec f.2) := Table.mem_specs_of_field hd hk hf
  have hrel := Json.rel_get?_entries hv.nodup h f.1
  rcases rel_fieldValue hrel f.2 (record.isRequired f.1) with ⟨v, w, hx, hy, hsame, hget⟩ | heq
  · rw [hx, hy]
    have hentry := Keyed.mem_of_lookup hget
    exact .some (hread _ v w hspec (hv.of_mem_parts (Json.mem_parts_of_entry hentry)) hsame)
  · rw [← heq]
    cases hx : fieldValue (Entries.get? given f.1) f.2 (record.isRequired f.1) with
    | none => exact .none
    | some v =>
        have hdistinct := Table.distinct_of_fieldValue hkeys hd hk hf hv hx
        exact .some (hread _ v v hspec hdistinct (Json.same_self hdistinct))

section step
variable (hread : Respectful t read) {v w : Json} (hv : v.Distinct) (h : v.same w = true)
include hread hv h

theorem agree_readUnion {s : Spec} (hs : t.Has (.spec s)) {members : List Spec}
    {tag : Option String} (hshape : s.shape = .union members tag) (path path' : Path) :
    Agree t.Alike (readUnion t read members tag v path)
      (readUnion t read members tag w path') := by
  have htag : ((memberNames members).bind fun names =>
      tag.bind fun tag => taggedMember t names tag v) =
      (memberNames members).bind fun names => tag.bind fun tag => taggedMember t names tag w := by
    refine congrArg _ (funext fun names => congrArg _ (funext fun tag => ?_))
    exact taggedMember_congr hv h names tag
  rw [readUnion, readUnion, htag]
  split
  · exact hread _ v w (t.has_definition _) hv h _ _
  · refine agree_firstAccepted fun c hc => hread _ v w ?_ hv h _ _
    exact Table.mem_specs_of_inner hs (by simpa [hshape, Shape.inner] using hc)

/-! ### One step -/

/-- A list is read item by item. -/
theorem agree_readShape_array {c : Spec} (hc : t.Has (.spec c)) (path path' : Path) :
    Agree t.Alike (readShape t read (.array c) v path) (readShape t read (.array c) w path') := by
  cases Json.matches_of_same h with
  | @array xs ys hitems =>
      refine (agree_readItems ?_).map fun _ _ => Table.alike_array
      refine List.forall₂_map_left_iff.mpr (List.forall₂_map_right_iff.mpr ?_)
      have hdistinct : ∀ x ∈ xs, x.Distinct := fun x hx =>
        hv.of_mem_parts (Json.mem_parts_of_mem hx)
      refine ((List.forall₂_and_left xs ys).mpr ⟨hdistinct, hitems⟩).imp fun x y hxy => ?_
      exact hread _ x y hc hxy.1 hxy.2
  | _ => exact .refused

/-- A list of fixed length is read place by place. -/
theorem agree_readShape_tuple {specs : List Spec} (hspecs : ∀ c ∈ specs, t.Has (.spec c))
    (path path' : Path) :
    Agree t.Alike (readShape t read (.tuple specs) v path)
      (readShape t read (.tuple specs) w path') := by
  cases Json.matches_of_same h with
  | @array xs ys hitems =>
      rw [readShape, readShape, hitems.length_eq]
      split
      · refine (agree_readItems ?_).map fun _ _ => Table.alike_array
        refine List.forall₂_iff_get.mpr ⟨by simp [hitems.length_eq], fun i hi hi' => ?_⟩
        simp only [List.length_zip, Nat.lt_min] at hi hi'
        simp only [List.get_eq_getElem, List.getElem_zip]
        exact hread _ _ _ (hspecs _ (List.getElem_mem hi.1))
          (hv.of_mem_parts (Json.mem_parts_of_mem (List.getElem_mem hi.2)))
          (hitems.get hi.2 hi'.2)
      · exact .refused
  | _ => exact .refused

/-- A dictionary is read entry by entry. The entries stay in the order in which they were given. -/
theorem agree_readShape_map {value : Option Spec} (hvalue : ∀ c ∈ value, t.Has (.spec c))
    (hnot : ¬t.OrdersKeys) (path path' : Path) :
    Agree t.Alike (readShape t read (.map value) v path)
      (readShape t read (.map value) w path') := by
  cases Json.matches_of_same h with
  | @object es fs =>
      refine (agree_readEntries (t := t) hv.nodup h ?_).map fun _ _ hout =>
        ⟨hout, fun hk => absurd hk hnot⟩
      intro e he x hsame c hc
      exact hread _ _ _ (hvalue c hc) (hv.of_mem_parts (Json.mem_parts_of_entry he)) hsame
  | _ => exact .refused

theorem agree_readShape {s : Spec} (hs : t.Has (.spec s)) (path path' : Path) :
    Agree t.Alike (readShape t read s.shape v path) (readShape t read s.shape w path') := by
  have hinner : ∀ c ∈ s.shape.inner, t.Has (.spec c) := fun c hc =>
    Table.mem_specs_of_inner hs hc
  have horders : t.OrdersKeys → s.shape.ordersKeys = true := fun hk => hk s hs
  cases hshape : s.shape with
  | primitive kind => exact agree_scalar h kind path path'
  | literal values =>
      rw [readShape, readShape, Json.among_congr hv h]
      split
      · rename_i hamong
        obtain ⟨u, hu, hsame⟩ := List.any_eq_true.mp hamong
        refine .value (Table.alike_of_plain (fun hk => ?_) (Json.same_trans h hsame) h)
        have hplain := horders hk
        rw [hshape, Shape.ordersKeys, List.all_eq_true] at hplain
        simpa using hplain u hu
      · exact .refused
  | const value =>
      rw [readShape, readShape, Json.same_congr_left hv h]
      split
      · rename_i hsame
        refine .value (Table.alike_of_plain (fun hk => ?_) (Json.same_trans h hsame) h)
        have hplain := horders hk
        rw [hshape, Shape.ordersKeys] at hplain
        simpa using hplain
      · exact .refused
  | array c =>
      have hc : t.Has (.spec c) := hinner c (by simp [hshape, Shape.inner])
      exact agree_readShape_array hread hv h hc path path'
  | tuple specs =>
      have hspecs : ∀ c ∈ specs, t.Has (.spec c) := by simpa [hshape, Shape.inner] using hinner
      exact agree_readShape_tuple hread hv h hspecs path path'
  | map value =>
      have hvalue : ∀ c ∈ value, t.Has (.spec c) := fun c hc =>
        hinner c (by simp [hshape, Shape.inner, Option.mem_def.mp hc])
      refine agree_readShape_map hread hv h hvalue (fun hk => ?_) path path'
      have hmap := horders hk
      rw [hshape] at hmap
      cases hmap
  | reference name => exact hread _ _ _ (t.has_definition name) hv h _ _
  | union members tag => exact agree_readUnion hread hv h hs hshape path path'
  | any =>
      refine .value ⟨h, fun hk => ?_⟩
      have hany := horders hk
      rw [hshape] at hany
      cases hany

theorem agree_readDefinition (hkeys : t.DistinctKeys) (name : String) (path path' : Path) :
    Agree t.Alike (readDefinition t read name v path) (readDefinition t read name w path') := by
  rw [readDefinition, readDefinition]
  cases hd : t.get? name with
  | none => exact .refused
  | some d =>
      rw [Option.map_some]
      cases hk : d.kind with
      | enum values =>
          cases Json.matches_of_same h with
          | string a =>
              dsimp only
              split
              · exact .value ⟨h, fun _ => rfl⟩
              · exact .refused
          | _ => exact .refused
      | object record =>
          cases Json.matches_of_same h with
          | object =>
              refine (agree_readFields fun f hf => ?_).map fun _ _ hout =>
                Table.alike_object (hout.2.nodup record.names_nodup) hout.1
              exact rel_readField hread hkeys hd hk hv h hf
          | _ => exact .refused
      | union members tag =>
          dsimp only
          have htag : (tag.bind fun tag => taggedMember t members tag v) =
              tag.bind fun tag => taggedMember t members tag w :=
            congrArg _ (funext fun tag => taggedMember_congr hv h members tag)
          rw [htag]
          split
          · exact hread _ v w (t.has_definition _) hv h _ _
          · exact agree_firstAccepted fun m _ => hread _ v w (t.has_definition m) hv h _ _
      | typeAlias s =>
          have hspec : t.Has (.spec s) := Table.mem_specs_of_typeAlias hd hk
          exact hread _ v w hspec hv h _ _

end step

/-- A step of a reader for which values that are the same are alike is one. -/
theorem Respectful.readPlace (hread : Respectful t read) (hkeys : t.DistinctKeys) :
    Respectful t (readPlace t read) := by
  intro place v w hp hv h p p'
  cases place with
  | definition name => exact agree_readDefinition hread hv h hkeys name p p'
  | spec s =>
      rw [Canonical.readPlace, Canonical.readPlace, readSpec, readSpec, Json.isNull_of_same h]
      split
      · split
        · exact .value ⟨rfl, fun _ => rfl⟩
        · exact .refused
      · exact agree_readShape hread hv h hp p p'

/-- Any number of steps reads values that are the same alike. -/
theorem respectful_readWithin (hkeys : t.DistinctKeys) :
    ∀ n : Nat, Respectful t (readWithin t n)
  | 0 => fun _ _ _ _ _ _ _ _ => .refused
  | n + 1 => (respectful_readWithin hkeys n).readPlace hkeys

end Canonical

namespace Table
variable {t : Table}

/-- Within the bounds of both values, which need not be the same. -/
theorem agree_canonicalAs (hkeys : t.DistinctKeys) {v w : Json} (hv : v.Distinct)
    (h : v.same w = true) (name : String) :
    Agree t.Alike (t.canonicalAs name v) (t.canonicalAs name w) := by
  have hp := t.has_definition name
  let n := max (t.readingBound v) (t.readingBound w)
  have hagree := respectful_readWithin hkeys n (.definition name) v w hp hv h [] []
  refine hagree.congr ?_ ?_
  · exact outcome_readWithin_of_le hp (t.mem_partsWith_self v) (le_max_left _ _) [] []
  · exact outcome_readWithin_of_le hp (t.mem_partsWith_self w) (le_max_right _ _) [] []

/-- Two instances that are the same, up to the order of keys at any depth, are both taken by a
definition or both refused, unless one of their readings has no end; and what they are taken for is
the same, with the keys in one order where all objects are records. No reading is without an end
when the table has a plan and no default holds an object. -/
theorem canonicalAs_congr (hkeys : t.DistinctKeys) {v w : Json} (hv : v.Distinct)
    (h : v.same w = true) (name : String) :
    (t.canonicalAs name v = .error .endless ∨ t.canonicalAs name w = .error .endless ∨
      (outcome (t.canonicalAs name v) = .refused ∧ outcome (t.canonicalAs name w) = .refused) ∨
      ∃ a b, t.canonicalAs name v = .ok a ∧ t.canonicalAs name w = .ok b ∧ a.same b = true ∧
        (t.OrdersKeys → a.outline = b.outline)) ∧
    ∀ blocks order plan, t.graph.IsComponents blocks → t.planWith blocks order = .ok plan →
      t.PlainDefaults → t.canonicalAs name v ≠ .error .endless ∧
        t.canonicalAs name w ≠ .error .endless := by
  constructor
  · rcases (agree_canonicalAs hkeys hv h name).cases_outcome with
      hx | hy | hrefused | ⟨a, b, hx, hy, halike⟩
    · exact .inl hx
    · exact .inr (.inl hy)
    · exact .inr (.inr (.inl hrefused))
    · exact .inr (.inr (.inr ⟨a, b, hx, hy, halike.same, halike.outline⟩))
  · intro blocks order plan hb hplan hdef
    exact ⟨reading_ne_endless hb hplan hdef (t.has_definition name) v [],
      reading_ne_endless hb hplan hdef (t.has_definition name) w []⟩

/-- Circles and groups of figures, without dictionaries. -/
def figures : Table where
  root := { metadataType := "Circle", rootType := "Figure" }
  definitions := drawings.definitions.take 3
  names_nodup := by decide

/-- The group of one circle with its keys in another order, at both depths. -/
def turnedGroup : Json :=
  .object [("parts", .array [.object [("depth", .bool true), ("radius", two)]]),
    ("kind", .string "group"), ("label", .null)]

/-- Both groups are taken, for forms that are the same in the same order. -/
theorem canonicalAs_congr_group : figures.DistinctKeys ∧ looseGroup.Distinct ∧
    looseGroup.same turnedGroup = true ∧ figures.OrdersKeys ∧
    figures.canonicalAs "Figure" looseGroup = .ok canonicalGroup ∧
    ∃ form, figures.canonicalAs "Figure" turnedGroup = .ok form ∧
      canonicalGroup.same form = true ∧ canonicalGroup.outline = form.outline := by
  have hkeys : figures.DistinctKeys := by decide
  have hv : looseGroup.Distinct := by decide
  have hsame : looseGroup.same turnedGroup = true := by decide
  have hordered : figures.OrdersKeys := by decide
  have hfirst : figures.canonicalAs "Figure" looseGroup = .ok canonicalGroup := rfl
  have hplan : figures.planWith figures.blocks {} = .ok _ := rfl
  refine ⟨hkeys, hv, hsame, hordered, hfirst, ?_⟩
  obtain ⟨hcongr, hends⟩ := canonicalAs_congr hkeys hv hsame "Figure"
  obtain ⟨hleft, hright⟩ := hends _ _ _ isComponents_blocks hplan (by decide)
  rcases hcongr with h | h | ⟨h, -⟩ | ⟨a, b, ha, hb, hab, horder⟩
  · exact absurd h hleft
  · exact absurd h hright
  · exact absurd (h.symm.trans (outcome_eq_value.mpr hfirst)) (by simp)
  · obtain rfl : canonicalGroup = a := Except.ok.inj (hfirst.symm.trans ha)
    exact ⟨b, hb, hab, horder hordered⟩

/-- Names of chains in a drawer, one of which leads to no chain. In one order this is found out, so
that the drawer is read as a box; in the other order the reading has no end. -/
theorem drawer_endless_turned :
    let drawer := Json.object [("a", .bool true), ("b", .object [])]
    let turned := Json.object [("b", .object []), ("a", .bool true)]
    chains.DistinctKeys ∧ drawer.Distinct ∧ drawer.same turned = true ∧
      chains.canonicalAs "Drawer" drawer = .ok (.object []) ∧
      ∀ n, readWithin chains n (.definition "Drawer") turned [] = .error .endless := by
  refine ⟨by decide, by decide, by decide, rfl, fun n => ?_⟩
  cases n with
  | zero => rfl
  | succ n =>
      have hchains := readWithin_chains n "b" [("a", .bool true)] []
      show firstAccepted (fun m => readWithin chains n (.definition m) _ []) _ ["Chains", "Box"] = _
      exact firstAccepted_cons_of_endless hchains

end Table

end SchemaModels
