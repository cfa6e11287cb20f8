import Mathlib.Data.List.Induction
import Mathlib.Data.List.Nodup
import SchemaModels.Proofs.Model.Attribute
import SchemaModels.Proofs.Model.Declaration
import SchemaModels.Proofs.Results

/-!
# Collisions of names

Two different values of an enum cannot have one member, and two fields of a class cannot have one
attribute. The first pair that does is reported; a list without one has a member for each of its
different values, or an attribute for each of its fields.

* `KeepsApart`, `IsFirstCollision`: when different values have different names, and the first value
  that has the name of an earlier different one.
* `keepsApart_or_exists`: a list without a collision, or the first one of the list.
* `members_of_keepsApart`, `IsFirstCollision.members_eq`: what comes of either.
* `members_outcome`: which lists of values have members, what they are, and what is reported.
* `attributes_outcome`: which lists of fields have attributes, and what they are.
-/

namespace SchemaModels.Model

/-! ### Lists without repetitions -/

theorem nodup_eraseDups {α : Type} [BEq α] [LawfulBEq α] : ∀ items : List α, items.eraseDups.Nodup
  | [] => List.nodup_nil
  | a :: rest => by
      rw [List.eraseDups_cons, List.nodup_cons]
      refine ⟨fun ha => ?_, nodup_eraseDups (rest.filter fun b => !b == a)⟩
      have hmem := (List.mem_filter.mp (List.mem_eraseDups.mp ha)).2
      simp at hmem
termination_by items => items.length
decreasing_by exact Nat.lt_succ_of_le (List.length_filter_le _ _)

section concat
variable {α : Type} [BEq α] [LawfulBEq α] {items : List α} {a : α}

/-- A repetition at the end leaves a list without repetitions as it is. -/
theorem eraseDups_concat_of_mem (h : a ∈ items) : (items ++ [a]).eraseDups = items.eraseDups := by
  have hnone : List.removeAll [a] items = [] := by simp [List.removeAll, h]
  rw [List.eraseDups_append, hnone, List.eraseDups_nil, List.append_nil]

theorem eraseDups_concat_of_not_mem (h : a ∉ items) :
    (items ++ [a]).eraseDups = items.eraseDups ++ [a] := by
  have hone : List.removeAll [a] items = [a] := by simp [List.removeAll, h]
  rw [List.eraseDups_append, hone, List.eraseDups_cons, List.filter_nil, List.eraseDups_nil]

end concat

/-! ### Members -/

/-- Different values have members of different names. -/
def KeepsApart (values : List String) : Prop :=
  ∀ v ∈ values, ∀ w ∈ values, memberName v = memberName w → v = w

/-- A value has the name of an earlier different one, and no value before it does. -/
structure IsFirstCollision (values : List String) (c : Collision) : Prop where
  exists_before : ∃ before after, values = before ++ c.second :: after ∧ KeepsApart before ∧
    c.first ∈ before
  ne : c.first ≠ c.second
  first : memberName c.first = c.target
  second : memberName c.second = c.target

/-- The different values, each under its name, in the order in which they first occur. -/
def named (values : List String) : List (String × String) :=
  values.eraseDups.map fun v => (memberName v, v)

theorem map_fst_named (values : List String) :
    (named values).map Prod.fst = values.eraseDups.map memberName := List.map_map

section before
variable {before : List String} {value : String}

theorem KeepsApart.of_append {after : List String} (h : KeepsApart (before ++ after)) :
    KeepsApart before := fun v hv w hw =>
  h v (List.mem_append_left after hv) w (List.mem_append_left after hw)

/-- A value with the name of an earlier different one is not kept apart from it. -/
theorem not_keepsApart_of_mem {first : String} (hmem : first ∈ before) (hne : first ≠ value)
    (hname : memberName first = memberName value) (after : List String) :
    ¬KeepsApart (before ++ value :: after) := fun h =>
  hne (h first (List.mem_append_left _ hmem) value
    (List.mem_append_right _ List.mem_cons_self) hname)

/-- A value goes on without a collision if those of its name before it are the same value. -/
theorem KeepsApart.concat (h : KeepsApart before)
    (hvalue : ∀ v ∈ before, memberName v = memberName value → v = value) :
    KeepsApart (before ++ [value]) := by
  intro v hv w hw hname
  rcases List.mem_append.mp hv with hbefore | hlast <;>
    rcases List.mem_append.mp hw with hbefore' | hlast'
  · exact h v hbefore w hbefore' hname
  · obtain rfl := List.mem_singleton.mp hlast'
    exact hvalue v hbefore hname
  · obtain rfl := List.mem_singleton.mp hlast
    exact (hvalue w hbefore' hname.symm).symm
  · rw [List.mem_singleton.mp hlast, List.mem_singleton.mp hlast']

theorem KeepsApart.nodup_named (h : KeepsApart before) : ((named before).map Prod.fst).Nodup := by
  rw [map_fst_named]
  exact List.Nodup.map_on (fun v hv w hw =>
    h v (List.mem_eraseDups.mp hv) w (List.mem_eraseDups.mp hw)) (nodup_eraseDups before)

/-- What is found under a name is the value of this name. -/
theorem KeepsApart.lookup_named (h : KeepsApart before) {name : String} :
    (named before).lookup name = some value ↔ value ∈ before ∧ memberName value = name := by
  rw [Keyed.lookup_eq_some_iff h.nodup_named, named, List.mem_map]
  simp only [List.mem_eraseDups, Prod.mk.injEq]
  constructor
  · rintro ⟨v, hv, hname, rfl⟩
    exact ⟨hv, hname⟩
  · rintro ⟨hv, hname⟩
    exact ⟨value, hv, hname, rfl⟩

end before

/-! ### Runs -/

section run
variable {before : List String} {value : String}

/-- A value that goes on without a collision is named, or is there already. -/
theorem membersAfter_cons_of_keepsApart (h : KeepsApart (before ++ [value])) (rest : List String) :
    membersAfter (named before) (value :: rest) =
      membersAfter (named (before ++ [value])) rest := by
  have hbefore := h.of_append
  have hvalue : value ∈ before ++ [value] := List.mem_append_right _ (List.mem_singleton_self _)
  rw [membersAfter]
  cases hlookup : (named before).lookup (memberName value) with
  | some first =>
      obtain ⟨hfirst, hname⟩ := hbefore.lookup_named.mp hlookup
      obtain rfl : first = value := h first (List.mem_append_left _ hfirst) value hvalue hname
      have hnamed : named before = named (before ++ [first]) := by
        rw [named, named, eraseDups_concat_of_mem hfirst]
      dsimp only
      rw [if_pos rfl, hnamed]
  | none =>
      have hfresh : value ∉ before := fun hmem => by
        rw [hbefore.lookup_named.mpr ⟨hmem, rfl⟩] at hlookup
        cases hlookup
      dsimp only
      rw [named, named, eraseDups_concat_of_not_mem hfresh, List.map_append, List.map_singleton]

/-- A value with the name of an earlier different one ends the run. -/
theorem membersAfter_cons_of_mem (h : KeepsApart before) {first : String} (hmem : first ∈ before)
    (hne : first ≠ value) (hname : memberName first = memberName value) (rest : List String) :
    membersAfter (named before) (value :: rest) = .error ⟨memberName value, first, value⟩ := by
  have hlookup := h.lookup_named.mpr ⟨hmem, hname⟩
  rw [membersAfter, hlookup]
  exact if_neg hne

/-- Values without a collision leave what they are named. -/
theorem membersAfter_append : ∀ values before : List String,
    KeepsApart (before ++ values) → ∀ rest, membersAfter (named before) (values ++ rest) =
      membersAfter (named (before ++ values)) rest
  | [], before, _, rest => by rw [List.append_nil, List.nil_append]
  | value :: values, before, h, rest => by
      have hassoc : before ++ value :: values = before ++ [value] ++ values := List.append_cons ..
      rw [hassoc] at h ⊢
      rw [List.cons_append, membersAfter_cons_of_keepsApart h.of_append,
        membersAfter_append values _ h]

end run

/-- A list of values has a first collision unless it is kept apart. -/
theorem keepsApart_or_exists (values : List String) :
    KeepsApart values ∨ ∃ c, IsFirstCollision values c := by
  induction values using List.reverseRecOn with
  | nil => exact .inl fun _ hv => absurd hv List.not_mem_nil
  | append_singleton before value ih =>
      rcases ih with h | ⟨c, ⟨x, y, rfl, hx, hmem⟩, hne, hfirst, hsecond⟩
      · by_cases hvalue : ∀ v ∈ before, memberName v = memberName value → v = value
        · exact .inl (h.concat hvalue)
        · push Not at hvalue
          obtain ⟨first, hmem, hname, hne⟩ := hvalue
          exact .inr ⟨⟨memberName value, first, value⟩, ⟨before, [], rfl, h, hmem⟩, hne, hname, rfl⟩
      · exact .inr ⟨c, ⟨x, y ++ [value], List.append_assoc .., hx, hmem⟩, hne, hfirst, hsecond⟩

theorem members_of_keepsApart {values : List String} (h : KeepsApart values) :
    members values = .ok (named values) := by
  have hrun := membersAfter_append values [] h []
  rwa [List.append_nil] at hrun

theorem IsFirstCollision.members_eq {values : List String} {c : Collision}
    (h : IsFirstCollision values c) : members values = .error c := by
  obtain ⟨⟨before, after, rfl, hbefore, hmem⟩, hne, hfirst, hsecond⟩ := h
  have hrun := membersAfter_append before [] hbefore (c.second :: after)
  have hstop := membersAfter_cons_of_mem hbefore hmem hne (hfirst.trans hsecond.symm) after
  rw [hsecond] at hstop
  exact hrun.trans hstop

/-! ### Outcomes -/

theorem IsFirstCollision.not_keepsApart {values : List String} {c : Collision}
    (h : IsFirstCollision values c) : ¬KeepsApart values := by
  obtain ⟨before, after, rfl, -, hmem⟩ := h.exists_before
  exact not_keepsApart_of_mem hmem h.ne (h.first.trans h.second.symm) after

theorem members_eq_ok_iff {values : List String} {ms : List (String × String)} :
    members values = .ok ms ↔ KeepsApart values ∧ ms = named values := by
  rcases keepsApart_or_exists values with h | ⟨c, hc⟩
  · rw [members_of_keepsApart h, Except.ok.injEq, and_iff_right h, eq_comm]
  · simp [hc.members_eq, hc.not_keepsApart]

theorem members_eq_error_iff {values : List String} {c : Collision} :
    members values = .error c ↔ IsFirstCollision values c := by
  refine ⟨fun h => ?_, IsFirstCollision.members_eq⟩
  rcases keepsApart_or_exists values with hapart | ⟨c', hc'⟩
  · rw [members_of_keepsApart hapart] at h
    cases h
  · rw [hc'.members_eq] at h
    exact Except.error.inj h ▸ hc'

/-- The members of an enum exist exactly when no two different values have one name. Then they are
the different values in the order in which they first occur, each under its name, and the names are
different. Else the first value with the name of an earlier different one is reported with this one
and the name, and as a fault of the enum. -/
theorem members_outcome (values : List String) :
    ((∃ ms, members values = .ok ms) ↔ KeepsApart values) ∧
      (∀ ms, members values = .ok ms →
        ms = values.eraseDups.map (fun v => (memberName v, v)) ∧ (ms.map Prod.fst).Nodup) ∧
      (∀ c, members values = .error c ↔ IsFirstCollision values c) ∧
      ∀ settings t isForward enum description e,
        Body.ofDefinition settings t isForward ⟨enum, description, .enum values⟩ = .error e ↔
          ∃ c, e = .memberCollision enum c ∧ IsFirstCollision values c := by
  refine ⟨?_, fun ms hms => ?_, fun c => members_eq_error_iff, ?_⟩
  · simp only [members_eq_ok_iff, exists_and_left, exists_eq, and_true]
  · obtain ⟨hapart, rfl⟩ := members_eq_ok_iff.mp hms
    exact ⟨rfl, hapart.nodup_named⟩
  · intro settings t isForward enum description e
    simp only [← members_eq_error_iff, Body.ofDefinition]
    cases members values <;> simp [eq_comm]

/-! ### Attributes -/

/-- Fields have attributes, each its own, when these differ from each other and from those that are
there already. -/
theorem attributesAfter_eq_ok_iff : ∀ {fields : List String} {seen : List (String × String)}
    {as : List Attribute}, attributesAfter seen fields = .ok as ↔
      (∀ f ∈ fields, attributeName f ∉ seen.map Prod.fst) ∧ (fields.map attributeName).Nodup ∧
        as = fields.map Attribute.ofField
  | [], seen, as => by
      rw [attributesAfter, Except.ok.injEq]
      simp [eq_comm]
  | field :: rest, seen, as => by
      rw [attributesAfter, List.forall_mem_cons, List.map_cons, List.map_cons, List.nodup_cons,
        ← Keyed.lookup_eq_none_iff]
      cases hlookup : seen.lookup (attributeName field) with
      | some first => simp
      | none =>
          -- The rest may have neither the names that were there nor that of the field.
          have hnames : (∀ f ∈ rest, attributeName f ∉
              ((attributeName field, field) :: seen).map Prod.fst) ↔
                attributeName field ∉ rest.map attributeName ∧
                  ∀ f ∈ rest, attributeName f ∉ seen.map Prod.fst := by
            simp only [List.map_cons, List.mem_cons, not_or, List.mem_map, not_exists, not_and]
            exact forall₂_and
          dsimp only
          rw [map_eq_ok_iff]
          simp only [attributesAfter_eq_ok_iff, hnames]
          grind

/-- The fields of a class have attributes exactly when these are different, in the order of the
fields. The attribute of a field is an ASCII word that begins with a letter and is not reserved; the
field's own name is kept beside it exactly when that is no such word; and an attribute's name is its
own attribute, with nothing beside it. -/
theorem attributes_outcome :
    (∀ fields as, attributes fields = .ok as ↔
      (fields.map fun f => (Attribute.ofField f).name).Nodup ∧
        as = fields.map Attribute.ofField) ∧
      ∀ field,
        (PublicWord (Attribute.ofField field).name.toList ∧
          (Attribute.ofField field).name ∉ Name.keywords) ∧
        (∀ name, (Attribute.ofField field).wireName = some name ↔
          name = field ∧ ¬(PublicWord field.toList ∧ field ∉ Name.keywords)) ∧
        Attribute.ofField (Attribute.ofField field).name =
          ⟨(Attribute.ofField field).name, none⟩ := by
  refine ⟨fun fields as => ?_, fun field => ⟨?_, fun name => ?_, ?_⟩⟩
  · show attributesAfter [] fields = .ok as ↔ (fields.map attributeName).Nodup ∧ _
    rw [attributesAfter_eq_ok_iff]
    exact and_iff_right fun _ _ => List.not_mem_nil
  · exact isPublic_iff.mp (isPublic_attributeName field)
  · rw [← isPublic_iff, ← attributeName_eq_self_iff, Attribute.ofField]
    dsimp only
    split
    · rename_i hself
      simp [hself]
    · rename_i hself
      simp [hself, eq_comm]
  · have hself := attributeName_of_isPublic (isPublic_attributeName field)
    show Attribute.ofField (attributeName field) = _
    rw [Attribute.ofField, hself, if_pos rfl, name_ofField]

end SchemaModels.Model
