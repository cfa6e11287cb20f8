import SchemaModels.Proofs.Model.Declaration

/-!
# Members of enums and the defaults that name them

An enum class has one member for each of its values, under a name of its own. A default that is a
value of an enum is written as the member of this value.

* `members_eq_ok`: the names of members are different, and each value has a member.
* `filter_members_eq`: a value has the only member with its name.
* `default_ofSpec_eq_member_iff`: the defaults that are written as members.
-/

namespace SchemaModels.Model

/-! ### Members -/

/-- Among pairs with different keys one pair has a given key. -/
theorem filter_eq_singleton {α : Type} {pairs : List (String × α)} {key : String} {a : α}
    (hn : (pairs.map Prod.fst).Nodup) (hmem : (key, a) ∈ pairs) :
    (pairs.filter fun p => p.1 = key) = [(key, a)] := by
  obtain ⟨before, after, rfl⟩ := List.append_of_mem hmem
  rw [List.map_append, List.map_cons, List.nodup_append, List.nodup_cons] at hn
  obtain ⟨-, ⟨hafter, -⟩, hbefore⟩ := hn
  have hnone : ∀ p ∈ before ++ after, p.1 ≠ key := by
    intro p hp
    rcases List.mem_append.mp hp with hp | hp
    · exact hbefore p.1 (List.mem_map_of_mem hp) key List.mem_cons_self
    · intro hkey
      have hp' : p.1 ∈ after.map Prod.fst := List.mem_map_of_mem hp
      exact hafter (hkey ▸ hp')
  have hfilter : ∀ part : List (String × α), part ⊆ before ++ after →
      (part.filter fun p => p.1 = key) = [] := by
    intro part hpart
    rw [List.filter_eq_nil_iff]
    exact fun p hp => by simpa using hnone p (hpart hp)
  rw [List.filter_append, List.filter_cons_of_pos (by simp),
    hfilter before (List.subset_append_left _ _), hfilter after (List.subset_append_right _ _),
    List.nil_append]

/-- The members of values are those that are there already and those named after the values. -/
theorem mem_membersAfter : ∀ {values : List String} {seen ms : List (String × String)},
    membersAfter seen values = .ok ms → ∀ m ∈ ms, m ∈ seen ∨ m.1 = memberName m.2 ∧ m.2 ∈ values
  | [], seen, ms, h, m, hm => by
      obtain rfl := Except.ok.inj h
      exact .inl hm
  | value :: rest, seen, ms, h, m, hm => by
      unfold membersAfter at h
      split at h
      · split at h
        · exact (mem_membersAfter h m hm).imp_right fun hr => ⟨hr.1, List.mem_cons_of_mem _ hr.2⟩
        · cases h
      · rcases mem_membersAfter h m hm with hs | ⟨hname, hr⟩
        · rcases List.mem_append.mp hs with hs | hs
          · exact .inl hs
          · obtain rfl := List.mem_singleton.mp hs
            exact .inr ⟨rfl, List.mem_cons_self⟩
        · exact .inr ⟨hname, List.mem_cons_of_mem _ hr⟩

/-- The members that are added to different ones are different, each value has one, and those that
are there already stay. -/
theorem membersAfter_eq_ok : ∀ {values : List String} {seen ms : List (String × String)},
    membersAfter seen values = .ok ms → (seen.map Prod.fst).Nodup →
      (ms.map Prod.fst).Nodup ∧ seen ⊆ ms ∧ ∀ v ∈ values, (memberName v, v) ∈ ms
  | [], seen, ms, h, hn => by
      obtain rfl : seen = ms := Except.ok.inj h
      exact ⟨hn, List.Subset.refl seen, List.forall_mem_nil _⟩
  | value :: rest, seen, ms, h, hn => by
      unfold membersAfter at h
      split at h
      · rename_i first hlookup
        split at h
        · rename_i hsame
          subst hsame
          obtain ⟨hnodup, hseen, hrest⟩ := membersAfter_eq_ok h hn
          have hvalue := hseen (Keyed.mem_of_lookup hlookup)
          exact ⟨hnodup, hseen, List.forall_mem_cons.mpr ⟨hvalue, hrest⟩⟩
        · cases h
      · rename_i hlookup
        have hfresh : memberName value ∉ seen.map Prod.fst := Keyed.lookup_eq_none_iff.mp hlookup
        have hn' : ((seen ++ [(memberName value, value)]).map Prod.fst).Nodup := by
          rw [List.map_append, List.map_cons, List.map_nil, List.nodup_append]
          refine ⟨hn, by simp, fun name hname other hother heq => hfresh ?_⟩
          obtain rfl : other = memberName value := List.mem_singleton.mp hother
          exact heq ▸ hname
        obtain ⟨hnodup, hseen, hrest⟩ := membersAfter_eq_ok h hn'
        have hvalue := hseen (List.mem_append_right seen (List.mem_singleton_self _))
        exact ⟨hnodup, fun m hm => hseen (List.mem_append_left _ hm),
          List.forall_mem_cons.mpr ⟨hvalue, hrest⟩⟩

/-- An enum has members of different names, one for each value. -/
theorem members_eq_ok {values : List String} {ms : List (String × String)}
    (h : members values = .ok ms) :
    (ms.map Prod.fst).Nodup ∧ ∀ v ∈ values, (memberName v, v) ∈ ms := by
  obtain ⟨hnodup, -, hvalues⟩ := membersAfter_eq_ok h List.nodup_nil
  exact ⟨hnodup, hvalues⟩

/-- The member of a value is the only one with its name. -/
theorem filter_members_eq {values : List String} {ms : List (String × String)}
    (h : members values = .ok ms) {v : String} (hv : v ∈ values) :
    (ms.filter fun m => m.1 = memberName v) = [(memberName v, v)] := by
  obtain ⟨hnodup, hvalues⟩ := members_eq_ok h
  exact filter_eq_singleton hnodup (hvalues v hv)

/-! ### Defaults -/

section default
variable {t : Table} {isForward : String → Bool} {required : Bool} {s : Spec} {a : Attribute}
  {enum name : String}

/-- A text is a value of what a name stands for. -/
theorem any_values?_iff {v : String} :
    ((t.get? enum).bind Definition.values?).any (·.contains v) = true ↔
      ∃ d values, t.get? enum = some d ∧ d.kind = .enum values ∧ v ∈ values := by
  have hvalues : ∀ (d : Definition) (values : List String),
      d.values? = some values ↔ d.kind = .enum values := fun d values => by
    unfold Definition.values?
    split <;> simp_all
  simp only [Option.any_eq_true, Option.bind_eq_some_iff, hvalues, List.contains_iff_mem]
  constructor
  · rintro ⟨values, ⟨d, hd, hk⟩, hv⟩
    exact ⟨d, values, hd, hk, hv⟩
  · rintro ⟨d, values, hd, hk, hv⟩
    exact ⟨values, ⟨d, hd, hk⟩, hv⟩

/-- A default is written as a member when the field refers to an enum and the default is one of its
values. -/
theorem statedDefault_eq_member_iff {value : Json} :
    statedDefault t s value = .member enum name ↔ s.shape = .reference enum ∧
      ∃ v d values, value = .string v ∧ t.get? enum = some d ∧ d.kind = .enum values ∧
        v ∈ values ∧ name = memberName v := by
  unfold statedDefault
  split
  · rename_i target v hshape
    rw [hshape]
    constructor
    · intro h
      split at h
      · rename_i hany
        obtain ⟨rfl, rfl⟩ := DefaultExpr.member.inj h
        obtain ⟨d, values, hd, hk, hv⟩ := any_values?_iff.mp hany
        exact ⟨rfl, v, d, values, rfl, hd, hk, hv, rfl⟩
      · cases h
    · rintro ⟨htarget, v', d, values, hvalue, hd, hk, hv, rfl⟩
      obtain rfl := Shape.reference.inj htarget
      obtain rfl := Json.string.inj hvalue
      exact if_pos (any_values?_iff.mpr ⟨d, values, hd, hk, hv⟩)
  · rename_i hother
    constructor
    · intro h
      cases h
    · rintro ⟨hshape, v, _, _, rfl, _⟩
      exact absurd rfl (hother enum v hshape)

/-- The default of a field is written as a member under the same condition: a constant and `None`
are no members. -/
theorem default_ofSpec_eq_member_iff :
    (Field.ofSpec isForward t a required s).default = some (.member enum name) ↔
      s.shape = .reference enum ∧ ∃ v d values, s.default = some (.string v) ∧
        t.get? enum = some d ∧ d.kind = .enum values ∧ v ∈ values ∧ name = memberName v := by
  show (impliedDefault t required s).or _ = _ ↔ _
  unfold impliedDefault
  cases hd : s.default with
  | some value =>
      simp only [Option.some_or, Option.some.injEq, statedDefault_eq_member_iff]
  | none => cases required <;> cases hs : s.shape <;> simp

end default

end SchemaModels.Model
