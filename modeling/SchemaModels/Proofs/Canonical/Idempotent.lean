import SchemaModels.Proofs.Json.Keys
import SchemaModels.Proofs.Canonical.Clear

/-!
# Canonical forms are canonical

In a table with clear unions a canonical form is its own canonical form: what was filled in stays,
numbers are of the right kind, and a union comes to the same member. Objects are maps: neither the
instance nor a value stored in the table may repeat a key, and no value of a text does
(`Json.distinct_of_ofText?`).

* `FieldsRead.again`, `ItemsRead.again`, `EntriesRead.again`: the parts of a canonical form.
* `reading_again`: what a reading gave is read as it is.
* `canonical_again`: so for definitions, for the top-level type, and for its text.
-/

namespace SchemaModels

open Canonical

namespace Canonical
variable {t : Table} {read read' : Place → Json → Path → Reading} {path path' : Path}

/-! ### Parts of canonical forms -/

/-- The canonical value of a field takes the place of its value. -/
theorem fieldValue_again {given : Option Json} {s : Spec} {required : Bool} {v w : Json}
    (h : fieldValue given s required = some v) (hw : w.isNull = v.isNull) :
    fieldValue (some w) s required = some w := by
  cases hnull : w.isNull with
  | false => simp [fieldValue, hnull]
  | true =>
      -- only a constant can be null here, and what is filled in for it is null again
      rw [hnull] at hw
      obtain rfl := Json.isNull_iff.mp hnull
      obtain rfl := Json.isNull_iff.mp hw.symm
      rcases Option.or_eq_some_iff.mp h with h | ⟨_, h⟩
      · exact absurd (Option.filter_eq_some_iff.mp h).2 (by simp [Json.isNull])
      · rw [fieldValue, h]
        rfl

theorem fieldValue_none {given : Option Json} {s : Spec} {required : Bool}
    (h : fieldValue given s required = none) : fieldValue none s required = none :=
  Option.or_eq_none_iff.mpr ⟨rfl, (Option.or_eq_none_iff.mp h).2⟩

namespace FieldsRead
variable {record : Record} {given full : Entries}

/-- Fields that are read again, from fields among which are the canonical ones. -/
theorem again_of_get? {fields : List (String × Spec)} {out : Entries}
    (h : FieldsRead read record given path fields out)
    (hmem : ∀ e ∈ out, Entries.get? full e.1 = some e.2)
    (hnone : ∀ f ∈ fields, f.1 ∉ out.map Prod.fst → Entries.get? full f.1 = none)
    (hn : (fields.map Prod.fst).Nodup)
    (hread : ∀ f ∈ fields, ∀ v,
      fieldValue (Entries.get? given f.1) f.2 (record.isRequired f.1) = some v →
      ∀ w p, read (.spec f.2) v p = .ok w →
        w.isNull = v.isNull ∧ read' (.spec f.2) w (.key f.1 :: path') = .ok w) :
    FieldsRead read' record full path' fields out := by
  induction h with
  | nil => exact .nil
  | cons hv hr hrest ih =>
      obtain ⟨hw, hmem⟩ := List.forall_mem_cons.mp hmem
      obtain ⟨hf, hfields⟩ := List.forall_mem_cons.mp hread
      obtain ⟨hnot, hn⟩ := List.nodup_cons.mp hn
      obtain ⟨hnull, hr'⟩ := hf _ hv _ _ hr
      refine .cons (by rw [hw]; exact fieldValue_again hv hnull) hr' (ih hmem ?_ hn hfields)
      intro g hg hout
      refine hnone g (List.mem_cons_of_mem _ hg) fun hmem => ?_
      rcases List.mem_cons.mp hmem with he | hmem
      · exact hnot (he ▸ List.mem_map_of_mem hg)
      · exact hout hmem
  | @skip f s rest out hv hf hrest ih =>
      obtain ⟨_, hfields⟩ := List.forall_mem_cons.mp hread
      obtain ⟨hnot, hn⟩ := List.nodup_cons.mp hn
      have hout : f ∉ out.map Prod.fst := fun hmem => hnot (hrest.sublist.subset hmem)
      refine .skip (by rw [hnone (f, s) List.mem_cons_self hout]; exact fieldValue_none hv) hf
        (ih hmem (fun g hg => hnone g (List.mem_cons_of_mem _ hg)) hn hfields)

theorem again {out : Entries} (h : FieldsRead read record given path record.fields out)
    (hread : ∀ f ∈ record.fields, ∀ v,
      fieldValue (Entries.get? given f.1) f.2 (record.isRequired f.1) = some v →
      ∀ w p, read (.spec f.2) v p = .ok w →
        w.isNull = v.isNull ∧ read' (.spec f.2) w (.key f.1 :: path') = .ok w) :
    FieldsRead read' record out path' record.fields out := by
  have hnodup : (out.map Prod.fst).Nodup := h.sublist.nodup record.names_nodup
  exact h.again_of_get? (fun e he => (Keyed.lookup_eq_some_iff hnodup).mpr he)
    (fun f _ hf => Keyed.lookup_eq_none_iff.mpr hf) record.names_nodup hread

end FieldsRead

namespace ItemsRead
variable {index index' : Nat} {out : List Json}

/-- Items that are read again, each with the specification that it was read with. -/
theorem again {pairs : List (Spec × Json)} (h : ItemsRead read path index pairs out)
    (hread : ∀ e ∈ pairs, ∀ w p, read (.spec e.1) e.2 p = .ok w →
      ∀ p', read' (.spec e.1) w p' = .ok w) :
    ItemsRead read' path' index' ((pairs.map Prod.fst).zip out) out := by
  induction h generalizing index' with
  | nil => exact .nil
  | cons hr _ ih =>
      obtain ⟨hagain, hrest⟩ := List.forall_mem_cons.mp hread
      exact .cons (hagain _ _ hr _) (ih hrest)

/-- So with one specification for all items. -/
theorem again_map {c : Spec} {items : List Json}
    (h : ItemsRead read path index (items.map fun u => (c, u)) out)
    (hread : ∀ u ∈ items, ∀ w p, read (.spec c) u p = .ok w → ∀ p', read' (.spec c) w p' = .ok w) :
    ItemsRead read' path' index' (out.map fun w => (c, w)) out := by
  have hlength := h.forall₂.length_eq
  rw [List.length_map] at hlength
  have hpairs : ((items.map fun u => (c, u)).map Prod.fst).zip out =
      out.map fun w => (c, w) := by
    rw [List.map_map, List.zip_map_left]
    conv_rhs => rw [← List.map_snd_zip hlength.ge, List.map_map]
    rfl
  exact hpairs ▸ h.again (List.forall_mem_map.mpr hread)

/-- So with a specification for each place. -/
theorem again_zip {specs : List Spec} {items : List Json} (hlen : items.length = specs.length)
    (h : ItemsRead read path index (specs.zip items) out)
    (hread : ∀ c ∈ specs, ∀ u ∈ items, ∀ w p, read (.spec c) u p = .ok w →
      ∀ p', read' (.spec c) w p' = .ok w) :
    ItemsRead read' path' index' (specs.zip out) out := by
  have hagain : ItemsRead read' path' index' (((specs.zip items).map Prod.fst).zip out) out :=
    h.again fun e he => hread _ (List.of_mem_zip he).1 _ (List.of_mem_zip he).2
  rwa [List.map_fst_zip hlen.ge] at hagain

end ItemsRead

/-- Entries that are read again. None of them is null, so that all of them stay. -/
theorem EntriesRead.again {value : Option Spec} {entries out : Entries}
    (h : EntriesRead read value path entries out)
    (hread : ∀ e ∈ entries, ∀ c ∈ value, ∀ w p, read (.spec c) e.2 p = .ok w →
      w.isNull = e.2.isNull ∧ ∀ p', read' (.spec c) w p' = .ok w) :
    EntriesRead read' value path' out out := by
  induction h with
  | nil => exact .nil
  | null _ ih => exact ih (List.forall_mem_cons.mp hread).2
  | typed hv hs hr _ ih =>
      obtain ⟨hentry, hrest⟩ := List.forall_mem_cons.mp hread
      obtain ⟨hnull, hagain⟩ := hentry _ hs _ _ hr
      exact .typed (hnull.trans hv) hs (hagain _) (ih hrest)
  | untyped hv hs _ ih => exact .untyped hv hs (ih (List.forall_mem_cons.mp hread).2)

/-- Trying in turn gives a value when each reading gives it or is refused, up to one that does. -/
theorem firstAccepted_of_forall {α : Type} (attempt : α → Reading) {refusal : CanonicalError}
    {m : α} {after : List α} {w : Json} (hm : attempt m = .ok w) : ∀ {before : List α},
    (∀ x ∈ before, outcome (attempt x) = .refused ∨ attempt x = .ok w) →
      firstAccepted attempt refusal (before ++ m :: after) = .ok w
  | [], _ => firstAccepted_cons_of_value hm
  | x :: before, h => by
      obtain ⟨hx, hbefore⟩ := List.forall_mem_cons.mp h
      rcases hx with hx | hx
      · rw [List.cons_append, firstAccepted_cons_of_refused hx]
        exact firstAccepted_of_forall attempt hm hbefore
      · exact firstAccepted_cons_of_value hx

end Canonical

namespace Table
variable {t : Table}

/-- No value in a table repeats a key. -/
def DistinctKeys (t : Table) : Prop := ∀ s ∈ t.specs, ∀ v ∈ s.values, v.Distinct

instance (t : Table) : Decidable t.DistinctKeys :=
  inferInstanceAs (Decidable (∀ s ∈ t.specs, ∀ v ∈ s.values, v.Distinct))

/-! ### Unions -/

section union
variable {n : Nat} {v w : Json} {path : Path}

/-- A reading that leaves the value as it is does so within the bound. -/
theorem reading_of_readWithin {place : Place} (hp : t.Has place)
    (h : readWithin t n place v path = .ok w) (p : Path) : t.reading place v p = .ok w := by
  have hvalue := outcome_eq_value.mpr h
  exact outcome_eq_value.mp ((outcome_reading_of_readWithin hp (by simp [hvalue])).trans hvalue)

theorem IsEnum.eq_of_readWithin {m : String} (h : t.IsEnum m)
    (hr : readWithin t n (.definition m) v path = .ok w) : w = v := by
  cases n with
  | zero => cases hr
  | succ n => exact h.eq_of_accepts (readPlace_eq_ok_iff.mp hr)

/-- A named union comes to the same member again. -/
theorem reading_again_named (hclear : t.ClearUnions) {name m : String} {d : Definition}
    {names : List String} {tag : Option String} (hd : t.get? name = some d)
    (hk : d.kind = .union names tag) (hm : m ∈ names) (hv : v.Distinct)
    (h : readWithin t (n + 1) (.definition name) v path = .ok w)
    (hr : readWithin t n (.definition m) v path = .ok w)
    (hagain : ∀ p, t.reading (.definition m) w p = .ok w) (p : Path) :
    t.reading (.definition name) w p = .ok w := by
  have hp := t.has_definition name
  rcases hclear.named d (get?_eq_some_iff.mp hd).1 names tag hk with ⟨x, rfl, hwell⟩ | henum
  · have htag := hwell.taggedMember_of_readWithin hm hv hr
    exact (reading_eq_ok_iff hp).mpr (.tagged hd hk htag (hagain p))
  · obtain rfl := (henum m hm).eq_of_readWithin hr
    exact reading_of_readWithin hp h p

/-- An inline union comes to the member that a tag told again. -/
theorem reading_again_inlineTagged (hclear : t.ClearUnions) {s : Spec} (hs : t.Has (.spec s))
    {m : String} {members : List Spec} {names : List String} {tag : Option String}
    (hshape : s.shape = .union members tag) (hnull : v.isNull = false)
    (hnames : memberNames members = some names) (hm : m ∈ names) (hv : v.Distinct)
    (h : readWithin t (n + 1) (.spec s) v path = .ok w)
    (hr : readWithin t n (.definition m) v path = .ok w)
    (hagain : ∀ p, t.reading (.definition m) w p = .ok w) (p : Path) :
    t.reading (.spec s) w p = .ok w := by
  rcases hclear.inline s hs members tag hshape with ⟨x, rfl, names', hn, hwell⟩ | hscalar
  · obtain rfl := Option.some.inj (hnames.symm.trans hn)
    have htag := hwell.taggedMember_of_readWithin hm hv hr
    have hw := (isNull_of_readWithin hr).trans hnull
    exact (reading_eq_ok_iff hs).mpr (.inlineTagged hshape hw hnames htag (hagain p))
  · obtain rfl := (isEnum_of_isScalar hscalar hnames m hm).eq_of_readWithin hr
    exact reading_of_readWithin hs h p

/-- An inline union comes to the same member again that was the first to take the value. -/
theorem reading_again_inlineMember (hclear : t.ClearUnions) {s m : Spec} (hs : t.Has (.spec s))
    {members before after : List Spec} {tag : Option String}
    (hshape : s.shape = .union members tag) (hmembers : members = before ++ m :: after)
    (hnull : v.isNull = false) (hv : v.Distinct)
    (hb : ∀ x ∈ before, outcome (readWithin t n (.spec x) v path) = .refused)
    (hr : readWithin t n (.spec m) v path = .ok w)
    (hagain : ∀ p, t.reading (.spec m) w p = .ok w) (p : Path) :
    t.reading (.spec s) w p = .ok w := by
  have hw := (isNull_of_readWithin hr).trans hnull
  have hinner : ∀ c ∈ members, t.Has (.spec c) := fun c hc =>
    mem_specs_of_inner hs (by simpa [hshape, Shape.inner] using hc)
  have hm : m ∈ members := by simp [hmembers]
  rcases hclear.inline s hs members tag hshape with ⟨x, rfl, names, hnames, hwell⟩ | hscalar
  · have hflip : List.Forall₂ (fun name c => c.shape = .reference name) names members :=
      (memberNames_eq_some_iff.mp hnames).flip
    obtain ⟨name, hname, hreference⟩ := exists_of_forall₂ hflip hm
    cases n with
    | zero => cases hr
    | succ n =>
        have hr' := (readPlace_eq_ok_iff.mp hr).reference_inv hreference hnull
        have htag := hwell.taggedMember_of_readWithin hname hv hr'
        have hagain' :=
          ((reading_eq_ok_iff (hinner m hm)).mp (hagain p)).reference_inv hreference hw
        exact (reading_eq_ok_iff hs).mpr (.inlineTagged hshape hw hnames htag hagain')
  · have hnone : ((memberNames members).bind fun names =>
        tag.bind fun tag => taggedMember t names tag w) = none := by
      refine Option.bind_eq_none_iff.mpr fun names hn => Option.bind_eq_none_iff.mpr fun x _ => ?_
      exact taggedMember_of_isEnum (isEnum_of_isScalar hscalar hn) x w
    have hfirst : firstAccepted (fun c => t.reading (.spec c) w p) (.noMatchingMember p none)
        (before ++ m :: after) = .ok w := by
      refine firstAccepted_of_forall (fun c => t.reading (.spec c) w p) (hagain p) fun x hx => ?_
      have hxm : x ∈ members := by simp [hmembers, hx]
      have hrefused : outcome (t.reading (.spec x) v p) = .refused := by
        rw [← hb x hx]
        exact outcome_reading_of_readWithin (hinner x hxm) (by simp [hb x hx])
      exact (hscalar m hm).again (hscalar x hxm) (hinner m hm) (hinner x hxm)
        (reading_of_readWithin (hinner m hm) hr p) hrefused
    rw [← hmembers] at hfirst
    obtain ⟨before', m', after', rfl, hb', hm'⟩ := firstAccepted_eq_ok_iff.mp hfirst
    exact (reading_eq_ok_iff hs).mpr (.inlineMember hshape hw hnone hb' hm')

end union

/-! ### Readings -/

/-- What a field is read from repeats no key. -/
theorem distinct_of_fieldValue (hkeys : t.DistinctKeys) {name : String} {d : Definition}
    {record : Record} (hd : t.get? name = some d) (hk : d.kind = .object record) {f : String × Spec}
    (hf : f ∈ record.fields) {given : Entries} (hv : (Json.object given).Distinct) {v : Json}
    (h : fieldValue (Entries.get? given f.1) f.2 (record.isRequired f.1) = some v) :
    v.Distinct := by
  rcases mem_of_fieldValue h with ⟨hgiven, _⟩ | hstored
  · exact hv.of_mem_parts (Json.mem_parts_of_entry (Keyed.mem_of_lookup hgiven))
  · exact hkeys f.2 (mem_specs_of_field hd hk hf) v hstored

section again
variable (hclear : t.ClearUnions) (hkeys : t.DistinctKeys)
include hclear hkeys

/-- What a reading gave is read as it is. -/
theorem reading_again : ∀ {n : Nat} {place : Place} {v w : Json} {path : Path}, t.Has place →
    v.Distinct → readWithin t n place v path = .ok w → ∀ p, t.reading place w p = .ok w
  | 0, _, _, _, _, _, _, h, _ => by cases h
  | n + 1, place, v, w, path, hp, hv, h, p => by
      have hagain : ∀ {place : Place} {v w : Json} {path : Path}, t.Has place → v.Distinct →
        readWithin t n place v path = .ok w → ∀ p, t.reading place w p = .ok w := reading_again
      cases readPlace_eq_ok_iff.mp h with
      | enum hd hk hs => exact (reading_eq_ok_iff hp).mpr (.enum hd hk hs)
      | record hd hk hfields =>
          refine (reading_eq_ok_iff hp).mpr (.record hd hk (hfields.again ?_))
          intro f hf u hu w q hr
          have hspec : t.Has (.spec f.2) := mem_specs_of_field hd hk hf
          exact ⟨isNull_of_readWithin hr,
            hagain hspec (distinct_of_fieldValue hkeys hd hk hf hv hu) hr _⟩
      | tagged hd hk hm hr =>
          exact reading_again_named hclear hd hk (mem_of_taggedMember hm) hv h hr
            (hagain (t.has_definition _) hv hr) p
      | member hd hk _ _ hr =>
          exact reading_again_named hclear hd hk (by simp) hv h hr
            (hagain (t.has_definition _) hv hr) p
      | typeAlias hd hk hr =>
          have hspec : t.Has (.spec _) := mem_specs_of_typeAlias hd hk
          exact (reading_eq_ok_iff hp).mpr (.typeAlias hd hk (hagain hspec hv hr p))
      | null hs => exact (reading_eq_ok_iff hp).mpr (.null hs)
      | string hs => exact (reading_eq_ok_iff hp).mpr (.string hs)
      | boolean hs => exact (reading_eq_ok_iff hp).mpr (.boolean hs)
      | number hs _ => exact (reading_eq_ok_iff hp).mpr (.number hs rfl)
      | integer hs _ => exact (reading_eq_ok_iff hp).mpr (.integer hs rfl)
      | literal hs hnull hmem => exact (reading_eq_ok_iff hp).mpr (.literal hs hnull hmem)
      | const hs hnull hsame => exact (reading_eq_ok_iff hp).mpr (.const hs hnull hsame)
      | @array s c items out hs hitems =>
          have hspec : t.Has (.spec c) := mem_specs_of_inner hp (by simp [hs, Shape.inner])
          refine (reading_eq_ok_iff hp).mpr (.array hs (hitems.again_map fun u hu _ _ hr => ?_))
          exact hagain hspec (hv.of_mem_parts (Json.mem_parts_of_mem hu)) hr
      | @tuple s specs items out hs hlen hitems =>
          have hout : out.length = specs.length := by
            rw [← hitems.forall₂.length_eq, List.length_zip, hlen, Nat.min_self]
          refine (reading_eq_ok_iff hp).mpr
            (.tuple hs hout (hitems.again_zip hlen fun c hc u hu _ _ hr => ?_))
          have hspec : t.Has (.spec c) := mem_specs_of_inner hp (by simpa [hs, Shape.inner] using hc)
          exact hagain hspec (hv.of_mem_parts (Json.mem_parts_of_mem hu)) hr
      | @map s value entries out hs hentries =>
          refine (reading_eq_ok_iff hp).mpr (.map hs (hentries.again fun e he c hc w q hr => ?_))
          obtain rfl := Option.mem_def.mp hc
          have hspec : t.Has (.spec c) := mem_specs_of_inner hp (by simp [hs, Shape.inner])
          exact ⟨isNull_of_readWithin hr,
            hagain hspec (hv.of_mem_parts (Json.mem_parts_of_entry he)) hr⟩
      | reference hs hnull hr =>
          have hwnull := (isNull_of_readWithin hr).trans hnull
          exact (reading_eq_ok_iff hp).mpr
            (.reference hs hwnull (hagain (t.has_definition _) hv hr p))
      | inlineTagged hs hnull hnames hm hr =>
          exact reading_again_inlineTagged hclear hp hs hnull hnames (mem_of_taggedMember hm) hv h
            hr (hagain (t.has_definition _) hv hr) p
      | @inlineMember s m before after tag _ _ hs hnull _ hb hr =>
          have hspec : t.Has (.spec m) := mem_specs_of_inner hp (by simp [hs, Shape.inner])
          exact reading_again_inlineMember hclear hp hs rfl hnull hv hb hr (hagain hspec hv hr) p
      | any hs hnull => exact (reading_eq_ok_iff hp).mpr (.any hs hnull)

theorem canonicalAt_again {name : String} {v w : Json} {path : Path} (hv : v.Distinct)
    (h : t.canonicalAt name v path = .ok w) (p : Path) : t.canonicalAt name w p = .ok w :=
  reading_again hclear hkeys (t.has_definition name) hv h p

/-- The canonical form of a field of the top-level type is there, and is its own canonical form. -/
theorem canonicalField_again {es : Entries} (fs : Entries) {field type : String} {w : Json}
    (hv : (Json.object es).Distinct) (h : t.canonicalField es field type = .ok w)
    (hw : Entries.get? fs field = some w) : t.canonicalField fs field type = .ok w := by
  unfold canonicalField at h
  split at h
  · rename_i v hgiven
    obtain ⟨hget, hnull⟩ := Option.filter_eq_some_iff.mp hgiven
    have hentry := Keyed.mem_of_lookup hget
    have hvd := hv.of_mem_parts (Json.mem_parts_of_entry hentry)
    have hwn : w.isNull = v.isNull := isNull_of_readWithin h
    have hfilter : (Entries.get? fs field).filter (fun v => !v.isNull) = some w := by
      rw [hw, Option.filter_some, hwn, if_pos hnull]
    rw [canonicalField, hfilter]
    exact canonicalAt_again hclear hkeys hvd h _
  · cases h

theorem canonical_again_of_distinct {v w : Json} (hv : v.Distinct) (h : t.canonical v = .ok w) :
    t.canonical w = .ok w := by
  cases v with
  | object es =>
      simp only [canonical, bind_eq_ok_iff, pure, Except.pure, Except.ok.injEq] at h
      obtain ⟨metadata, hm, tree, ht, rfl⟩ := h
      have hm' :=
        canonicalField_again hclear hkeys [("metadata", metadata), ("root", tree)] hv hm rfl
      have ht' :=
        canonicalField_again hclear hkeys [("metadata", metadata), ("root", tree)] hv ht rfl
      simp only [canonical, hm', ht']
      rfl
  | _ => cases h

/-- Canonical forms are canonical: of definitions, of the top-level type, and as texts, where the
text of the value is read back as the value. -/
theorem canonical_again :
    (∀ name v w, v.Distinct → t.canonicalAs name v = .ok w → t.canonicalAs name w = .ok w) ∧
      (∀ v w, v.Distinct → t.canonical v = .ok w → t.canonical w = .ok w) ∧
      ∀ v w, v.Distinct → t.canonical v = .ok w → Json.ofText? w.pretty = some w →
        t.canonicalText v = .ok w.pretty ∧
          (Json.ofText? w.pretty).map t.canonicalText = some (.ok w.pretty) := by
  refine ⟨fun name v w hv h => canonicalAt_again hclear hkeys hv h [],
    fun v w hv h => canonical_again_of_distinct hclear hkeys hv h, fun v w hv h htext => ?_⟩
  have hagain := canonical_again_of_distinct hclear hkeys hv h
  rw [htext, Option.map_some, canonicalText, canonicalText, h, hagain]
  exact ⟨rfl, rfl⟩

end again

theorem wellTagged_drawings : drawings.WellTagged "kind" ["Circle", "Group"] where
  toTagged := tagged_drawings
  unstated m hm s hs := by
    rcases List.mem_pair.mp hm with rfl | rfl <;> obtain rfl := Option.some.inj hs <;> rfl

theorem clearUnions_drawings : drawings.ClearUnions where
  named d hd names tag hk := by
    simp only [drawings, List.mem_cons, List.not_mem_nil, or_false] at hd
    rcases hd with rfl | rfl | rfl | rfl <;> cases hk
    exact .inl ⟨"kind", rfl, wellTagged_drawings⟩
  inline s hs members tag hshape := by
    simp only [specs, drawings, List.flatMap_cons, List.flatMap_nil, Definition.specs,
      List.map_cons, List.map_nil, Spec.specsAll, Spec.specs, Shape.specs, List.mem_append,
      List.mem_cons, List.not_mem_nil, or_false, false_or] at hs
    rcases hs with (rfl | rfl | rfl) | (rfl | (rfl | rfl) | rfl | rfl | rfl) | rfl | rfl <;>
      cases hshape
    right
    rintro c hc
    rcases List.mem_pair.mp hc with rfl | rfl
    · exact .primitive rfl
    · exact .primitive rfl

/-- The canonical form of a group with a circle, whose kind and color were filled in. -/
theorem canonical_again_group : drawings.ClearUnions ∧ drawings.DistinctKeys ∧
    looseGroup.Distinct ∧ drawings.canonicalAs "Figure" looseGroup = .ok canonicalGroup ∧
    drawings.canonicalAs "Figure" canonicalGroup = .ok canonicalGroup := by
  have hkeys : drawings.DistinctKeys := by decide
  have hgroup : looseGroup.Distinct := by decide
  have h : drawings.canonicalAs "Figure" looseGroup = .ok canonicalGroup := rfl
  exact ⟨clearUnions_drawings, hkeys, hgroup, h,
    (canonical_again clearUnions_drawings hkeys).1 "Figure" looseGroup canonicalGroup hgroup h⟩

end Table

end SchemaModels
