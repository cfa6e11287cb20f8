import SchemaModels.Proofs.Canonical.Ends
import SchemaModels.Proofs.Json.Same

/-!
# Dispatch of unions

A union whose members declare its tag as different constants can be read in two ways: as the
member that the tag of a value tells, or by trying the members in turn without a look at the tag.

* `Tagged`: the members tell by a field what they are.
* `same_of_readWithin`: a member refuses a value with a tag other than its own.
* `outcome_union_eq`: whenever trying in turn ends, the two ways come to the same, and what the tag
  tells is the first reading of a member that succeeds.
* `bead_endless_inTurn`: trying in turn need not end where the tag tells a member.
-/

namespace SchemaModels

open Canonical

namespace Table
variable {t : Table}

/-! ### Tags -/

/-- The specification that a record declares for a field. -/
def field? (t : Table) (name field : String) : Option Spec :=
  ((t.get? name).bind Definition.record?).bind (·.field? field)

/-- The constant that a record declares for a field. -/
def constant? (t : Table) (name field : String) : Option Json :=
  (t.field? name field).bind (·.shape.asConst?)

/-- The members tell by constants of a field, none of them null, what they are. -/
structure Tagged (t : Table) (tag : String) (names : List String) : Prop where
  constant : ∀ m ∈ names, ∃ c, t.constant? m tag = some c ∧ c.isNull = false
  different : ∀ m ∈ names, ∀ n ∈ names, m ≠ n →
    ∀ c ∈ t.constant? m tag, ∀ e ∈ t.constant? n tag, c.same e = false

theorem constant?_eq_some_iff {name field : String} {c : Json} :
    t.constant? name field = some c ↔ ∃ d record s, t.get? name = some d ∧
      d.kind = .object record ∧ record.field? field = some s ∧ s.shape = .const c := by
  have hconst : ∀ shape : Shape, shape.asConst? = some c ↔ shape = .const c := fun shape => by
    cases shape <;> simp [Shape.asConst?]
  have hrecord : ∀ (d : Definition) (r : Record), d.record? = some r ↔ d.kind = .object r :=
    fun d r => by cases hk : d.kind <;> simp [Definition.record?, hk]
  simp only [constant?, field?, Option.bind_eq_some_iff, hconst, hrecord]
  constructor
  · rintro ⟨s, ⟨record, ⟨d, hd, hk⟩, hs⟩, hc⟩
    exact ⟨d, record, s, hd, hk, hs, hc⟩
  · rintro ⟨d, record, s, hd, hk, hs, hc⟩
    exact ⟨s, ⟨record, ⟨d, hd, hk⟩, hs⟩, hc⟩

theorem any_isTagged (name tag : String) (actual : Json) :
    (t.get? name).any (isTagged tag actual) = (t.constant? name tag).any (·.same actual) := by
  cases h : t.get? name <;> simp [constant?, field?, isTagged, h]

/-- The member that a tag tells has a constant that is the same as the tag. -/
theorem constant_of_taggedMember {names : List String} {tag m : String} {v : Json}
    (h : taggedMember t names tag v = some m) :
    ∃ actual c, v.get? tag = some actual ∧ t.constant? m tag = some c ∧ c.same actual = true := by
  obtain ⟨actual, hactual, hfind⟩ := Option.bind_eq_some_iff.mp h
  have hany := List.find?_some hfind
  rw [any_isTagged, Option.any_eq_true] at hany
  obtain ⟨c, hc, hsame⟩ := hany
  exact ⟨actual, c, hactual, hc, hsame⟩

/-- A record takes a value only if its tag, unless that is null, is the same as the constant that
the record declares. -/
theorem same_of_readWithin {n : Nat} {m tag : String} {v w c actual : Json} {path : Path}
    (hc : t.constant? m tag = some c) (hv : v.get? tag = some actual)
    (hactual : actual.isNull = false)
    (h : readWithin t n (.definition m) v path = .ok w) : actual.same c = true := by
  obtain ⟨d, record, s, hd, hk, hs, hshape⟩ := constant?_eq_some_iff.mp hc
  cases n with
  | zero => cases h
  | succ n =>
      obtain ⟨given, out, rfl, rfl, hfields⟩ := (readPlace_eq_ok_iff.mp h).exists_fields hd hk
      have hgiven : Entries.get? given tag = some actual := hv
      have hvalue :
          fieldValue (Entries.get? given tag) s (record.isRequired tag) = some actual := by
        simp [fieldValue, hgiven, hactual]
      obtain ⟨u, _, hr⟩ := hfields.exists_mem (Keyed.mem_of_lookup hs) hvalue
      cases n with
      | zero => cases hr
      | succ n => exact ((readPlace_eq_ok_iff.mp hr).const_inv hshape hactual).1

/-- Of members that tell what they are, only the one that the tag of a value tells takes it. -/
theorem Tagged.eq_of_readWithin {names : List String} {tag m m' : String} {v w : Json} {n : Nat}
    {path : Path} (h : t.Tagged tag names) (hm : taggedMember t names tag v = some m)
    (hm' : m' ∈ names) (hr : readWithin t n (.definition m') v path = .ok w) : m' = m := by
  obtain ⟨actual, c, hactual, hc, hsame⟩ := constant_of_taggedMember hm
  obtain ⟨c', hc', _⟩ := h.constant m' hm'
  obtain ⟨e, he, hne⟩ := h.constant m (mem_of_taggedMember hm)
  obtain rfl := Option.some.inj (hc.symm.trans he)
  have hnull : actual.isNull = false := (Json.isNull_of_same hsame).symm.trans hne
  by_contra hdiff
  have htrans := Json.same_trans hsame (same_of_readWithin hc' hactual hnull hr)
  exact absurd htrans
    (by simp [h.different m (mem_of_taggedMember hm) m' hm' (Ne.symm hdiff) c hc c' hc'])

/-! ### Trying in turn -/

section firstAccepted
variable {α : Type} {attempt : α → Reading} {refusal : CanonicalError} {o : Outcome Json}
  {ms : List α}

theorem toOption_congr {x y : Reading} (h : outcome x = outcome y) : x.toOption = y.toOption := by
  cases x with
  | ok w => rw [outcome_eq_value.mp h.symm]
  | error e =>
      cases y with
      | ok w => exact absurd (outcome_eq_value.mp h) (by simp)
      | error e' => rfl

theorem toOption_eq_some_iff {x : Reading} {w : Json} : x.toOption = some w ↔ x = .ok w := by
  cases x <;> simp [Except.toOption]

theorem firstAccepted_map {β : Type} (f : β → α) : ∀ ms : List β,
    firstAccepted attempt refusal (ms.map f) = firstAccepted (fun m => attempt (f m)) refusal ms
  | [] => rfl
  | m :: rest => by
      rw [List.map_cons, firstAccepted, firstAccepted, firstAccepted_map f rest]

/-- When trying in turn ends, it gives the first reading that succeeds. -/
theorem toOption_firstAccepted : ∀ {ms : List α},
    outcome (firstAccepted attempt refusal ms) ≠ .endless →
    (firstAccepted attempt refusal ms).toOption = ms.findSome? fun m => (attempt m).toOption
  | [], _ => rfl
  | m :: rest, h => by
      cases hm : outcome (attempt m) with
      | endless =>
          rw [firstAccepted_cons_of_endless (outcome_eq_endless.mp hm)] at h
          exact absurd rfl h
      | refused =>
          obtain ⟨e, he, _⟩ := outcome_eq_refused.mp hm
          rw [firstAccepted_cons_of_refused hm] at h ⊢
          rw [toOption_firstAccepted h, List.findSome?_cons, he]
          rfl
      | value w =>
          have hw := outcome_eq_value.mp hm
          rw [firstAccepted_cons_of_value hw, List.findSome?_cons, hw]
          rfl

/-- All are refused when trying in turn comes to a refusal. -/
theorem outcome_of_firstAccepted_refused : ∀ {ms : List α},
    outcome (firstAccepted attempt refusal ms) = .refused → ∀ m ∈ ms, outcome (attempt m) = .refused
  | [], _ => by simp
  | m :: rest, h => by
      cases hm : outcome (attempt m) with
      | endless =>
          rw [firstAccepted_cons_of_endless (outcome_eq_endless.mp hm)] at h
          cases h
      | refused =>
          rw [firstAccepted_cons_of_refused hm] at h
          exact List.forall_mem_cons.mpr ⟨hm, outcome_of_firstAccepted_refused h⟩
      | value w =>
          rw [firstAccepted_cons_of_value (outcome_eq_value.mp hm)] at h
          cases h

variable (hall : ∀ m ∈ ms, ∀ w, attempt m = .ok w → o = .value w)
  (hex : ∃ m ∈ ms, outcome (attempt m) = o)
include hall hex

/-- When all that succeed come to the same, trying in turn comes to that or does not end. -/
theorem outcome_firstAccepted_le_of_forall : outcome (firstAccepted attempt refusal ms) ≤ o := by
  cases h : outcome (firstAccepted attempt refusal ms) with
  | endless => exact .inl rfl
  | refused =>
      obtain ⟨m, hm, hmo⟩ := hex
      exact .inr ((outcome_of_firstAccepted_refused h m hm).symm.trans hmo)
  | value w =>
      obtain ⟨before, m, after, rfl, _, hm⟩ := firstAccepted_eq_ok_iff.mp (outcome_eq_value.mp h)
      exact .inr (hall m (by simp) w hm).symm

/-- When all that succeed come to the same, the first that does is as good as any. -/
theorem findSome?_eq_of_forall {x : Reading} (hx : outcome x = o) :
    x.toOption = ms.findSome? fun m => (attempt m).toOption := by
  cases hfind : ms.findSome? fun m => (attempt m).toOption with
  | some w =>
      obtain ⟨m, hm, hw⟩ := List.exists_of_findSome?_eq_some hfind
      rw [toOption_eq_some_iff] at hw ⊢
      exact outcome_eq_value.mp (hx.trans (hall m hm w hw))
  | none =>
      obtain ⟨m, hm, hmo⟩ := hex
      rw [toOption_congr (hx.trans hmo.symm)]
      exact List.findSome?_eq_none_iff.mp hfind m hm

end firstAccepted

/-! ### Unions -/

/-- A union that is asked for a value: its members as places, the names of the definitions that
they are, and its tag. An inline union is not asked for null. -/
inductive UnionAt (t : Table) (v : Json) :
    Place → List Place → List String → Option String → Prop
  | named {name : String} {d : Definition} {names : List String} {tag : Option String}
      (hd : t.get? name = some d) (hk : d.kind = .union names tag) :
      UnionAt t v (.definition name) (names.map Place.definition) names tag
  | inline {s : Spec} {members : List Spec} {names : List String} {tag : Option String}
      (hs : s ∈ t.specs) (hshape : s.shape = .union members tag)
      (hnames : memberNames members = some names) (hv : v.isNull = false) :
      UnionAt t v (.spec s) (members.map Place.spec) names tag

namespace UnionAt
variable {v : Json} {place : Place} {members : List Place} {names : List String}
  {tag : Option String}

theorem has (h : UnionAt t v place members names tag) : t.Has place := by
  cases h with
  | named => trivial
  | inline hs => exact hs

/-- A bare reference is read as its definition. -/
theorem outcome_member (h : UnionAt t v place members names tag) (path : Path) :
    List.Forall₂ (fun p m => outcome (t.reading p v path) =
      outcome (t.reading (.definition m) v path)) members names := by
  cases h with
  | named => exact List.forall₂_map_left_iff.mpr (List.forall₂_same.mpr fun _ _ => rfl)
  | inline hs hshape hnames hv =>
      obtain ⟨hlen, hzip⟩ := List.forall₂_iff_zip.mp (memberNames_eq_some_iff.mp hnames)
      refine List.forall₂_map_left_iff.mpr (List.forall₂_iff_zip.mpr ⟨hlen, fun hcm => ?_⟩)
      have hc : t.Has (.spec _) :=
        mem_specs_of_inner hs (by simpa [hshape, Shape.inner] using (List.of_mem_zip hcm).1)
      rw [outcome_reading hc path path]
      simp [readPlace, readSpec, hv, readShape, hzip hcm]

/-- A union is read as the member that the tag of the value tells. -/
theorem outcome_of_tagged (h : UnionAt t v place members names tag) {m : String}
    (hm : (tag.bind fun tag => taggedMember t names tag v) = some m) (path : Path) :
    outcome (t.reading place v path) = outcome (t.reading (.definition m) v path) := by
  rw [outcome_reading h.has path path]
  cases h with
  | named hd hk => simp [readPlace, readDefinition, hd, hk, hm]
  | inline hs hshape hnames hv =>
      simp [readPlace, readSpec, hv, readShape, readUnion, hshape, hnames, hm]

/-- A union is tried in turn for a value without a tag. -/
theorem outcome_of_untagged (h : UnionAt t v place members names tag)
    (hm : (tag.bind fun tag => taggedMember t names tag v) = none) (path : Path)
    (union : Option String) : outcome (t.reading place v path) = outcome
      (firstAccepted (fun p => t.reading p v path) (.noMatchingMember path union) members) := by
  have hcongr : ∀ {e : CanonicalError}, outcome (.error e : Reading) = .refused →
      outcome (firstAccepted (fun p => t.reading p v path) e members) = outcome
        (firstAccepted (fun p => t.reading p v path) (.noMatchingMember path union) members) :=
    fun he => le_antisymm (outcome_firstAccepted_le he rfl fun _ _ => le_rfl)
      (outcome_firstAccepted_le rfl he fun _ _ => le_rfl)
  rw [outcome_reading h.has path path]
  cases h with
  | @named name _ _ _ hd hk =>
      rw [← hcongr (e := .noMatchingMember path (some name)) rfl, firstAccepted_map]
      simp [readPlace, readDefinition, hd, hk, hm]
  | inline hs hshape hnames hv =>
      rw [← hcongr (e := .noMatchingMember path none) rfl, firstAccepted_map]
      simp [readPlace, readSpec, hv, readShape, readUnion, hshape, hnames, hm]

/-- When the tag of a value tells a member, every member that takes the value comes to what that
one comes to. -/
theorem eq_value_of_tagged (h : UnionAt t v place members names tag) {m : String}
    (hm : (tag.bind fun tag => taggedMember t names tag v) = some m)
    (htag : ∀ x ∈ tag, t.Tagged x names) {path : Path} {p : Place} (hp : p ∈ members) {w : Json}
    (hw : t.reading p v path = .ok w) :
    outcome (t.reading (.definition m) v path) = .value w := by
  obtain ⟨x, hx, hm⟩ := Option.bind_eq_some_iff.mp hm
  have hflip : List.Forall₂ (fun m p => outcome (t.reading p v path) =
      outcome (t.reading (.definition m) v path)) names members := (h.outcome_member path).flip
  obtain ⟨m', hm', hp'⟩ := exists_of_forall₂ hflip hp
  have hvalue := hp'.symm.trans (outcome_eq_value.mpr hw)
  obtain rfl := (htag x hx).eq_of_readWithin hm hm' (outcome_eq_value.mp hvalue)
  exact hvalue

end UnionAt

/-- Trying the members in turn ends when all readings do. -/
theorem firstAccepted_ne_endless {v : Json} {place : Place} {members : List Place}
    {names : List String} {tag : Option String} (h : UnionAt t v place members names tag)
    (hends : ∀ name path, t.reading (.definition name) v path ≠ .error .endless) (path : Path)
    (union : Option String) :
    firstAccepted (fun p => t.reading p v path) (.noMatchingMember path union) members ≠
      .error .endless := by
  intro hend
  obtain ⟨p, hp, hpend⟩ := exists_of_firstAccepted_endless (by simp) hend
  have hflip : List.Forall₂ (fun m p => outcome (t.reading p v path) =
      outcome (t.reading (.definition m) v path)) names members := (h.outcome_member path).flip
  obtain ⟨m, -, hm⟩ := exists_of_forall₂ hflip hp
  rw [hpend] at hm
  exact hends m path (outcome_eq_endless.mp hm.symm)

/-- Members that tell what they are make the tag and trying in turn agree, wherever trying in turn
ends. What the tag tells, if that ends, is what the first member takes that takes the value at all.
Both end for every value when the table has a plan and no default holds an object. -/
theorem outcome_union_eq {v : Json} {place : Place} {members : List Place} {names : List String}
    {tag : String} (h : UnionAt t v place members names (some tag)) (htag : t.Tagged tag names)
    (path : Path) (union : Option String) :
    let inTurn := firstAccepted (fun p => t.reading p v path) (.noMatchingMember path union) members
    (inTurn ≠ .error .endless → outcome (t.reading place v path) = outcome inTurn) ∧
      (t.reading place v path ≠ .error .endless →
        (t.reading place v path).toOption =
          members.findSome? fun p => (t.reading p v path).toOption) ∧
      ∀ blocks order plan, t.graph.IsComponents blocks → t.planWith blocks order = .ok plan →
        t.PlainDefaults → t.reading place v path ≠ .error .endless ∧ inTurn ≠ .error .endless := by
  intro inTurn
  have hends : ∀ blocks order plan, t.graph.IsComponents blocks →
      t.planWith blocks order = .ok plan → t.PlainDefaults →
        t.reading place v path ≠ .error .endless ∧ inTurn ≠ .error .endless :=
    fun blocks order plan hb hplan hdef =>
      ⟨reading_ne_endless hb hplan hdef h.has v path, firstAccepted_ne_endless h
        (fun name path => reading_ne_endless hb hplan hdef (t.has_definition name) v path) path
        union⟩
  cases hm : (some tag).bind fun tag => taggedMember t names tag v with
  | none =>
      have heq := h.outcome_of_untagged hm path union
      refine ⟨fun _ => heq, fun hend => ?_, hends⟩
      rw [toOption_congr heq]
      refine toOption_firstAccepted fun hend' => hend ?_
      exact outcome_eq_endless.mp (heq.trans hend')
  | some m =>
      have heq := h.outcome_of_tagged hm path
      have hall : ∀ p ∈ members, ∀ w, t.reading p v path = .ok w →
          outcome (t.reading (.definition m) v path) = .value w :=
        fun p hp w hw => h.eq_value_of_tagged hm (by simpa using htag) hp hw
      have hex : ∃ p ∈ members,
          outcome (t.reading p v path) = outcome (t.reading (.definition m) v path) :=
        exists_of_forall₂ (h.outcome_member path) (mem_of_taggedMember hm)
      refine ⟨fun hend => ?_, fun _ => findSome?_eq_of_forall hall hex heq, hends⟩
      have hle : outcome inTurn ≤ _ := outcome_firstAccepted_le_of_forall hall hex
      exact heq.trans (Outcome.eq_of_le hle fun he => hend (outcome_eq_endless.mp he))

/-- Two members with different constants tell what they are. -/
theorem tagged_pair {tag a b : String} {c e : Json} (ha : t.constant? a tag = some c)
    (hb : t.constant? b tag = some e) (hc : c.isNull = false) (he : e.isNull = false)
    (hdiff : c.same e = false) (hdiff' : e.same c = false) : t.Tagged tag [a, b] where
  constant m hm := by
    rcases List.mem_pair.mp hm with rfl | rfl
    · exact ⟨c, ha, hc⟩
    · exact ⟨e, hb, he⟩
  different m hm n hn hne c' hc' e' he' := by
    rcases List.mem_pair.mp hm with rfl | rfl <;> rcases List.mem_pair.mp hn with rfl | rfl
    · exact absurd rfl hne
    · rw [Option.mem_def, ha] at hc'
      rw [Option.mem_def, hb] at he'
      rw [← Option.some.inj hc', ← Option.some.inj he', hdiff]
    · rw [Option.mem_def, hb] at hc'
      rw [Option.mem_def, ha] at he'
      rw [← Option.some.inj hc', ← Option.some.inj he', hdiff']
    · exact absurd rfl hne

theorem tagged_drawings : drawings.Tagged "kind" ["Circle", "Group"] :=
  tagged_pair (c := .string "circle") (e := .string "group") rfl rfl rfl rfl rfl rfl

/-- A figure whose kind tells that it is a group: no circle takes it. -/
theorem outcome_union_eq_group :
    UnionAt drawings looseGroup (.definition "Figure") (["Circle", "Group"].map .definition)
        ["Circle", "Group"] (some "kind") ∧
      drawings.Tagged "kind" ["Circle", "Group"] ∧
      drawings.canonicalAs "Figure" looseGroup ≠ .error .endless ∧
      outcome (drawings.canonicalAs "Figure" looseGroup) =
        outcome (firstAccepted (fun p => drawings.reading p looseGroup [])
          (.noMatchingMember [] (some "Figure")) (["Circle", "Group"].map .definition)) := by
  have hunion : UnionAt drawings looseGroup (.definition "Figure")
    (["Circle", "Group"].map .definition) ["Circle", "Group"] (some "kind") := .named rfl rfl
  have hplan : drawings.planWith drawings.blocks {} = .ok _ := rfl
  obtain ⟨heq, -, hends⟩ := outcome_union_eq hunion tagged_drawings [] (some "Figure")
  obtain ⟨htag, hinTurn⟩ := hends _ _ _ isComponents_blocks hplan (by decide)
  exact ⟨hunion, tagged_drawings, htag, heq hinTurn⟩

theorem tagged_chains : chains.Tagged "kind" ["Knot", "Bead"] :=
  tagged_pair (c := .string "knot") (e := .string "bead") rfl rfl rfl rfl rfl rfl

/-- Without a look at the tag, a bead is first tried as a knot, whose chain has no end. -/
theorem bead_endless_inTurn :
    let bead := Json.object [("kind", .string "bead")]
    UnionAt chains bead (.definition "Jewel") (["Knot", "Bead"].map .definition)
        ["Knot", "Bead"] (some "kind") ∧
      chains.Tagged "kind" ["Knot", "Bead"] ∧
      chains.canonicalAs "Jewel" bead = .ok bead ∧
      ∀ n, firstAccepted (fun p => readWithin chains n p bead [])
        (.noMatchingMember [] (some "Jewel")) (["Knot", "Bead"].map .definition) =
          .error .endless := by
  intro bead
  refine ⟨.named rfl rfl, tagged_chains, rfl, fun n => firstAccepted_cons_of_endless ?_⟩
  cases n with
  | zero => rfl
  | succ n =>
      show (readWithin chains n (.spec link) (.object []) _ >>= fun w => _).map Json.object = _
      rw [(readWithin_chain n _).2]
      rfl

end Table

end SchemaModels
