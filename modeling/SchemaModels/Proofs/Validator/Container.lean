import SchemaModels.Proofs.Spec.Extent
import SchemaModels.Validator.Nullish

/-!
# Records and lists behind references

Values of a specification can be records or lists when one is reached from its shape: through the
members of unions, and through references as far as aliases lead. A search remembers the names that
it asked for and follows none of them again, so that it ends on aliases that lead back to each
other. A name that was asked for before in vain has been followed already, or is being followed
still, so that skipping it changes no answer.

* `Table.LeadsToContainer`: a record or a list is reached from a shape.
* `Table.Searches`: the search, by what is left to look at.
* `exists_searches`: every search ends.
* `Searches.exists_searchedInVain`: what a search in vain has seen is explored.
* `LeadsToContainer.not_avoids`: behind what is explored there is no record and no list.
* `holdsContainer_iff`: the same for what grows from the places that a specification refers to.
* `searches_and_holdsContainer_iff`: the answer of the search is `holdsContainer`, and it says
  whether a record or a list is reached.
-/

namespace SchemaModels

/-! ### Heads -/

theorem Spec.heads_eq (s : Spec) : s.heads = s.shape.heads := by
  cases s
  rfl

theorem Shape.mem_heads_union {members : List Spec} {discriminator : Option String} {head : Shape} :
    head ∈ (Shape.union members discriminator).heads ↔ ∃ s ∈ members, head ∈ s.shape.heads := by
  rw [Shape.heads]
  induction members with
  | nil => simp [Spec.headsAll]
  | cons s rest ih => simp [Spec.headsAll, Spec.heads_eq, ih]

/-- Whether values of a shape are neither records nor lists, whatever the table. -/
def Shape.isPlain : Shape → Bool
  | .primitive _ => true
  | .literal _ => true
  | .const _ => true
  | .any => true
  | _ => false

/-- A sequence or a dictionary is its own head. -/
theorem Shape.mem_heads_of_isContainer {shape : Shape} (h : shape.isContainer = true) :
    shape ∈ shape.heads := by
  cases shape <;> simp_all [isContainer, heads]

namespace Table
variable {t : Table}

/-! ### What is reached -/

/-- A record or a list is reached from a shape. -/
inductive LeadsToContainer (t : Table) : Shape → Prop
  | container {shape : Shape} (h : shape.isContainer = true) : LeadsToContainer t shape
  | member {members : List Spec} {discriminator : Option String} {s : Spec} (hs : s ∈ members)
      (h : LeadsToContainer t s.shape) : LeadsToContainer t (.union members discriminator)
  | object {n : String} {d : Definition} {record : Record} (hd : t.get? n = some d)
      (hk : d.kind = .object record) : LeadsToContainer t (.reference n)
  | union {n : String} {d : Definition} {members : List String} {discriminator : Option String}
      (hd : t.get? n = some d) (hk : d.kind = .union members discriminator) :
      LeadsToContainer t (.reference n)
  | typeAlias {n : String} {d : Definition} {spec : Spec} (hd : t.get? n = some d)
      (hk : d.kind = .typeAlias spec) (h : LeadsToContainer t spec.shape) :
      LeadsToContainer t (.reference n)

theorem LeadsToContainer.of_head (s : Spec) {head : Shape} (hmem : head ∈ s.shape.heads)
    (h : t.LeadsToContainer head) : t.LeadsToContainer s.shape := by
  induction s using Spec.induct with
  | h s ih =>
      cases hs : s.shape with
      | union members discriminator =>
          rw [hs] at hmem ih
          obtain ⟨c, hc, hmem⟩ := Shape.mem_heads_union.mp hmem
          exact .member hc (ih c hc hmem)
      | _ =>
          rw [hs, Shape.heads, List.mem_singleton] at hmem
          rwa [← hmem]

/-! ### What is explored -/

/-- The heads of a shape are no records or lists, and refer to names of a set only. -/
def Avoids (names : Set String) (shape : Shape) : Prop :=
  ∀ head ∈ shape.heads, head.isContainer = false ∧ ∀ n, head = .reference n → n ∈ names

/-- A name is that of no record and no union, and as an alias it refers to names of a set. -/
def Explored (t : Table) (names : Set String) (n : String) : Prop :=
  ∀ d, t.get? n = some d → match d.kind with
    | .enum _ => True
    | .typeAlias spec => Avoids names spec.shape
    | .object _ | .union _ _ => False

theorem avoids_union_iff {names : Set String} {members : List Spec}
    {discriminator : Option String} :
    Avoids names (.union members discriminator) ↔ ∀ s ∈ members, Avoids names s.shape := by
  unfold Avoids
  simp only [Shape.mem_heads_union]
  exact ⟨fun h s hs head hhead => h head ⟨s, hs, hhead⟩,
    fun h head ⟨s, hs, hhead⟩ => h s hs head hhead⟩

theorem avoids_reference_iff {names : Set String} {n : String} :
    Avoids names (.reference n) ↔ n ∈ names := by
  simp [Avoids, Shape.heads, Shape.isContainer]

theorem avoids_of_isPlain {names : Set String} {shape : Shape} (h : shape.isPlain = true) :
    Avoids names shape := by
  cases shape <;> simp_all [Avoids, Shape.isPlain, Shape.heads, Shape.isContainer]

/-- Behind names that are all explored there is no record and no list. -/
theorem LeadsToContainer.not_avoids {names : Set String}
    (hnames : ∀ n ∈ names, t.Explored names n) {shape : Shape} (h : t.LeadsToContainer shape) :
    ¬Avoids names shape := by
  have hname : ∀ {n : String}, Avoids names (.reference n) → t.Explored names n :=
    fun havoids => hnames _ (avoids_reference_iff.mp havoids)
  intro havoids
  induction h with
  | container h =>
      have hplain := (havoids _ (Shape.mem_heads_of_isContainer h)).1
      exact absurd h (by simp [hplain])
  | member hs _ ih => exact ih (avoids_union_iff.mp havoids _ hs)
  | object hd hk =>
      have hexplored := hname havoids _ hd
      rwa [hk] at hexplored
  | union hd hk =>
      have hexplored := hname havoids _ hd
      rwa [hk] at hexplored
  | typeAlias hd hk _ ih =>
      have hexplored := hname havoids _ hd
      rw [hk] at hexplored
      exact ih hexplored

/-! ### The search -/

/-- The search of shapes, one after the other, when names have been asked for before, with its
answer. The members of a union and what an alias stands for are looked at in its place, a name is
not followed again, and the first record or list ends the search. -/
inductive Searches (t : Table) : List String → List Shape → Bool → Prop
  | nothing {asked : List String} : Searches t asked [] false
  | container {asked : List String} {shape : Shape} {rest : List Shape}
      (h : shape.isContainer = true) : Searches t asked (shape :: rest) true
  | members {asked : List String} {members : List Spec} {discriminator : Option String}
      {rest : List Shape} {answer : Bool}
      (h : Searches t asked (members.map Spec.shape ++ rest) answer) :
      Searches t asked (.union members discriminator :: rest) answer
  | again {asked : List String} {n : String} {rest : List Shape} {answer : Bool} (hn : n ∈ asked)
      (h : Searches t asked rest answer) : Searches t asked (.reference n :: rest) answer
  | object {asked : List String} {n : String} {d : Definition} {record : Record}
      {rest : List Shape} (hn : n ∉ asked) (hd : t.get? n = some d)
      (hk : d.kind = .object record) : Searches t asked (.reference n :: rest) true
  | union {asked : List String} {n : String} {d : Definition} {members : List String}
      {discriminator : Option String} {rest : List Shape} (hn : n ∉ asked)
      (hd : t.get? n = some d) (hk : d.kind = .union members discriminator) :
      Searches t asked (.reference n :: rest) true
  | typeAlias {asked : List String} {n : String} {d : Definition} {spec : Spec}
      {rest : List Shape} {answer : Bool} (hn : n ∉ asked) (hd : t.get? n = some d)
      (hk : d.kind = .typeAlias spec) (h : Searches t (n :: asked) (spec.shape :: rest) answer) :
      Searches t asked (.reference n :: rest) answer
  | enum {asked : List String} {n : String} {d : Definition} {values : List String}
      {rest : List Shape} {answer : Bool} (hn : n ∉ asked) (hd : t.get? n = some d)
      (hk : d.kind = .enum values) (h : Searches t (n :: asked) rest answer) :
      Searches t asked (.reference n :: rest) answer
  | unresolved {asked : List String} {n : String} {rest : List Shape} {answer : Bool}
      (hn : n ∉ asked) (hd : t.get? n = none) (h : Searches t (n :: asked) rest answer) :
      Searches t asked (.reference n :: rest) answer
  | plain {asked : List String} {shape : Shape} {rest : List Shape} {answer : Bool}
      (hshape : shape.isPlain = true) (h : Searches t asked rest answer) :
      Searches t asked (shape :: rest) answer

/-- The number of definitions that have not been asked for. -/
def unasked (t : Table) (asked : List String) : Nat := t.names.countP fun n => n ∉ asked

/-- The size of what is left to look at. -/
def leftSize : List Shape → Nat
  | [] => 0
  | shape :: rest => shape.specs.length + 1 + leftSize rest

theorem leftSize_append (shapes rest : List Shape) :
    leftSize (shapes ++ rest) = leftSize shapes + leftSize rest := by
  induction shapes with
  | nil => rw [List.nil_append, leftSize, Nat.zero_add]
  | cons shape shapes ih =>
      rw [List.cons_append, leftSize, leftSize, ih]
      omega

theorem leftSize_map_shape (members : List Spec) :
    leftSize (members.map Spec.shape) = (Spec.specsAll members).length := by
  induction members with
  | nil => rfl
  | cons s rest ih =>
      have hs : s.specs.length = s.shape.specs.length + 1 := by cases s; rfl
      rw [List.map_cons, leftSize, ih, Spec.specsAll, List.length_append, hs]

theorem leftSize_members_lt (members : List Spec) (discriminator : Option String)
    (rest : List Shape) : leftSize (members.map Spec.shape ++ rest) <
      leftSize (.union members discriminator :: rest) := by
  rw [leftSize_append, leftSize_map_shape, leftSize, Shape.specs]
  omega

theorem leftSize_lt_cons (shape : Shape) (rest : List Shape) :
    leftSize rest < leftSize (shape :: rest) := by
  rw [leftSize]
  omega

/-- Asking for one name more leaves no more of any names. -/
theorem countP_not_mem_cons_le (n : String) (asked names : List String) :
    names.countP (fun m => m ∉ n :: asked) ≤ names.countP fun m => m ∉ asked := by
  refine List.countP_mono_left fun m _ hm => ?_
  simp only [List.mem_cons, not_or, decide_eq_true_eq] at hm ⊢
  exact hm.2

/-- A definition that is asked for the first time is one less to ask for. -/
theorem unasked_cons_lt {n : String} {asked : List String} {d : Definition}
    (hd : t.get? n = some d) (hn : n ∉ asked) : t.unasked (n :: asked) < t.unasked asked := by
  have hmem : n ∈ t.names := mem_names.mpr ⟨d, get?_eq_some_iff.mp hd⟩
  obtain ⟨before, after, hnames⟩ := List.append_of_mem hmem
  have hbefore := countP_not_mem_cons_le n asked before
  have hafter := countP_not_mem_cons_le n asked after
  unfold unasked
  rw [hnames, List.countP_append, List.countP_append, List.countP_cons_of_neg (by simp),
    List.countP_cons_of_pos (by simpa using hn)]
  omega

/-- Every search ends: each step asks for a definition that was not asked for before, or leaves less
to look at. -/
theorem exists_searches (t : Table) (asked : List String) : ∀ shapes : List Shape,
    ∃ answer, t.Searches asked shapes answer
  | [] => ⟨false, .nothing⟩
  | .union members discriminator :: rest => by
      have := leftSize_members_lt members discriminator rest
      obtain ⟨answer, h⟩ := exists_searches t asked (members.map Spec.shape ++ rest)
      exact ⟨answer, .members h⟩
  | .array item :: rest => ⟨true, .container rfl⟩
  | .tuple items :: rest => ⟨true, .container rfl⟩
  | .map value :: rest => ⟨true, .container rfl⟩
  | .primitive kind :: rest => by
      have := leftSize_lt_cons (.primitive kind) rest
      obtain ⟨answer, h⟩ := exists_searches t asked rest
      exact ⟨answer, .plain rfl h⟩
  | .literal values :: rest => by
      have := leftSize_lt_cons (.literal values) rest
      obtain ⟨answer, h⟩ := exists_searches t asked rest
      exact ⟨answer, .plain rfl h⟩
  | .const value :: rest => by
      have := leftSize_lt_cons (.const value) rest
      obtain ⟨answer, h⟩ := exists_searches t asked rest
      exact ⟨answer, .plain rfl h⟩
  | .any :: rest => by
      have := leftSize_lt_cons .any rest
      obtain ⟨answer, h⟩ := exists_searches t asked rest
      exact ⟨answer, .plain rfl h⟩
  | .reference n :: rest => by
      have hrest := leftSize_lt_cons (.reference n) rest
      by_cases hn : n ∈ asked
      · obtain ⟨answer, h⟩ := exists_searches t asked rest
        exact ⟨answer, .again hn h⟩
      · have hle : t.unasked (n :: asked) ≤ t.unasked asked :=
          countP_not_mem_cons_le n asked t.names
        cases hd : t.get? n with
        | none =>
            obtain ⟨answer, h⟩ := exists_searches t (n :: asked) rest
            exact ⟨answer, .unresolved hn hd h⟩
        | some d =>
            have hlt := unasked_cons_lt hd hn
            cases hk : d.kind with
            | enum values =>
                obtain ⟨answer, h⟩ := exists_searches t (n :: asked) rest
                exact ⟨answer, .enum hn hd hk h⟩
            | object record => exact ⟨true, .object hn hd hk⟩
            | union members discriminator => exact ⟨true, .union hn hd hk⟩
            | typeAlias spec =>
                obtain ⟨answer, h⟩ := exists_searches t (n :: asked) (spec.shape :: rest)
                exact ⟨answer, .typeAlias hn hd hk h⟩
termination_by shapes => (t.unasked asked, leftSize shapes)
decreasing_by all_goals simp only [Prod.lex_def, true_and]; omega

/-- What a search finds is reached from one of the shapes. -/
theorem Searches.exists_leadsToContainer {asked : List String} {shapes : List Shape} {answer : Bool}
    (h : t.Searches asked shapes answer) (hanswer : answer = true) :
    ∃ shape ∈ shapes, t.LeadsToContainer shape := by
  induction h with
  | nothing => cases hanswer
  | container h => exact ⟨_, List.mem_cons_self, .container h⟩
  | members _ ih =>
      obtain ⟨shape, hmem, hleads⟩ := ih hanswer
      rcases List.mem_append.mp hmem with hmem | hmem
      · obtain ⟨s, hs, rfl⟩ := List.mem_map.mp hmem
        exact ⟨_, List.mem_cons_self, .member hs hleads⟩
      · exact ⟨shape, List.mem_cons_of_mem _ hmem, hleads⟩
  | object _ hd hk => exact ⟨_, List.mem_cons_self, .object hd hk⟩
  | union _ hd hk => exact ⟨_, List.mem_cons_self, .union hd hk⟩
  | typeAlias _ hd hk _ ih =>
      obtain ⟨shape, hmem, hleads⟩ := ih hanswer
      rcases List.mem_cons.mp hmem with rfl | hmem
      · exact ⟨_, List.mem_cons_self, .typeAlias hd hk hleads⟩
      · exact ⟨shape, List.mem_cons_of_mem _ hmem, hleads⟩
  | again _ _ ih | enum _ _ _ _ ih | unresolved _ _ _ ih | plain _ _ ih =>
      obtain ⟨shape, hmem, hleads⟩ := ih hanswer
      exact ⟨shape, List.mem_cons_of_mem _ hmem, hleads⟩

/-- What a search in vain leaves: names to which alone the shapes refer, all of them explored but
for those that were asked for before it. -/
structure SearchedInVain (t : Table) (asked : List String) (shapes : List Shape)
    (names : Set String) : Prop where
  asked_subset : ∀ n ∈ asked, n ∈ names
  avoids : ∀ shape ∈ shapes, Avoids names shape
  explored : ∀ n ∈ names, n ∈ asked ∨ t.Explored names n

/-- A name that is asked for is explored when the search is over. -/
theorem SearchedInVain.reference {n : String} {asked : List String} {rest : List Shape}
    {names : Set String} (h : t.SearchedInVain (n :: asked) rest names)
    (hn : t.Explored names n) : t.SearchedInVain asked (.reference n :: rest) names where
  asked_subset m hm := h.asked_subset m (List.mem_cons_of_mem n hm)
  avoids := List.forall_mem_cons.mpr
    ⟨avoids_reference_iff.mpr (h.asked_subset n List.mem_cons_self), h.avoids⟩
  explored m hm := by
    rcases h.explored m hm with hmem | hexplored
    · rcases List.mem_cons.mp hmem with rfl | hmem
      · exact .inr hn
      · exact .inl hmem
    · exact .inr hexplored

/-- What a search in vain has seen is explored, also where it came back to a name. -/
theorem Searches.exists_searchedInVain {asked : List String} {shapes : List Shape} {answer : Bool}
    (h : t.Searches asked shapes answer) (hanswer : answer = false) :
    ∃ names, t.SearchedInVain asked shapes names := by
  induction h with
  | @nothing asked => exact ⟨{n | n ∈ asked}, fun _ hn => hn, by simp, fun _ hn => .inl hn⟩
  | container _ | object _ _ _ | union _ _ _ => cases hanswer
  | members _ ih =>
      obtain ⟨names, hasked, havoids, hnames⟩ := ih hanswer
      refine ⟨names, hasked, List.forall_mem_cons.mpr ⟨avoids_union_iff.mpr ?_, ?_⟩, hnames⟩
      · exact fun s hs => havoids _ (List.mem_append_left _ (List.mem_map_of_mem hs))
      · exact fun shape hshape => havoids _ (List.mem_append_right _ hshape)
  | again hn _ ih =>
      obtain ⟨names, hasked, havoids, hnames⟩ := ih hanswer
      have hreference := avoids_reference_iff.mpr (hasked _ hn)
      exact ⟨names, hasked, List.forall_mem_cons.mpr ⟨hreference, havoids⟩, hnames⟩
  | typeAlias _ hd hk _ ih =>
      obtain ⟨names, hasked, havoids, hnames⟩ := ih hanswer
      obtain ⟨hspec, hrest⟩ := List.forall_mem_cons.mp havoids
      refine ⟨names, SearchedInVain.reference ⟨hasked, hrest, hnames⟩ fun e he => ?_⟩
      obtain rfl := Option.some.inj (hd.symm.trans he)
      rwa [hk]
  | enum _ hd hk _ ih =>
      obtain ⟨names, hrest⟩ := ih hanswer
      refine ⟨names, hrest.reference fun e he => ?_⟩
      obtain rfl := Option.some.inj (hd.symm.trans he)
      rw [hk]
      exact trivial
  | unresolved _ hd _ ih =>
      obtain ⟨names, hrest⟩ := ih hanswer
      refine ⟨names, hrest.reference fun e he => ?_⟩
      cases hd.symm.trans he
  | plain hshape _ ih =>
      obtain ⟨names, hasked, havoids, hnames⟩ := ih hanswer
      exact ⟨names, hasked, List.forall_mem_cons.mpr ⟨avoids_of_isPlain hshape, havoids⟩, hnames⟩

/-- The answer of a search that has asked for nothing before. -/
theorem Searches.answer_iff {shape : Shape} {answer : Bool} (h : t.Searches [] [shape] answer) :
    answer = true ↔ t.LeadsToContainer shape := by
  constructor
  · intro hanswer
    obtain ⟨found, hmem, hleads⟩ := h.exists_leadsToContainer hanswer
    rwa [← List.mem_singleton.mp hmem]
  · intro hleads
    by_contra hanswer
    obtain ⟨names, _, havoids, hnames⟩ := h.exists_searchedInVain (by simpa using hanswer)
    have hexplored : ∀ n ∈ names, t.Explored names n := fun n hn =>
      (hnames n hn).resolve_left List.not_mem_nil
    exact hleads.not_avoids hexplored (havoids shape List.mem_cons_self)

/-! ### The places behind heads -/

theorem mem_headPlaces {heads : List Shape} {i : Nat} :
    i ∈ t.headPlaces heads ↔
      ∃ d, t.definitions[i]? = some d ∧ Shape.reference d.name ∈ heads := by
  simp only [headPlaces, mem_indices, List.mem_filterMap, Shape.asReference?_eq_some_iff,
    exists_eq_right]

theorem headGraph_next {i : Nat} {d : Definition} (hd : t.definitions[i]? = some d) :
    t.headGraph.next i = t.headPlaces (aliasHeads d) := by
  simp [headGraph, List.getD_eq_getElem?_getD, hd]

/-- An edge between heads leads from an alias to what stands for it. -/
theorem exists_typeAlias_of_edge {i j : Nat} (h : t.headGraph.Edge i j) :
    ∃ d e spec, t.definitions[i]? = some d ∧ t.definitions[j]? = some e ∧
      d.kind = .typeAlias spec ∧ Shape.reference e.name ∈ spec.shape.heads := by
  obtain ⟨hi, _, hj⟩ := h
  have hd := List.getElem?_eq_getElem hi
  rw [headGraph_next hd] at hj
  obtain ⟨e, he, hmem⟩ := mem_headPlaces.mp hj
  unfold aliasHeads at hmem
  split at hmem
  · rename_i spec hk
    exact ⟨_, e, spec, hd, he, hk, spec.heads_eq ▸ hmem⟩
  · cases hmem

theorem leadsToContainer_of_isContainerLike {i : Nat} {d : Definition}
    (hd : t.definitions[i]? = some d) (h : isContainerLike d = true) :
    t.LeadsToContainer (.reference d.name) := by
  have hget : t.get? d.name = some d := get?_eq_some_iff.mpr ⟨List.mem_of_getElem? hd, rfl⟩
  unfold isContainerLike at h
  cases hk : d.kind with
  | enum values => simp [hk] at h
  | object record => exact .object hget hk
  | union members discriminator => exact .union hget hk
  | typeAlias spec =>
      rw [hk, List.any_eq_true] at h
      obtain ⟨head, hmem, hcontainer⟩ := h
      exact .typeAlias hget hk (.of_head spec (spec.heads_eq ▸ hmem) (.container hcontainer))

/-- What a chain of aliases leads to, its first alias leads to. -/
theorem leadsToContainer_of_reaches {i j : Nat} (h : t.headGraph.Reaches i j) :
    ∀ {d e : Definition}, t.definitions[i]? = some d → t.definitions[j]? = some e →
      t.LeadsToContainer (.reference e.name) → t.LeadsToContainer (.reference d.name) := by
  have hstep : ∀ {i j : Nat} {d e : Definition}, t.headGraph.Edge i j →
      t.definitions[i]? = some d → t.definitions[j]? = some e →
      t.LeadsToContainer (.reference e.name) → t.LeadsToContainer (.reference d.name) := by
    intro i j d e hedge hd he hleads
    obtain ⟨d', e', spec, hd', he', hk, hmem⟩ := exists_typeAlias_of_edge hedge
    obtain rfl : d' = d := Option.some.inj (hd'.symm.trans hd)
    obtain rfl : e' = e := Option.some.inj (he'.symm.trans he)
    have hget := get?_eq_some_iff.mpr ⟨List.mem_of_getElem? hd, rfl⟩
    exact .typeAlias hget hk (.of_head spec hmem hleads)
  induction h with
  | single hedge => exact hstep hedge
  | tail _ hedge ih =>
      intro d e hd he hleads
      obtain ⟨f, _, _, hf, _⟩ := exists_typeAlias_of_edge hedge
      exact ih hd hf (hstep hedge hf he hleads)

/-- The names that an exhausted set of places stands for, and those of no definition. -/
def namesOf (t : Table) (places : List Nat) : Set String :=
  {n | ∀ i, t.index? n = some i → i ∈ places}

/-- In a closed set of places that holds no record, union or alias of a container, the names are
explored. -/
theorem explored_namesOf {places : List Nat} (hclosed : t.headGraph.Closed places)
    (hplain : ∀ i ∈ places, ∀ d, t.definitions[i]? = some d → isContainerLike d = false)
    {n : String} (hn : n ∈ t.namesOf places) : t.Explored (t.namesOf places) n := by
  intro d hd
  obtain ⟨hmem, rfl⟩ := get?_eq_some_iff.mp hd
  obtain ⟨i, hi⟩ := List.mem_iff_getElem?.mp hmem
  have hplace := hn i (index?_eq_some_iff.mpr ⟨d, hi, rfl⟩)
  have hlike := hplain i hplace d hi
  unfold isContainerLike at hlike
  cases hk : d.kind with
  | enum values => exact trivial
  | object record => simp [hk] at hlike
  | union members discriminator => simp [hk] at hlike
  | typeAlias spec =>
      simp only [hk, spec.heads_eq] at hlike
      intro head hhead
      refine ⟨by simpa using List.any_eq_false.mp hlike head hhead, ?_⟩
      rintro m rfl j hj
      obtain ⟨e, he, rfl⟩ := index?_eq_some_iff.mp hj
      refine hclosed i hplace j ⟨(List.getElem?_eq_some_iff.mp hi).1,
        (List.getElem?_eq_some_iff.mp he).1, ?_⟩
      have haliased : aliasHeads d = spec.shape.heads := by
        simp only [aliasHeads, hk, spec.heads_eq]
      rw [headGraph_next hi, haliased]
      exact mem_headPlaces.mpr ⟨e, he, hhead⟩

/-- A specification holds records or lists exactly when one is reached from its shape. -/
theorem holdsContainer_iff (t : Table) (s : Spec) :
    t.holdsContainer s = true ↔ t.LeadsToContainer s.shape := by
  have hlt : ∀ i ∈ t.headPlaces s.shape.heads, i < t.headGraph.size := by
    intro i hi
    obtain ⟨d, hd, _⟩ := mem_headPlaces.mp hi
    exact (List.getElem?_eq_some_iff.mp hd).1
  simp only [holdsContainer, s.heads_eq, Bool.or_eq_true]
  constructor
  · rintro (hhead | hplace)
    · obtain ⟨head, hmem, hcontainer⟩ := List.any_eq_true.mp hhead
      exact .of_head s hmem (.container hcontainer)
    · obtain ⟨i, hi, hany⟩ := List.any_eq_true.mp hplace
      obtain ⟨e, he, hlike⟩ := (Option.any_eq_true _ _).mp hany
      have hleads := leadsToContainer_of_isContainerLike he hlike
      rcases t.headGraph.reaches_of_mem_closure _ _ hlt i hi with hi | ⟨k, hk, hki⟩
      · obtain ⟨e', he', hmem⟩ := mem_headPlaces.mp hi
        obtain rfl : e' = e := Option.some.inj (he'.symm.trans he)
        exact .of_head s hmem hleads
      · obtain ⟨d, hd, hmem⟩ := mem_headPlaces.mp hk
        exact .of_head s hmem (leadsToContainer_of_reaches hki hd he hleads)
  · intro hleads
    by_contra hnone
    obtain ⟨hhead, hplace⟩ := not_or.mp hnone
    have hclosed := t.headGraph.closed_closure t.definitions.length _ hlt (Nat.le_add_right _ _)
    refine hleads.not_avoids (fun n hn => explored_namesOf hclosed ?_ hn) fun head hmem => ?_
    · intro i hi d hd
      by_contra hlike
      exact hplace (List.any_eq_true.mpr ⟨i, hi, by simpa [hd] using hlike⟩)
    · refine ⟨by simpa using fun h => hhead (List.any_eq_true.mpr ⟨head, hmem, h⟩), ?_⟩
      rintro n rfl i hi
      obtain ⟨d, hd, rfl⟩ := index?_eq_some_iff.mp hi
      exact t.headGraph.subset_closure _ _ hlt (mem_headPlaces.mpr ⟨d, hd, hmem⟩)

/-- On every table, also on one with aliases that lead back to each other or with references to no
definition, a search for a record or a list ends, its one answer is `holdsContainer`, and this is
true exactly when a record or a list is reached. -/
theorem searches_and_holdsContainer_iff (t : Table) (s : Spec) :
    (∀ answer, t.Searches [] [s.shape] answer ↔ answer = t.holdsContainer s) ∧
      (t.holdsContainer s = true ↔ t.LeadsToContainer s.shape) := by
  have hunique : ∀ answer, t.Searches [] [s.shape] answer → answer = t.holdsContainer s := by
    intro answer h
    rw [Bool.eq_iff_iff, h.answer_iff, holdsContainer_iff]
  refine ⟨fun answer => ⟨hunique answer, ?_⟩, t.holdsContainer_iff s⟩
  rintro rfl
  obtain ⟨answer, h⟩ := exists_searches t [] [s.shape]
  rwa [← hunique answer h]

/-- Aliases that lead back to each other, to a name of no definition and to a list. -/
def tangle : Table where
  root := {}
  definitions :=
    [⟨"Left", none, .typeAlias
       { shape := .union [{ shape := .reference "Right" }, { shape := .reference "Nothing" }]
           none }⟩,
     ⟨"Right", none, .typeAlias
       { shape := .union [{ shape := .reference "Left" }, { shape := .primitive .string }] none }⟩,
     ⟨"Both", none, .typeAlias
       { shape := .union [{ shape := .reference "Both" }, { shape := .reference "Right" },
           { shape := .array { shape := .any } }] none }⟩]
  names_nodup := by decide

example : tangle.holdsContainer { shape := .reference "Left" } = false ∧
    tangle.holdsContainer { shape := .reference "Both" } = true := by decide

end Table

end SchemaModels
