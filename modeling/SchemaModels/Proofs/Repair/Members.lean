import SchemaModels.Name.Identifier
import SchemaModels.Proofs.Repair.Layouts

/-!
# Unions of names in any layout

The union of some members is recognized in each of its layouts and in no layout of another union.
Names end where blanks, commas or brackets begin, so that a list of names can be read in one way.

* `IsName`: texts that can be members. Identifiers are (`isName_of_isIdentifier`).
* `Group.sequence_unionOf`: a group's union, where the union of some names stands.
* `Group.exists_aliasText_eq`: the union that aliases have.
-/

namespace SchemaModels.Repair

open Text Pattern

/-- Whether a character can stand in a name: it is neither a blank nor a comma nor a bracket. -/
def isNameChar (c : Char) : Bool := !isBlank c && !([',', '(', ')', '[', ']'].contains c)

/-- A text that names have: it is not empty, and its characters can stand in a name. -/
def IsName (name : String) : Prop :=
  name.toList ≠ [] ∧ ∀ c ∈ name.toList, isNameChar c = true

instance (name : String) : Decidable (IsName name) :=
  @instDecidableAnd _ _ _ (List.decidableBAll (isNameChar · = true) name.toList)

/-- Some names, at least one. -/
def IsNames (names : List String) : Prop := names ≠ [] ∧ ∀ n ∈ names, IsName n

instance (names : List String) : Decidable (IsNames names) :=
  inferInstanceAs (Decidable (names ≠ [] ∧ ∀ n ∈ names, IsName n))

theorem isBlank_of_isNameChar {c : Char} (h : isNameChar c = true) : isBlank c = false := by
  rw [isNameChar, Bool.and_eq_true, Bool.not_eq_true'] at h
  exact h.1

theorem ne_of_isNameChar {c d : Char} (h : isNameChar c = true) (hd : isNameChar d = false) :
    c ≠ d := by
  rintro rfl
  rw [h] at hd
  cases hd

theorem toNat_of_word {c : Char} (h : (c.isAlphanum || ['_'].contains c) = true) :
    48 ≤ c.toNat ∧ c.toNat ≤ 57 ∨ 65 ≤ c.toNat ∧ c.toNat ≤ 90 ∨
      95 ≤ c.toNat ∧ c.toNat ≤ 122 := by
  have hupper : c.isUpper = true → 65 ≤ c.toNat ∧ c.toNat ≤ 90 := of_decide_eq_true
  have hlower : c.isLower = true → 97 ≤ c.toNat ∧ c.toNat ≤ 122 := fun h =>
    (Bool.and_eq_true_iff.mp h).imp of_decide_eq_true of_decide_eq_true
  have hdigit : c.isDigit = true → 48 ≤ c.toNat ∧ c.toNat ≤ 57 := fun h =>
    (Bool.and_eq_true_iff.mp h).imp of_decide_eq_true of_decide_eq_true
  rcases Bool.or_eq_true_iff.mp h with hword | hmark
  · rcases Bool.or_eq_true_iff.mp hword with halpha | h
    · rcases Bool.or_eq_true_iff.mp halpha with h | h
      · exact Or.inr (Or.inl (hupper h))
      · have := hlower h
        omega
    · exact Or.inl (hdigit h)
  · obtain rfl : c = '_' := by simpa using hmark
    decide

theorem isNameChar_of_word {c : Char} (h : (c.isAlphanum || ['_'].contains c) = true) :
    isNameChar c = true := by
  have hc := toNat_of_word h
  have hblank : isBlank c = false := by
    simp only [isBlank, inRanges, blankRanges, List.any_cons, List.any_nil, Bool.or_false,
      Bool.or_eq_false_iff, Bool.and_eq_false_iff, decide_eq_false_iff_not]
    omega
  have hmarks : [',', '(', ')', '[', ']'].contains c = false := by
    refine Bool.eq_false_iff.mpr fun hmem => ?_
    simp only [List.contains_iff_mem, List.mem_cons, List.not_mem_nil, or_false] at hmem
    rcases hmem with rfl | rfl | rfl | rfl | rfl <;> revert hc <;> decide
  rw [isNameChar, hblank, hmarks]
  rfl

/-- Identifiers are names. -/
theorem isName_of_isIdentifier {name : String} (h : Name.isIdentifier name = true) :
    IsName name := by
  refine ⟨fun hnil => ?_, fun c hc => isNameChar_of_word (Name.forall_of_isIdentifier h c hc)⟩
  rw [Name.isIdentifier, hnil] at h
  cases h

/-- A text that begins with no character of a name. -/
def EndsName (s : List Char) : Prop := ∀ c ∈ s.head?, isNameChar c = false

theorem endsName_append_of_mem_gaps {gap s : List Char} (hgap : gap ∈ gaps) (hs : EndsName s) :
    EndsName (gap ++ s) := by
  cases gap with
  | nil => exact hs
  | cons c gap =>
      refine forall_mem_head? rfl ?_
      rw [isNameChar, hgap c List.mem_cons_self]
      rfl

theorem endsName_cons {c : Char} (hc : isNameChar c = false) (s : List Char) :
    EndsName (c :: s) :=
  forall_mem_head? rfl hc

theorem head?_of_isName {name : String} (h : IsName name) :
    ∃ c, name.toList.head? = some c ∧ isNameChar c = true := by
  obtain ⟨hne, hall⟩ := h
  cases hname : name.toList with
  | nil => exact absurd hname hne
  | cons c rest => exact ⟨c, rfl, hall c (hname ▸ List.mem_cons_self)⟩

/-! ### One name -/

section names
variable {m n : String} {ps : List Pattern} {v : List Char}

/-- Where another name stands than the one that is looked for, the patterns fail or go on in the
middle of that name. -/
theorem sequence_word_of_ne (hm : IsName m) (hn : IsName n) (hv : EndsName v) (hne : n ≠ m) :
    sequence (word m.toList :: ps) (n.toList ++ v) = [] ∨
      ∃ d u, isNameChar d = true ∧
        sequence (word m.toList :: ps) (n.toList ++ v) = sequence ps (d :: u) := by
  by_cases hprefix : m.toList <+: n.toList ++ v
  · refine Or.inr ?_
    rcases List.prefix_or_prefix_of_prefix hprefix (List.prefix_append n.toList v) with h | h
    · obtain ⟨u, hu⟩ := h
      cases u with
      | nil =>
          rw [List.append_nil] at hu
          exact absurd (String.toList_inj.mp hu.symm) hne
      | cons d u =>
          refine ⟨d, u ++ v, hn.2 d (hu ▸ by simp), ?_⟩
          rw [← hu, List.append_assoc, sequence_word_append]
          rfl
    · obtain ⟨u, hu⟩ := h
      rw [← hu] at hprefix
      have hu' := (List.prefix_append_right_inj _).mp hprefix
      cases u with
      | nil =>
          rw [List.append_nil] at hu
          exact absurd (String.toList_inj.mp hu) hne
      | cons d u =>
          obtain ⟨w, hw⟩ := hu'
          have hd := hv d (by rw [← hw]; rfl)
          rw [hm.2 d (hu ▸ by simp)] at hd
          cases hd
  · exact Or.inl (sequence_word_of_not hprefix)

variable {d : Char} {u : List Char} (hd : isNameChar d = true)
include hd

/-- No comma stands in the middle of a name. -/
theorem sequence_comma_of_isNameChar :
    sequence (blanks :: word [','] :: ps) (d :: u) = [] := by
  have hsolid : Solid (word [','] :: ps) := solid_word rfl (by decide) ps
  have hhead : ∀ c ∈ (d :: u).head?, isBlank c = false :=
    forall_mem_head? rfl (isBlank_of_isNameChar hd)
  refine (sequence_blanks_append hsolid nil_mem_gaps hhead).trans
    (sequence_word_cons_of_ne ?_ (by decide))
  simpa using (ne_of_isNameChar hd (by decide : isNameChar ',' = false)).symm

/-- No bracket stands in the middle of a name. -/
theorem sequence_bracket_of_isNameChar :
    sequence (optionalComma :: word [']'] :: ps) (d :: u) = [] := by
  have hsolid : Solid (word [']'] :: ps) := solid_word rfl (by decide) ps
  have hhead : ∀ c ∈ (d :: u).head?, isBlank c = false :=
    forall_mem_head? rfl (isBlank_of_isNameChar hd)
  refine (sequence_optionalComma_append hsolid nil_mem_gaps hhead).trans ?_
  rw [sequence_word_cons_of_ne, sequence_word_cons_of_ne, List.append_nil]
  · simpa using (ne_of_isNameChar hd (by decide : isNameChar ']' = false)).symm
  · decide
  · simpa using (ne_of_isNameChar hd (by decide : isNameChar ',' = false)).symm
  · decide

end names

/-! ### Lists of names -/

/-- The end of a union. -/
def unionEnd : List (Language Char) := [commas, {[']']}]

theorem steps_unionEnd : Steps [optionalComma, word [']']] unionEnd :=
  steps_optionalComma_word rfl (by decide) (by decide)

/-- The rest of a list of names, after its first one. -/
def moreNames : List String → List Pattern
  | [] => [optionalComma, word [']']]
  | members => blanks :: word [','] :: blanks :: (Group.memberList members ++
      [optionalComma, word [']']])

theorem memberList_cons (m : String) (members : List String) :
    Group.memberList (m :: members) ++ [optionalComma, word [']']] =
      word m.toList :: moreNames members := by
  cases members <;> rfl

theorem solid_memberList {m : String} (hm : IsName m) (members : List String)
    (qs : List Pattern) :
    Solid (Group.memberList (m :: members) ++ [optionalComma, word [']']] ++ qs) := by
  obtain ⟨c, hc, hname⟩ := head?_of_isName hm
  rw [memberList_cons]
  exact solid_word hc (isBlank_of_isNameChar hname) _

theorem sequence_moreNames_of_isNameChar {d : Char} (hd : isNameChar d = true)
    (members : List String) (qs : List Pattern) (u : List Char) :
    sequence (moreNames members ++ qs) (d :: u) = [] := by
  cases members with
  | nil => exact sequence_bracket_of_isNameChar hd
  | cons m members => exact sequence_comma_of_isNameChar hd

/-- Where another name stands than the first one of a list, the list is not recognized. -/
theorem sequence_memberList_of_ne {m n : String} {members : List String} {qs : List Pattern}
    {v : List Char} (hm : IsName m) (hn : IsName n) (hv : EndsName v) (hne : n ≠ m) :
    sequence (word m.toList :: moreNames members ++ qs) (n.toList ++ v) = [] := by
  rcases @sequence_word_of_ne m n (moreNames members ++ qs) v hm hn hv hne with h | ⟨d, u, hd, h⟩
  · exact h
  · exact h.trans (sequence_moreNames_of_isNameChar hd members qs u)

/-- What follows the first name of a list. -/
theorem exists_of_mem_listLayout {n : String} {names : List String} {x : List Char}
    (hx : x ∈ (listLayout (n :: names) ++ unionEnd).prod) :
    ∃ v, x = n.toList ++ v ∧ (∀ t, EndsName (v ++ t)) ∧
      match names with
      | [] => v ∈ unionEnd.prod
      | names => ∃ gap ∈ gaps, ∃ gap' ∈ gaps, ∃ y ∈ (listLayout names ++ unionEnd).prod,
          v = gap ++ (',' :: (gap' ++ y)) := by
  cases names with
  | nil =>
      rw [listLayout, List.singleton_append, List.prod_cons, Language.mem_mul] at hx
      obtain ⟨w, hw, v, hv, rfl⟩ := hx
      obtain rfl := mem_singleton_language.mp hw
      refine ⟨v, rfl, fun t => ?_, hv⟩
      obtain ⟨y, hy, rfl⟩ := mem_prod_word_iff.mp hv
      rw [List.append_assoc]
      rcases mem_commas_iff.mp hy with hgap | ⟨gap, hgap, gap', -, rfl⟩
      · exact endsName_append_of_mem_gaps hgap (endsName_cons (by decide) _)
      · rw [List.append_assoc]
        exact endsName_append_of_mem_gaps hgap (endsName_cons (by decide) _)
  | cons n' names =>
      rw [listLayout, List.cons_append, List.cons_append, List.cons_append, List.cons_append,
        List.prod_cons, List.prod_cons, List.prod_cons, List.prod_cons, Language.mem_mul] at hx
      · obtain ⟨w, hw, v, hv, rfl⟩ := hx
        obtain ⟨gap, hgap, v', hv', rfl⟩ := Language.mem_mul.mp hv
        obtain ⟨a, ha, v'', hv'', rfl⟩ := Language.mem_mul.mp hv'
        obtain ⟨gap', hgap', y, hy, rfl⟩ := Language.mem_mul.mp hv''
        obtain rfl := mem_singleton_language.mp hw
        obtain rfl := mem_singleton_language.mp ha
        refine ⟨_, rfl, fun t => ?_, gap, hgap, gap', hgap', y, hy, rfl⟩
        rw [List.append_assoc]
        exact endsName_append_of_mem_gaps hgap (endsName_cons (by decide) _)
      · exact fun h => List.cons_ne_nil _ _ h

/-- The union of some names begins with the first of them, which stands for itself. -/
theorem head?_of_mem_listLayout {n : String} {names : List String} (hn : IsName n) {x : List Char}
    (hx : x ∈ (listLayout (n :: names) ++ unionEnd).prod) (t : List Char) :
    ∃ c, (x ++ t).head? = some c ∧ isNameChar c = true := by
  obtain ⟨v, rfl, -, -⟩ := exists_of_mem_listLayout hx
  obtain ⟨c, hc, hname⟩ := head?_of_isName hn
  exact ⟨c, by rw [List.append_assoc, List.head?_append, hc]; rfl, hname⟩

theorem sequence_word_of_head?_ne {w s : List Char} {c : Char} {ps : List Pattern}
    (hs : s.head? = some c) (hw : w.head? ≠ some c) (hne : w ≠ []) :
    sequence (word w :: ps) s = [] := by
  cases s with
  | nil => cases hs
  | cons d s =>
      obtain rfl : d = c := Option.some.inj hs
      exact sequence_word_cons_of_ne hw hne

/-- More names than a list has are not read. -/
theorem sequence_unionEnd_of_comma {qs : List Pattern} {gap gap' s : List Char} (hgap : gap ∈ gaps)
    (hgap' : gap' ∈ gaps) {c : Char} (hs : s.head? = some c) (hc : isNameChar c = true) :
    sequence (optionalComma :: word [']'] :: qs) (gap ++ (',' :: (gap' ++ s))) = [] := by
  have hsolid : Solid (word [']'] :: qs) := solid_word rfl (by decide) qs
  have hcomma : ∀ d ∈ (',' :: (gap' ++ s)).head?, isBlank d = false :=
    forall_mem_head? rfl (by decide)
  have hhead : ∀ d ∈ s.head?, isBlank d = false := forall_mem_head? hs (isBlank_of_isNameChar hc)
  have hbracket : sequence (word [']'] :: qs) s = [] :=
    sequence_word_of_head?_ne hs
      (by simpa using (ne_of_isNameChar hc (by decide : isNameChar ']' = false)).symm) (by decide)
  have hfirst : sequence (word [','] :: blanks :: word [']'] :: qs) (',' :: (gap' ++ s)) = [] :=
    (sequence_word_append [','] (gap' ++ s)).trans
      ((sequence_blanks_append hsolid hgap' hhead).trans hbracket)
  rw [sequence_optionalComma_append hsolid hgap hcomma, hfirst,
    sequence_word_cons_of_ne (by decide) (by decide), List.append_nil]

/-- Fewer names than a list has are not enough. -/
theorem sequence_moreNames_of_end {m : String} (hm : IsName m) {members : List String}
    {qs : List Pattern} {v : List Char} (hv : v ∈ unionEnd.prod) (t : List Char) :
    sequence (moreNames (m :: members) ++ qs) (v ++ t) = [] := by
  obtain ⟨d, hd, hname⟩ := head?_of_isName hm
  have hsolid : Solid (word [','] :: blanks :: (Group.memberList (m :: members) ++
      [optionalComma, word [']']]) ++ qs) := solid_word rfl (by decide) _
  obtain ⟨y, hy, rfl⟩ := mem_prod_word_iff.mp hv
  rw [List.append_assoc]
  show sequence (blanks :: word [','] :: blanks :: (Group.memberList (m :: members) ++
      [optionalComma, word [']']]) ++ qs) _ = _
  rcases mem_commas_iff.mp hy with hgap | ⟨gap, hgap, gap', hgap', rfl⟩
  · exact (sequence_blanks_append hsolid hgap (forall_mem_head? rfl (by decide))).trans
      (sequence_word_cons_of_ne (by decide) (by decide))
  · rw [List.append_assoc]
    refine (sequence_blanks_append hsolid hgap (forall_mem_head? rfl (by decide))).trans ?_
    refine (sequence_word_append [','] _).trans ?_
    refine (sequence_blanks_append (solid_memberList hm members qs) hgap'
      (forall_mem_head? rfl (by decide))).trans ?_
    rw [memberList_cons]
    refine sequence_word_of_head?_ne rfl ?_ hm.1
    rw [hd]
    simpa using ne_of_isNameChar hname (by decide : isNameChar ']' = false)

/-- A list of names is recognized where the same names stand in the same order, and nowhere else
where names stand. -/
theorem sequence_memberList : ∀ {members names : List String} {qs : List Pattern} {x : List Char},
    members ≠ [] → names ≠ [] → (∀ m ∈ members, IsName m) → (∀ n ∈ names, IsName n) →
      x ∈ (listLayout names ++ unionEnd).prod → ∀ t,
        sequence (Group.memberList members ++ [optionalComma, word [']']] ++ qs) (x ++ t) =
          if names = members then sequence qs t else []
  | m :: members, n :: names, qs, x, _, _, hmembers, hnames, hx, t => by
      obtain ⟨hm, hmrest⟩ := List.forall_mem_cons.mp hmembers
      obtain ⟨hn, hnrest⟩ := List.forall_mem_cons.mp hnames
      obtain ⟨v, rfl, hends, hv⟩ := exists_of_mem_listLayout hx
      rw [memberList_cons, List.append_assoc]
      by_cases hne : n = m
      · subst hne
        show sequence (word n.toList :: (moreNames members ++ qs)) _ = _
        rw [sequence_word_append]
        cases members with
        | nil =>
            cases names with
            | nil =>
                rw [if_pos rfl]
                exact steps_unionEnd qs v hv t
            | cons n' names =>
                obtain ⟨gap, hgap, gap', hgap', y, hy, rfl⟩ := hv
                obtain ⟨c, hc, hname⟩ := head?_of_mem_listLayout (hnrest n' List.mem_cons_self) hy t
                rw [if_neg (by simp), List.append_assoc, List.cons_append, List.append_assoc]
                exact sequence_unionEnd_of_comma hgap hgap' hc hname
        | cons m' members =>
            cases names with
            | nil =>
                rw [if_neg (by simp)]
                exact sequence_moreNames_of_end (hmrest m' List.mem_cons_self) hv t
            | cons n' names =>
                obtain ⟨gap, hgap, gap', hgap', y, hy, rfl⟩ := hv
                obtain ⟨c, hc, hname⟩ := head?_of_mem_listLayout (hnrest n' List.mem_cons_self) hy t
                have hsolid := solid_memberList (hmrest m' List.mem_cons_self) members qs
                have hhead : ∀ e ∈ (y ++ t).head?, isBlank e = false :=
                  forall_mem_head? hc (isBlank_of_isNameChar hname)
                have hcomma : Solid (word [','] :: blanks :: (Group.memberList (m' :: members) ++
                    [optionalComma, word [']']] ++ qs)) := solid_word rfl (by decide) _
                have ih : sequence (Group.memberList (m' :: members) ++
                    [optionalComma, word [']']] ++ qs) (y ++ t) = _ :=
                  sequence_memberList (List.cons_ne_nil m' members) (List.cons_ne_nil n' names)
                    hmrest hnrest hy t
                rw [List.append_assoc, List.cons_append, List.append_assoc]
                refine (sequence_blanks_append hcomma hgap
                  (forall_mem_head? rfl (by decide))).trans ?_
                refine (sequence_word_append [','] _).trans
                  ((sequence_blanks_append hsolid hgap' hhead).trans (ih.trans ?_))
                simp only [List.cons.injEq, true_and]
      · rw [if_neg fun h => hne (List.cons.inj h).1]
        exact sequence_memberList_of_ne hm hn (hends t) hne

namespace Group
variable (g : Group)

theorem solid_unionOf (qs : List Pattern) : Solid (g.unionOf :: qs) := by
  intro c s hc
  rw [unionOf, sequence_sequence_cons]
  exact solid_word rfl (by decide) _ c s hc

/-- The union of a group after blanks: it is recognized in each layout of the union of its members,
and in no layout of the union of other names or of the same ones in another order. -/
theorem sequence_unionOf {names : List String} {qs : List Pattern} {x : List Char}
    (hmembers : IsNames g.members) (hnames : IsNames names)
    (hx : x ∈ [gaps, (unionLayout names).prod].prod) (t : List Char) :
    sequence (blanks :: g.unionOf :: qs) (x ++ t) =
      if names = g.members then sequence qs t else [] := by
  obtain ⟨hne, hmembers⟩ := hmembers
  obtain ⟨hne', hnames⟩ := hnames
  rw [List.prod_cons, List.prod_singleton, Language.mem_mul] at hx
  obtain ⟨gap, hgap, y, hy, rfl⟩ := hx
  rw [unionLayout, List.cons_append, List.cons_append, List.prod_cons, List.prod_cons,
    Language.mem_mul] at hy
  obtain ⟨w, hw, z, hz, rfl⟩ := hy
  obtain rfl := mem_singleton_language.mp hw
  obtain ⟨gap', hgap', u, hu, rfl⟩ := Language.mem_mul.mp hz
  obtain ⟨n, names, rfl⟩ := List.exists_cons_of_ne_nil hne'
  obtain ⟨m, members, hm⟩ := List.exists_cons_of_ne_nil hne
  obtain ⟨c, hc, hname⟩ := head?_of_mem_listLayout (hnames n List.mem_cons_self) hu t
  have hsolid : Solid (memberList g.members ++ [optionalComma, word [']']] ++ qs) := by
    rw [hm]
    exact solid_memberList (hmembers m (hm ▸ List.mem_cons_self)) members qs
  have hhead : ∀ e ∈ (u ++ t).head?, isBlank e = false :=
    forall_mem_head? hc (isBlank_of_isNameChar hname)
  have hunion : ∀ e ∈ ("Union[".toList ++ (gap' ++ u) ++ t).head?, isBlank e = false :=
    forall_mem_head? rfl (by decide)
  rw [List.append_assoc]
  refine (sequence_blanks_append (g.solid_unionOf qs) hgap hunion).trans ?_
  rw [unionOf, sequence_sequence_cons, List.append_assoc "Union[".toList, List.append_assoc gap']
  refine (sequence_word_append "Union[".toList _).trans ?_
  refine (sequence_blanks_append hsolid hgap' hhead).trans ?_
  exact sequence_memberList hne hne' hmembers hnames hu t

end Group

/-! ### The union of an alias -/

theorem append_mem_gaps {a b : List Char} (ha : a ∈ gaps) (hb : b ∈ gaps) : a ++ b ∈ gaps :=
  List.forall_mem_append.mpr ⟨ha, hb⟩

theorem comma_mem_commas {gap : List Char} (hgap : gap ∈ gaps) : ',' :: gap ∈ commas :=
  mem_commas_iff.mpr (.inr ⟨[], nil_mem_gaps, gap, hgap, rfl⟩)

/-- Names on lines of their own, each with a comma, are a list of names in one of its layouts. -/
theorem lines_mem_listLayout : ∀ {members : List String} {gap : List Char}, members ≠ [] →
    gap ∈ gaps →
      gap ++ ((members.flatMap fun m => "    ".toList ++ m.toList ++ ",\n".toList) ++ [']']) ∈
        (gaps :: (listLayout members ++ unionEnd)).prod
  | [m], gap, _, hgap => by
      have htext :
          gap ++ (([m].flatMap fun m => "    ".toList ++ m.toList ++ ",\n".toList) ++ [']']) =
            (gap ++ "    ".toList) ++ (m.toList ++ ([',', '\n'] ++ [']'])) := by
        simp
      rw [htext, List.prod_cons]
      refine Language.append_mem_mul (append_mem_gaps hgap (by decide)) ?_
      show _ ∈ [{m.toList}, commas, {[']']}].prod
      rw [List.prod_cons, List.prod_cons, List.prod_singleton]
      exact Language.append_mem_mul rfl
        (Language.append_mem_mul (comma_mem_commas (by decide : ['\n'] ∈ gaps)) rfl)
  | m :: m' :: members, gap, _, hgap => by
      rw [List.flatMap_cons]
      generalize hrestText :
        (m' :: members).flatMap (fun m => "    ".toList ++ m.toList ++ ",\n".toList) = rest
      have hrest : ['\n'] ++ (rest ++ [']']) ∈
          (gaps :: (listLayout (m' :: members) ++ unionEnd)).prod := by
        rw [← hrestText]
        exact lines_mem_listLayout (List.cons_ne_nil m' members) (by decide)
      have htext : gap ++ ("    ".toList ++ m.toList ++ ",\n".toList ++ rest ++ [']']) =
          (gap ++ "    ".toList) ++
            (m.toList ++ ([] ++ ([','] ++ (['\n'] ++ (rest ++ [']']))))) := by
        simp
      rw [htext, List.prod_cons]
      refine Language.append_mem_mul (append_mem_gaps hgap (by decide)) ?_
      show _ ∈
        ({m.toList} :: gaps :: {[',']} :: gaps :: (listLayout (m' :: members) ++ unionEnd)).prod
      rw [List.prod_cons, List.prod_cons, List.prod_cons]
      exact Language.append_mem_mul rfl
        (Language.append_mem_mul nil_mem_gaps (Language.append_mem_mul rfl hrest))

/-- The alias of a group stands for the union of its members, in the order of the group. -/
theorem Group.exists_aliasText_eq (g : Group) (hne : g.members ≠ []) :
    ∃ u ∈ (unionLayout g.members).prod, g.aliasText = g.name.toList ++ " = ".toList ++ u := by
  have hlines := lines_mem_listLayout hne (by decide : ['\n'] ∈ gaps)
  refine ⟨_, Language.append_mem_mul (a := "Union[".toList) rfl hlines, ?_⟩
  rw [aliasText, List.append_assoc, List.append_assoc, List.append_assoc]
  rfl

end SchemaModels.Repair
