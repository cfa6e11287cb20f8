import Mathlib.Data.List.Sort
import Mathlib.Logic.Relation
import SchemaModels.Proofs.Plan.Turns

/-!
# Agendas

An agenda says what is to be put into an order: items that refer to each other, some of them
records, with keys by which they are compared. Items that lead to each other form a component.

The greedy order takes whole components. The next one is, among those that refer to nothing else
that is left, the one that has the least key. In a component the records come first, by their keys;
then, at each turn, the least of the others that refers to none of the others that is left.

* `IsGreedy`: an order is the greedy one.
* `IsGreedy.unique`: an agenda has one greedy order at most.
* `IsGreedy.inTurn_open`: without cycles, each item is the least of those that refer to nothing
  that is left.
* `IsCopy`, `IsGreedy.map`: the order does not depend on what the items are called.
-/

namespace SchemaModels

/-- Items to be put into an order. -/
structure Agenda (α : Type) where
  Item : α → Prop
  Refers : α → α → Prop
  Record : α → Prop
  key : α → Greedy.Key

namespace Agenda
variable {α : Type} (s : Agenda α)

/-- Two items that lead to each other, or one and the same. -/
def Linked (a b : α) : Prop :=
  Relation.ReflTransGen s.Refers a b ∧ Relation.ReflTransGen s.Refers b a

/-- An item with a property, whose key comes before those of all the others that have it. -/
structure Least (p : α → Prop) (a : α) : Prop where
  holds : p a
  before : ∀ b, p b → b ≠ a → Greedy.before (s.key a) (s.key b) = true

/-- One of some items that is left and refers to none of them that is left. -/
structure Open (p : α → Prop) (taken : List α) (a : α) : Prop where
  holds : p a
  left : a ∉ taken
  refers : ∀ b, p b → s.Refers a b → b ∈ taken

/-- An item that is left and whose component refers to nothing else that is left. -/
structure Ready (taken : List α) (a : α) : Prop where
  item : s.Item a
  left : a ∉ taken
  refers : ∀ b c, s.Linked a b → s.Refers b c → c ∈ taken ∨ s.Linked a c

/-- The order inside a component, of the records and of the others. -/
structure Arranged (records others : List α) : Prop where
  record : ∀ a ∈ records, s.Record a
  not_record : ∀ a ∈ others, ¬ s.Record a
  pairwise : records.Pairwise fun a b => Greedy.before (s.key a) (s.key b) = true
  inTurn : InTurn (fun taken a => s.Least (s.Open (· ∈ others) taken) a) [] others

/-- The next component in its order, after some items that are taken. -/
structure Next (taken group : List α) : Prop where
  exists_least : ∃ a, s.Least (s.Ready taken) a ∧ ∀ b, b ∈ group ↔ s.Linked a b
  exists_arranged : ∃ records others, records ++ others = group ∧ s.Arranged records others

/-- All items in an order that takes the next component at each turn. -/
structure IsGreedy (order : List α) : Prop where
  nodup : order.Nodup
  mem_iff : ∀ a, a ∈ order ↔ s.Item a
  exists_groups : ∃ groups : List (List α), groups.flatten = order ∧
    InTurn (fun before group => s.Next before.flatten group) [] groups

/-! ### Components -/

variable {s}

theorem Linked.refl (a : α) : s.Linked a a := ⟨.refl, .refl⟩

/-- Without cycles a component is one item. -/
theorem Linked.eq (hacyclic : ∀ a, ¬ Relation.TransGen s.Refers a a) {a b : α}
    (h : s.Linked a b) : a = b := by
  rcases Relation.reflTransGen_iff_eq_or_transGen.mp h.1 with rfl | hab
  · rfl
  · exact absurd (hab.trans_left h.2) (hacyclic a)

/-! ### One order at most -/

theorem Least.unique {p : α → Prop} {a b : α} (ha : s.Least p a) (hb : s.Least p b) : a = b := by
  by_contra hne
  have hab := ha.before b hb.holds (Ne.symm hne)
  have hba := hb.before a ha.holds hne
  rw [Greedy.before_asymm hab] at hba
  exact Bool.false_ne_true hba

theorem Least.congr {p q : α → Prop} {a : α} (h : s.Least p a) (hpq : ∀ b, p b ↔ q b) :
    s.Least q a :=
  ⟨(hpq a).mp h.holds, fun b hb hne => h.before b ((hpq b).mpr hb) hne⟩

/-- Records in the order of their keys are told by which they are. -/
theorem eq_of_pairwise_before {xs ys : List α}
    (hx : xs.Pairwise fun a b => Greedy.before (s.key a) (s.key b) = true)
    (hy : ys.Pairwise fun a b => Greedy.before (s.key a) (s.key b) = true)
    (h : ∀ a, a ∈ xs ↔ a ∈ ys) : xs = ys := by
  have : Std.Irrefl fun a b => Greedy.before (s.key a) (s.key b) = true :=
    ⟨fun a ha => by rw [Greedy.before_self] at ha; exact Bool.false_ne_true ha⟩
  have : Std.Antisymm fun a b => Greedy.before (s.key a) (s.key b) = true :=
    ⟨fun a b hab hba => by rw [Greedy.before_asymm hab] at hba; exact absurd hba Bool.false_ne_true⟩
  exact hx.eq_of_mem_iff hy h

section arranged
variable {records others records' others' : List α}

/-- Which of a component are the records and which are the others. -/
theorem Arranged.mem_iff (h : s.Arranged records others) (a : α) :
    (a ∈ records ↔ a ∈ records ++ others ∧ s.Record a) ∧
      (a ∈ others ↔ a ∈ records ++ others ∧ ¬ s.Record a) := by
  rw [List.mem_append]
  have hrecord := h.record a
  have hother := h.not_record a
  tauto

theorem Arranged.unique (h : s.Arranged records others) (h' : s.Arranged records' others')
    (hmem : ∀ a, a ∈ records ++ others ↔ a ∈ records' ++ others') :
    records ++ others = records' ++ others' := by
  have hrecords : ∀ a, a ∈ records ↔ a ∈ records' := fun a => by
    rw [(h.mem_iff a).1, (h'.mem_iff a).1, hmem]
  have hothers : ∀ a, a ∈ others ↔ a ∈ others' := fun a => by
    rw [(h.mem_iff a).2, (h'.mem_iff a).2, hmem]
  have hopen : s.Open (· ∈ others') = s.Open (· ∈ others) := by
    simp only [hothers]
  have hturn' := h'.inTurn
  rw [hopen] at hturn'
  -- both go on until all of the others are taken
  have heq : others = others' := by
    refine InTurn.eq_of_done (fun taken => ∀ a ∈ others, a ∈ taken)
      (fun taken a b ha hb => ha.unique hb) ?_ h.inTurn hturn' ?_ ?_
    · intro taken a ha hdone
      exact ha.holds.left (hdone a ha.holds.holds)
    · exact fun a ha => ha
    · exact fun a ha => (hothers a).mp ha
  rw [eq_of_pairwise_before h.pairwise h'.pairwise hrecords, heq]

end arranged

theorem Next.unique {taken group group' : List α} (h : s.Next taken group)
    (h' : s.Next taken group') : group = group' := by
  obtain ⟨a, ha, hmem⟩ := h.exists_least
  obtain ⟨b, hb, hmem'⟩ := h'.exists_least
  obtain rfl := ha.unique hb
  obtain ⟨records, others, rfl, harr⟩ := h.exists_arranged
  obtain ⟨records', others', rfl, harr'⟩ := h'.exists_arranged
  exact harr.unique harr' fun c => (hmem c).trans (hmem' c).symm

/-- An agenda has one greedy order at most. -/
theorem IsGreedy.unique {xs ys : List α} (hx : s.IsGreedy xs) (hy : s.IsGreedy ys) : xs = ys := by
  obtain ⟨groups, rfl, hturn⟩ := hx.exists_groups
  obtain ⟨groups', rfl, hturn'⟩ := hy.exists_groups
  refine congrArg List.flatten (InTurn.eq_of_done
    (fun before => ∀ a, s.Item a → a ∈ before.flatten)
    (fun before group group' h h' => h.unique h') ?_ hturn hturn' ?_ ?_)
  · intro before group h hdone
    obtain ⟨a, ha, _⟩ := h.exists_least
    exact ha.holds.left (hdone a ha.holds.item)
  · exact fun a ha => (hx.mem_iff a).mpr ha
  · exact fun a ha => (hy.mem_iff a).mpr ha

/-! ### Agendas without cycles -/

section acyclic
variable (hacyclic : ∀ a, ¬ Relation.TransGen s.Refers a a)
  (hitem : ∀ a b, s.Refers a b → s.Item b)
include hacyclic hitem

theorem ready_iff_open (taken : List α) (a : α) : s.Ready taken a ↔ s.Open s.Item taken a := by
  constructor
  · intro h
    refine ⟨h.item, h.left, fun b _ hab => ?_⟩
    refine (h.refers a b (.refl a) hab).resolve_right fun hlink => ?_
    have heq := hlink.eq hacyclic
    exact hacyclic a (.single (heq ▸ hab))
  · intro h
    refine ⟨h.holds, h.left, fun b c hab hbc => .inl ?_⟩
    obtain rfl := hab.eq hacyclic
    exact h.refers c (hitem a c hbc) hbc

/-- Groups of one item each, as these items. -/
theorem inTurn_open_flatten : ∀ {before groups : List (List α)}, groups.flatten.Nodup →
    InTurn (fun before group => s.Next before.flatten group) before groups →
    InTurn (fun taken a => s.Least (s.Open s.Item taken) a) before.flatten groups.flatten
  | _, [], _, _ => trivial
  | before, group :: groups, hn, h => by
      rw [List.flatten_cons] at hn ⊢
      obtain ⟨hgroup, hrest, _⟩ := List.nodup_append.mp hn
      obtain ⟨a, hleast, hmem⟩ := h.1.exists_least
      have hsingle : group = [a] := by
        refine (List.perm_singleton.mp ?_)
        refine (List.perm_ext_iff_of_nodup hgroup (List.nodup_singleton a)).mpr fun b => ?_
        rw [hmem, List.mem_singleton]
        constructor
        · exact fun hab => (hab.eq hacyclic).symm
        · rintro rfl
          exact .refl b
      have ih := inTurn_open_flatten hrest h.2
      rw [List.flatten_append, List.flatten_singleton] at ih
      refine InTurn.append_iff.mpr ⟨?_, ih⟩
      rw [hsingle]
      exact ⟨hleast.congr (ready_iff_open hacyclic hitem _), trivial⟩

/-- Without cycles, each item is the least of those that refer to nothing that is left. -/
theorem IsGreedy.inTurn_open {order : List α} (h : s.IsGreedy order) :
    InTurn (fun taken a => s.Least (s.Open s.Item taken) a) [] order := by
  obtain ⟨groups, rfl, hturn⟩ := h.exists_groups
  exact inTurn_open_flatten hacyclic hitem h.nodup hturn

end acyclic

/-! ### Other names -/

/-- An agenda whose items are those of another one under other names. -/
structure IsCopy {β : Type} (s : Agenda α) (s' : Agenda β) (f : α → β) : Prop where
  item_iff : ∀ b, s'.Item b ↔ ∃ a, s.Item a ∧ f a = b
  injective : ∀ a b, s.Item a → s.Item b → f a = f b → a = b
  item_of_refers : ∀ a b, s.Refers a b → s.Item a ∧ s.Item b
  item_of_refers' : ∀ a b, s'.Refers a b → s'.Item a ∧ s'.Item b
  refers_iff : ∀ a b, s.Item a → s.Item b → (s'.Refers (f a) (f b) ↔ s.Refers a b)
  record_iff : ∀ a, s.Item a → (s'.Record (f a) ↔ s.Record a)
  key_eq : ∀ a, s.Item a → s'.key (f a) = s.key a

namespace IsCopy
variable {β : Type} {s' : Agenda β} {f : α → β} (h : s.IsCopy s' f)
include h

theorem mem_map_iff {xs : List α} (hxs : ∀ a ∈ xs, s.Item a) {a : α} (ha : s.Item a) :
    f a ∈ xs.map f ↔ a ∈ xs := by
  rw [List.mem_map]
  constructor
  · rintro ⟨b, hb, he⟩
    exact h.injective b a (hxs b hb) ha he ▸ hb
  · exact fun hxa => ⟨a, hxa, rfl⟩

theorem reflTransGen {a b : α} (hab : Relation.ReflTransGen s.Refers a b) :
    Relation.ReflTransGen s'.Refers (f a) (f b) := by
  refine Relation.ReflTransGen.lift f (fun c d hcd => ?_) _ _ hab
  obtain ⟨hc, hd⟩ := h.item_of_refers c d hcd
  exact (h.refers_iff c d hc hd).mpr hcd

theorem exists_of_reflTransGen {a : α} (ha : s.Item a) {y : β}
    (hy : Relation.ReflTransGen s'.Refers (f a) y) :
    ∃ b, s.Item b ∧ f b = y ∧ Relation.ReflTransGen s.Refers a b := by
  induction hy with
  | refl => exact ⟨a, ha, rfl, .refl⟩
  | tail _ hyz ih =>
      obtain ⟨b, hb, rfl, hab⟩ := ih
      obtain ⟨c, hc, rfl⟩ := (h.item_iff _).mp (h.item_of_refers' _ _ hyz).2
      exact ⟨c, hc, rfl, hab.tail ((h.refers_iff b c hb hc).mp hyz)⟩

theorem linked_iff {a b : α} (ha : s.Item a) (hb : s.Item b) :
    s'.Linked (f a) (f b) ↔ s.Linked a b := by
  constructor
  · rintro ⟨hab, hba⟩
    obtain ⟨c, hc, hcb, hac⟩ := h.exists_of_reflTransGen ha hab
    obtain ⟨d, hd, hda, hbd⟩ := h.exists_of_reflTransGen hb hba
    rw [h.injective c b hc hb hcb] at hac
    rw [h.injective d a hd ha hda] at hbd
    exact ⟨hac, hbd⟩
  · rintro ⟨hab, hba⟩
    exact ⟨h.reflTransGen hab, h.reflTransGen hba⟩

theorem ready_iff {taken : List α} (htaken : ∀ a ∈ taken, s.Item a) {a : α} (ha : s.Item a) :
    s'.Ready (taken.map f) (f a) ↔ s.Ready taken a := by
  constructor
  · intro hr
    refine ⟨ha, mt (h.mem_map_iff htaken ha).mpr hr.left, fun b c hab hbc => ?_⟩
    obtain ⟨hb, hc⟩ := h.item_of_refers b c hbc
    have hrefers := hr.refers (f b) (f c) ((h.linked_iff ha hb).mpr hab)
      ((h.refers_iff b c hb hc).mpr hbc)
    exact hrefers.imp (h.mem_map_iff htaken hc).mp (h.linked_iff ha hc).mp
  · intro hr
    refine ⟨(h.item_iff _).mpr ⟨a, ha, rfl⟩, mt (h.mem_map_iff htaken ha).mp hr.left, ?_⟩
    intro y z hay hyz
    obtain ⟨hy, hz⟩ := h.item_of_refers' y z hyz
    obtain ⟨b, hb, rfl⟩ := (h.item_iff y).mp hy
    obtain ⟨c, hc, rfl⟩ := (h.item_iff z).mp hz
    have hrefers := hr.refers b c ((h.linked_iff ha hb).mp hay) ((h.refers_iff b c hb hc).mp hyz)
    exact hrefers.imp (h.mem_map_iff htaken hc).mpr (h.linked_iff ha hc).mpr

theorem open_iff {others taken : List α} (hothers : ∀ a ∈ others, s.Item a)
    (htaken : ∀ a ∈ taken, s.Item a) {a : α} (ha : s.Item a) :
    s'.Open (· ∈ others.map f) (taken.map f) (f a) ↔ s.Open (· ∈ others) taken a := by
  constructor
  · intro ho
    refine ⟨(h.mem_map_iff hothers ha).mp ho.holds, mt (h.mem_map_iff htaken ha).mpr ho.left, ?_⟩
    intro b hb hab
    have hbi := hothers b hb
    exact (h.mem_map_iff htaken hbi).mp
      (ho.refers (f b) (List.mem_map_of_mem hb) ((h.refers_iff a b ha hbi).mpr hab))
  · intro ho
    refine ⟨List.mem_map_of_mem ho.holds, mt (h.mem_map_iff htaken ha).mp ho.left, ?_⟩
    intro y hy hay
    obtain ⟨b, hb, rfl⟩ := List.mem_map.mp hy
    exact List.mem_map_of_mem (ho.refers b hb ((h.refers_iff a b ha (hothers b hb)).mp hay))

/-- The least item of a property under its other name. -/
theorem least {p : α → Prop} {q : β → Prop} {a : α} (hp : ∀ b, p b → s.Item b)
    (hq : ∀ y, q y → s'.Item y) (hpq : ∀ b, s.Item b → (q (f b) ↔ p b)) (ha : s.Least p a) :
    s'.Least q (f a) := by
  have hai := hp a ha.holds
  refine ⟨(hpq a hai).mpr ha.holds, fun y hy hne => ?_⟩
  obtain ⟨b, hb, rfl⟩ := (h.item_iff y).mp (hq y hy)
  rw [h.key_eq a hai, h.key_eq b hb]
  exact ha.before b ((hpq b hb).mp hy) fun he => hne (he ▸ rfl)

theorem arranged {records others : List α} (hrecords : ∀ a ∈ records, s.Item a)
    (hothers : ∀ a ∈ others, s.Item a) (ha : s.Arranged records others) :
    s'.Arranged (records.map f) (others.map f) := by
  refine ⟨?_, ?_, ?_, ?_⟩
  · intro y hy
    obtain ⟨a, har, rfl⟩ := List.mem_map.mp hy
    exact (h.record_iff a (hrecords a har)).mpr (ha.record a har)
  · intro y hy
    obtain ⟨a, hao, rfl⟩ := List.mem_map.mp hy
    exact mt (h.record_iff a (hothers a hao)).mp (ha.not_record a hao)
  · refine List.pairwise_map.mpr (ha.pairwise.imp_of_mem fun {a b} har hbr hab => ?_)
    rw [h.key_eq a (hrecords a har), h.key_eq b (hrecords b hbr)]
    exact hab
  · refine InTurn.map ha.inTurn fun pre a post he hleast => ?_
    have hpre : ∀ b ∈ pre, s.Item b := fun b hb =>
      hothers b (he ▸ List.mem_append_left _ hb)
    refine h.least (fun b hb => hothers b hb.holds) ?_ (fun b => h.open_iff hothers hpre) hleast
    intro y hy
    obtain ⟨b, hb, rfl⟩ := List.mem_map.mp hy.holds
    exact (h.item_iff _).mpr ⟨b, hothers b hb, rfl⟩

theorem next {taken group : List α} (htaken : ∀ a ∈ taken, s.Item a)
    (hgroup : ∀ a ∈ group, s.Item a) (hn : s.Next taken group) :
    s'.Next (taken.map f) (group.map f) := by
  obtain ⟨a, ha, hmem⟩ := hn.exists_least
  obtain ⟨records, others, rfl, harr⟩ := hn.exists_arranged
  constructor
  · refine ⟨f a, h.least (fun b hb => hb.item) (fun y hy => hy.item)
      (fun b hb => h.ready_iff htaken hb) ha, fun y => ?_⟩
    constructor
    · intro hy
      obtain ⟨b, hb, rfl⟩ := List.mem_map.mp hy
      exact (h.linked_iff ha.holds.item (hgroup b hb)).mpr ((hmem b).mp hb)
    · intro hy
      obtain ⟨b, hb, rfl, _⟩ := h.exists_of_reflTransGen ha.holds.item hy.1
      exact List.mem_map_of_mem ((hmem b).mpr ((h.linked_iff ha.holds.item hb).mp hy))
  · refine ⟨records.map f, others.map f, List.map_append.symm, h.arranged ?_ ?_ harr⟩
    · exact fun b hb => hgroup b (List.mem_append_left others hb)
    · exact fun b hb => hgroup b (List.mem_append_right records hb)

end IsCopy

/-- The greedy order under other names. -/
theorem IsGreedy.map {β : Type} {s' : Agenda β} {f : α → β} {order : List α}
    (h : s.IsGreedy order) (hcopy : s.IsCopy s' f) : s'.IsGreedy (order.map f) := by
  have hitem : ∀ a ∈ order, s.Item a := fun a ha => (h.mem_iff a).mp ha
  refine ⟨?_, ?_, ?_⟩
  · exact h.nodup.map_on fun a ha b hb he => hcopy.injective a b (hitem a ha) (hitem b hb) he
  · intro y
    rw [hcopy.item_iff, List.mem_map]
    exact exists_congr fun a => and_congr_left' (h.mem_iff a)
  · obtain ⟨groups, rfl, hturn⟩ := h.exists_groups
    refine ⟨groups.map (List.map f), (List.map_flatten).symm, ?_⟩
    refine InTurn.map hturn fun pre group post he hnext => ?_
    have hmem : ∀ g ∈ groups, ∀ a ∈ g, s.Item a := fun g hg a ha =>
      hitem a (List.mem_flatten.mpr ⟨g, hg, ha⟩)
    have htaken : ∀ a ∈ pre.flatten, s.Item a := fun a ha => by
      obtain ⟨g, hg, hag⟩ := List.mem_flatten.mp ha
      exact hmem g (he ▸ List.mem_append_left _ hg) a hag
    have hgroup : ∀ a ∈ group, s.Item a :=
      hmem group (he ▸ List.mem_append_right pre List.mem_cons_self)
    show s'.Next (pre.map (List.map f)).flatten (group.map f)
    rw [← List.map_flatten]
    exact hcopy.next htaken hgroup hnext

end Agenda

end SchemaModels
