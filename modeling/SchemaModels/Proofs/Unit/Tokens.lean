import Mathlib.Data.List.Chain
import Mathlib.Data.List.Infix
import SchemaModels.Unit.Declaration

/-!
# Tokens of code

The code of a declaration is cut into tokens. The name of a definition in a type is a token of its
own, in the form in which it is written there; what is fixed stands between it and the rest. As long
as no fixed text has the mark of a name that is written for later, a bare name is bare in the code.

* `Token`, `textOf`, `mentionsIn`: the tokens, their text and the names in them.
* `Token.joined`, `Token.wrapped`: a fixed text between tokens, and around them.
* `Told`: the fixed texts have no mark, and keep the other tokens apart.
-/

namespace SchemaModels

/-- A token of code. -/
inductive Token where
  /-- Keywords, punctuation and layout. -/
  | fixed (s : String)
  /-- The name of a definition in a type. -/
  | mention (m : Mention)
  /-- A construct, a name that the code gives, a value or prose. -/
  | free (s : String)

namespace Token

/-- The text of a token, for the forms of mentions. -/
def text (write : Mention → String) : Token → String
  | fixed s => s
  | mention m => write m
  | free s => s

def mention? : Token → Option Mention
  | mention m => some m
  | _ => none

def isFixed : Token → Bool
  | fixed _ => true
  | _ => false

end Token

/-! ### Parts that are joined -/

/-- A text that is made of the parts of a list is made of joined lists in the same way. -/
theorem text_intercalate {α : Type} {text : List α → String} (hnil : text [] = "")
    (happend : ∀ xs ys, text (xs ++ ys) = text xs ++ text ys) (separator : List α) :
    ∀ groups : List (List α), text (List.intercalate separator groups) =
      String.intercalate (text separator) (groups.map text)
  | [] => hnil
  | [xs] => by
      rw [List.intercalate_singleton, List.map_singleton, String.intercalate_singleton]
  | xs :: ys :: rest => by
      rw [List.intercalate_cons_cons, happend, happend,
        text_intercalate hnil happend separator (ys :: rest)]
      simp only [List.map_cons, String.intercalate_cons_cons]

/-- What is gathered from joined lists is gathered from each of them, if the separator has none. -/
theorem flatMap_intercalate {α β : Type} {gather : α → List β} {separator : List α}
    (hseparator : separator.flatMap gather = []) : ∀ groups : List (List α),
      (List.intercalate separator groups).flatMap gather =
        groups.flatMap fun xs => xs.flatMap gather
  | [] => rfl
  | [xs] => by
      rw [List.intercalate_singleton, List.flatMap_cons, List.flatMap_nil, List.append_nil]
  | xs :: ys :: rest => by
      rw [List.intercalate_cons_cons, List.flatMap_append, List.flatMap_append, hseparator,
        List.append_nil, flatMap_intercalate hseparator (ys :: rest)]
      rfl

/-! ### Text and mentions -/

section tokens
variable (write : Mention → String)

/-- The text of tokens, one after the other. -/
def textOf : List Token → String
  | [] => ""
  | x :: rest => x.text write ++ textOf rest

theorem textOf_append (xs ys : List Token) :
    textOf write (xs ++ ys) = textOf write xs ++ textOf write ys := by
  induction xs with
  | nil => rw [List.nil_append, textOf, String.empty_append]
  | cons x rest ih => rw [List.cons_append, textOf, textOf, ih, String.append_assoc]

/-- The names in tokens. -/
def mentionsIn (tokens : List Token) : List Mention :=
  tokens.flatMap fun x => x.mention?.toList

theorem mentionsIn_append (xs ys : List Token) :
    mentionsIn (xs ++ ys) = mentionsIn xs ++ mentionsIn ys :=
  List.flatMap_append

/-- Groups of tokens with a fixed text between two. -/
def Token.joined (separator : String) (groups : List (List Token)) : List Token :=
  List.intercalate [.fixed separator] groups

theorem textOf_joined (separator : String) (groups : List (List Token)) :
    textOf write (Token.joined separator groups) =
      String.intercalate separator (groups.map (textOf write)) := by
  have hseparator : textOf write [.fixed separator] = separator := String.append_empty
  rw [Token.joined, text_intercalate rfl (textOf_append write), hseparator]

theorem mentionsIn_joined (separator : String) (groups : List (List Token)) :
    mentionsIn (Token.joined separator groups) = groups.flatMap mentionsIn :=
  flatMap_intercalate rfl groups

/-- Tokens between two fixed texts. -/
def Token.wrapped (opening : String) (inner : List Token) (closing : String) : List Token :=
  .fixed opening :: (inner ++ [.fixed closing])

theorem textOf_wrapped (opening : String) (inner : List Token) (closing : String) :
    textOf write (Token.wrapped opening inner closing) =
      opening ++ textOf write inner ++ closing := by
  simp only [Token.wrapped, textOf, textOf_append, Token.text, String.append_empty,
    String.append_assoc]

theorem mentionsIn_wrapped (opening : String) (inner : List Token) (closing : String) :
    mentionsIn (Token.wrapped opening inner closing) = mentionsIn inner :=
  (mentionsIn_append inner _).trans (List.append_nil _)

end tokens

/-! ### Fixed texts -/

/-- A text that can stand between two tokens: it is not empty, and has no mark in it. -/
def IsGap (mark s : String) : Prop := s ≠ "" ∧ ¬mark.toList <:+: s.toList

theorem isGap_iff {mark s : String} :
    IsGap mark s ↔ s ≠ "" ∧ ∀ rest ∈ s.toList.tails, ¬mark.toList <+: rest := by
  simp only [IsGap, List.infix_iff_prefix_suffix, List.mem_tails, not_exists, not_and,
    imp_not_comm]

instance (mark s : String) : Decidable (IsGap mark s) := decidable_of_iff' _ isGap_iff

/-- The fixed texts among tokens have no mark in them, and of two tokens side by side one is
fixed. -/
structure Told (mark : String) (tokens : List Token) : Prop where
  isGap : ∀ s, .fixed s ∈ tokens → IsGap mark s
  apart : tokens.IsChain fun x y => x.isFixed = true ∨ y.isFixed = true

/-- Tokens that begin with a fixed text, if there are any. -/
def StartsFixed (tokens : List Token) : Prop := ∀ x ∈ tokens.head?, x.isFixed = true

theorem startsFixed_nil : StartsFixed [] := fun _ h => absurd h (by simp)

theorem startsFixed_cons (s : String) (xs : List Token) : StartsFixed (.fixed s :: xs) := by
  intro x h
  rw [← Option.some.inj h]
  rfl

namespace Told
variable {mark s : String} {xs ys : List Token}

theorem nil : Told mark [] := ⟨fun _ h => absurd h List.not_mem_nil, .nil⟩

theorem single {x : Token} (hx : x.isFixed = false) : Told mark [x] where
  isGap s hs := by
    rw [← List.mem_singleton.mp hs] at hx
    cases hx
  apart := .singleton x

/-- Tokens side by side, if the second ones begin with a fixed text. -/
theorem append (hx : Told mark xs) (hy : Told mark ys) (hfirst : StartsFixed ys) :
    Told mark (xs ++ ys) where
  isGap s hs := (List.mem_append.mp hs).elim (hx.isGap s) (hy.isGap s)
  apart := hx.apart.append hy.apart fun _ _ y hy => .inr (hfirst y hy)

theorem cons_fixed (hs : IsGap mark s) (hx : Told mark xs) : Told mark (.fixed s :: xs) where
  isGap s' hs' := by
    rcases List.mem_cons.mp hs' with heq | hmem
    · rwa [Token.fixed.inj heq]
    · exact hx.isGap s' hmem
  apart := List.isChain_cons.mpr ⟨fun _ _ => .inl rfl, hx.apart⟩

/-- A fixed text keeps tokens apart. -/
theorem glue (hx : Told mark xs) (hs : IsGap mark s) (hy : Told mark ys) :
    Told mark (xs ++ .fixed s :: ys) :=
  hx.append (hy.cons_fixed hs) (startsFixed_cons s ys)

theorem wrapped {opening closing : String} (hopening : IsGap mark opening) (hx : Told mark xs)
    (hclosing : IsGap mark closing) : Told mark (Token.wrapped opening xs closing) :=
  (hx.glue hclosing nil).cons_fixed hopening

/-- A token before a fixed text, with tokens behind it up to another one. -/
theorem cons_wrapped {x : Token} (h : x.isFixed = false) {opening closing : String}
    (hopening : IsGap mark opening) (hx : Told mark xs) (hclosing : IsGap mark closing) :
    Told mark (x :: Token.wrapped opening xs closing) :=
  (single h).glue hopening (hx.glue hclosing nil)

theorem joined {separator : String} (hs : IsGap mark separator) :
    ∀ {groups : List (List Token)}, (∀ xs ∈ groups, Told mark xs) →
      Told mark (Token.joined separator groups)
  | [], _ => nil
  | [xs], h => by
      rw [Token.joined, List.intercalate_singleton]
      exact h xs List.mem_cons_self
  | xs :: ys :: rest, h => by
      rw [Token.joined, List.intercalate_cons_cons, List.append_assoc]
      exact (h xs List.mem_cons_self).glue hs
        (joined hs fun zs hzs => h zs (List.mem_cons_of_mem xs hzs))

end Told

end SchemaModels
