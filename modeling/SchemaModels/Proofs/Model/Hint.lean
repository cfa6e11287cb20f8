import SchemaModels.Proofs.Model.AdmitsNone
import SchemaModels.Proofs.Model.TypeExpr
import SchemaModels.Proofs.Unit.Tokens

/-!
# Type hints

The text of a type is that of a tree of names, values and constructs, where a construct stands for
itself, is subscripted or is called. The tree says what is applied to what, which the text alone
does not, and is the same for types and for fields with arguments.

* `Hint`, `Hint.text`: the trees and how they are written.
* `TypeExpr.hint`, `TypeExpr.text_hint`: the tree of a type, which is written as the type.
* `TypeExpr.mem_constructs_hint`: the constructs in the tree are those that the type uses.
* `Hint.tokens`, `Hint.told_tokens`: the tokens of a tree, in which a quotation mark stands around
  names for later only.
* `TypeExpr.mentionsIn_hint`: the names in the tokens of a type are those that the type mentions.
* `annotatedHint`: the tree of a type with `Field` arguments.
-/

namespace SchemaModels.Model

open Text

/-- A type hint: a name, a value, or a construct with what it is applied to. -/
inductive Hint where
  | builtin (kind : Primitive)
  | name (n : String)
  | quotedName (n : String)
  | value (v : Json)
  | unit
  | construct (i : Import)
  | subscript (head : Import) (arguments : List Hint)
  | call (head : Import) (arguments : List String)

namespace Hint

/-! ### Text -/

mutual

/-- The text of a hint. -/
def text : Hint → String
  | builtin kind => TypeExpr.builtinName kind
  | name n => n
  | quotedName n => "\"" ++ n ++ "\""
  | value v => Model.literal v
  | unit => "()"
  | construct i => i.name
  | subscript head arguments =>
      head.name ++ "[" ++ String.intercalate ", " (texts arguments) ++ "]"
  | call head arguments => head.name ++ "(" ++ String.intercalate ", " arguments ++ ")"

def texts : List Hint → List String
  | [] => []
  | h :: rest => h.text :: texts rest

end

theorem texts_eq_map (hints : List Hint) : texts hints = hints.map text := by
  induction hints with
  | nil => rfl
  | cons h rest ih => rw [texts, ih, List.map_cons]

theorem text_subscript (head : Import) (arguments : List Hint) :
    (subscript head arguments).text =
      head.name ++ "[" ++ String.intercalate ", " (arguments.map text) ++ "]" := by
  rw [text, texts_eq_map]

/-! ### Parts -/

mutual

/-- The hints in a hint, itself first. -/
def parts : Hint → List Hint
  | subscript head arguments => subscript head arguments :: partsAll arguments
  | builtin kind => [builtin kind]
  | name n => [name n]
  | quotedName n => [quotedName n]
  | value v => [value v]
  | unit => [unit]
  | construct i => [construct i]
  | call head arguments => [call head arguments]

def partsAll : List Hint → List Hint
  | [] => []
  | h :: rest => h.parts ++ partsAll rest

end

theorem partsAll_eq_flatMap (hints : List Hint) : partsAll hints = hints.flatMap parts := by
  induction hints with
  | nil => rfl
  | cons h rest ih => rw [partsAll, ih, List.flatMap_cons]

theorem mem_parts_subscript {p : Hint} {head : Import} {arguments : List Hint} :
    p ∈ (subscript head arguments).parts ↔
      p = subscript head arguments ∨ ∃ a ∈ arguments, p ∈ a.parts := by
  rw [parts, partsAll_eq_flatMap, List.mem_cons, List.mem_flatMap]

/-! ### Constructs -/

/-- The construct that a hint begins with. -/
def head? : Hint → Option Import
  | construct i => some i
  | subscript head _ => some head
  | call head _ => some head
  | _ => none

/-- The constructs in a hint. -/
def constructs (h : Hint) : Imports := h.parts.filterMap head?

theorem mem_constructs_subscript {i head : Import} {arguments : List Hint} :
    i ∈ (subscript head arguments).constructs ↔
      i = head ∨ ∃ a ∈ arguments, i ∈ a.constructs := by
  simp only [constructs, parts, partsAll_eq_flatMap, List.filterMap_cons_some (rfl : head?
    (subscript head arguments) = some head), List.mem_cons, List.filterMap_flatMap,
    List.mem_flatMap]

theorem mem_constructs_call {i head : Import} {arguments : List String} :
    i ∈ (call head arguments).constructs ↔ i = head := List.mem_singleton

/-! ### Tokens -/

mutual

/-- The tokens of a hint. -/
def tokens : Hint → List Token
  | builtin kind => [.free (TypeExpr.builtinName kind)]
  | name n => [.mention ⟨n, false⟩]
  | quotedName n => [.mention ⟨n, true⟩]
  | value v => [.free (Model.literal v)]
  | unit => [.fixed "()"]
  | construct i => [.free i.name]
  | subscript head arguments =>
      .free head.name :: Token.wrapped "[" (Token.joined ", " (tokensAll arguments)) "]"
  | call head arguments =>
      .free head.name :: Token.wrapped "(" [.free (String.intercalate ", " arguments)] ")"

def tokensAll : List Hint → List (List Token)
  | [] => []
  | h :: rest => h.tokens :: tokensAll rest

end

mutual

/-- The tokens of a hint are its text. -/
theorem textOf_tokens : ∀ h : Hint, textOf written h.tokens = h.text
  | builtin _ => String.append_empty
  | name _ => String.append_empty
  | quotedName _ => String.append_empty
  | value _ => String.append_empty
  | unit => String.append_empty
  | construct _ => String.append_empty
  | subscript head arguments => by
      rw [tokens, textOf, textOf_wrapped, textOf_joined, map_textOf_tokensAll arguments, text]
      simp only [Token.text, String.append_assoc]
  | call head arguments => by
      rw [tokens, textOf, textOf_wrapped, text]
      simp only [textOf, Token.text, String.append_empty, String.append_assoc]

theorem map_textOf_tokensAll : ∀ hints : List Hint,
    (tokensAll hints).map (textOf written) = texts hints
  | [] => rfl
  | h :: rest => by
      rw [tokensAll, texts, List.map_cons, textOf_tokens h, map_textOf_tokensAll rest]

end

mutual

/-- The fixed texts in a hint have no quotation mark. -/
theorem told_tokens : ∀ h : Hint, Told "\"" h.tokens
  | builtin _ => .single rfl
  | name _ => .single rfl
  | quotedName _ => .single rfl
  | value _ => .single rfl
  | unit => .cons_fixed (by decide) .nil
  | construct _ => .single rfl
  | subscript _ arguments =>
      .cons_wrapped rfl (by decide) (.joined (by decide) (told_tokensAll arguments)) (by decide)
  | call _ _ => .cons_wrapped rfl (by decide) (.single rfl) (by decide)

theorem told_tokensAll : ∀ hints : List Hint, ∀ xs ∈ tokensAll hints, Told "\"" xs
  | [] => fun _ h => absurd h List.not_mem_nil
  | h :: rest => List.forall_mem_cons.mpr ⟨told_tokens h, told_tokensAll rest⟩

end

theorem mentionsIn_subscript (head : Import) (arguments : List Hint) :
    mentionsIn (subscript head arguments).tokens = (tokensAll arguments).flatMap mentionsIn := by
  rw [← mentionsIn_joined ", "]
  exact mentionsIn_wrapped "[" _ "]"

end Hint

/-! ### Types -/

namespace TypeExpr

mutual

/-- The hint that a type is written as. -/
def hint : TypeExpr → Hint
  | builtin kind => .builtin kind
  | any => .construct (typing "Any")
  | list item => .subscript (typing "List") [item.hint]
  | dict value => .subscript (typing "Dict") [.builtin .string, value.hint]
  | tuple items => .subscript (typing "Tuple") (if items.isEmpty then [.unit] else hints items)
  | literal values => .subscript (typing "Literal") (values.map .value)
  | name n => .name n
  | quotedName n => .quotedName n
  | optional inner => .subscript (typing "Optional") [inner.hint]
  | union members => .subscript (typing "Union") (hints members)
  | tagged members field => .subscript (typing "Annotated")
      [.subscript (typing "Union") (hints members),
       .call (pydantic "Field") ["discriminator=" ++ quoted field]]

def hints : List TypeExpr → List Hint
  | [] => []
  | t :: rest => t.hint :: hints rest

end

theorem hints_eq_map (types : List TypeExpr) : hints types = types.map hint := by
  induction types with
  | nil => rfl
  | cons t rest ih => rw [hints, ih, List.map_cons]

mutual

/-- A type is written as its hint. -/
theorem text_hint : ∀ t : TypeExpr, t.hint.text = t.text
  | builtin _ => rfl
  | any => rfl
  | list item => by
      show _ = "List[" ++ item.text ++ "]"
      rw [hint, Hint.text_subscript, List.map_singleton, String.intercalate_singleton,
        text_hint item]
      simp [typing]
  | dict value => by
      show _ = "Dict[str, " ++ value.text ++ "]"
      have hkey : (Hint.builtin .string).text = "str" := rfl
      simp [hint, Hint.text_subscript, typing, hkey, text_hint value, ← String.append_assoc]
  | tuple [] => rfl
  | tuple (first :: rest) => by
      show _ = "Tuple[" ++ String.intercalate ", " (texts (first :: rest)) ++ "]"
      rw [hint, Hint.text_subscript, List.isEmpty_cons, if_neg Bool.false_ne_true,
        ← Hint.texts_eq_map, texts_hints]
      simp [typing]
  | literal values => by
      have hvalues : (values.map Hint.value).map Hint.text = values.map Model.literal := by
        rw [List.map_map]
        rfl
      show _ = "Literal[" ++ String.intercalate ", " (values.map Model.literal) ++ "]"
      rw [hint, Hint.text_subscript, hvalues]
      simp [typing]
  | name _ => rfl
  | quotedName _ => rfl
  | optional inner => by
      show _ = "Optional[" ++ inner.text ++ "]"
      rw [hint, Hint.text_subscript, List.map_singleton, String.intercalate_singleton,
        text_hint inner]
      simp [typing]
  | union members => by
      show _ = "Union[" ++ String.intercalate ", " (texts members) ++ "]"
      rw [hint, Hint.text_subscript, ← Hint.texts_eq_map, texts_hints]
      simp [typing]
  | tagged members field => by
      have hunion : (Hint.subscript (typing "Union") (hints members)).text =
          "Union[" ++ String.intercalate ", " (texts members) ++ "]" := by
        rw [Hint.text_subscript, ← Hint.texts_eq_map, texts_hints]
        simp [typing]
      show _ = "Annotated[Union[" ++ String.intercalate ", " (texts members) ++
        "], Field(discriminator=" ++ quoted field ++ ")]"
      rw [hint, Hint.text_subscript, List.map_cons, List.map_singleton, hunion]
      apply String.toList_injective
      simp [Hint.text, typing, pydantic]

theorem texts_hints : ∀ types : List TypeExpr, Hint.texts (hints types) = texts types
  | [] => rfl
  | t :: rest => by rw [hints, Hint.texts, texts, text_hint t, texts_hints rest]

end

/-! ### The constructs of types -/

mutual

/-- The constructs in the hint of a type are those that the type uses. -/
theorem mem_constructs_hint {i : Import} : ∀ t : TypeExpr, i ∈ t.hint.constructs ↔ i ∈ t.imports
  | builtin _ => Iff.rfl
  | any => Iff.rfl
  | list item => by
      simp [hint, imports, Hint.mem_constructs_subscript, mem_constructs_hint item]
  | dict value => by
      have hkey : (Hint.builtin .string).constructs = [] := rfl
      simp [hint, imports, Hint.mem_constructs_subscript, hkey, mem_constructs_hint value]
  | tuple [] => Iff.rfl
  | tuple (first :: rest) => by
      rw [hint, imports, Hint.mem_constructs_subscript, List.isEmpty_cons,
        if_neg Bool.false_ne_true, List.mem_cons, mem_constructs_hints]
  | literal values => by
      have hvalue : ∀ v, (Hint.value v).constructs = [] := fun _ => rfl
      simp [hint, imports, Hint.mem_constructs_subscript, hvalue]
  | name _ => Iff.rfl
  | quotedName _ => Iff.rfl
  | optional inner => by
      simp [hint, imports, Hint.mem_constructs_subscript, mem_constructs_hint inner]
  | union members => by
      rw [hint, imports, Hint.mem_constructs_subscript, List.mem_cons, mem_constructs_hints]
  | tagged members field => by
      simp only [hint, imports, Hint.mem_constructs_subscript, Hint.mem_constructs_call,
        List.mem_cons, List.not_mem_nil, or_false, exists_eq_or_imp, exists_eq_left,
        mem_constructs_hints members, or_assoc]
      rw [or_comm (b := i = pydantic "Field")]

theorem mem_constructs_hints {i : Import} : ∀ types : List TypeExpr,
    (∃ h ∈ hints types, i ∈ h.constructs) ↔ i ∈ importsAll types
  | [] => by simp [hints, importsAll]
  | t :: rest => by
      rw [hints, importsAll, List.exists_mem_cons_iff, mem_constructs_hint t,
        mem_constructs_hints rest, List.mem_append]

end

/-! ### The names in types -/

mutual

/-- The names in the hint of a type are those that the type mentions. -/
theorem mentionsIn_hint : ∀ t : TypeExpr, mentionsIn t.hint.tokens = t.mentions
  | builtin _ => rfl
  | any => rfl
  | list item => by
      rw [hint, Hint.mentionsIn_subscript, mentions, ← mentionsIn_hint item]
      exact List.flatMap_singleton ..
  | dict value => by
      rw [hint, Hint.mentionsIn_subscript, mentions, ← mentionsIn_hint value]
      exact List.flatMap_singleton ..
  | tuple [] => rfl
  | tuple (first :: rest) => by
      rw [hint, Hint.mentionsIn_subscript, List.isEmpty_cons, if_neg Bool.false_ne_true, mentions,
        mentionsIn_hints]
  | literal values => by
      have hvalues : ∀ vs : List Json,
          (Hint.tokensAll (vs.map .value)).flatMap mentionsIn = [] := by
        intro vs
        induction vs with
        | nil => rfl
        | cons v rest ih => exact ih
      rw [hint, Hint.mentionsIn_subscript, hvalues, mentions]
  | name _ => rfl
  | quotedName _ => rfl
  | optional inner => by
      rw [hint, Hint.mentionsIn_subscript, mentions, ← mentionsIn_hint inner]
      exact List.flatMap_singleton ..
  | union members => by
      rw [hint, Hint.mentionsIn_subscript, mentions, mentionsIn_hints members]
  | tagged members field => by
      have hunion := Hint.mentionsIn_subscript (typing "Union") (hints members)
      rw [mentionsIn_hints members] at hunion
      rw [hint, Hint.mentionsIn_subscript, mentions, ← hunion]
      exact List.append_nil _

theorem mentionsIn_hints : ∀ types : List TypeExpr,
    (Hint.tokensAll (hints types)).flatMap mentionsIn = mentionsAll types
  | [] => rfl
  | t :: rest => by
      rw [hints, Hint.tokensAll, List.flatMap_cons, mentionsIn_hint t, mentionsIn_hints rest,
        mentionsAll]

end

end TypeExpr

/-! ### Types with arguments -/

/-- The hint of a type with `Field` arguments. -/
def annotatedHint (type : TypeExpr) (arguments : List String) : Hint :=
  .subscript (typing "Annotated") [type.hint, .call (pydantic "Field") arguments]

theorem text_annotatedHint (type : TypeExpr) (arguments : List String) :
    (annotatedHint type arguments).text = annotated type arguments := by
  rw [annotatedHint, annotated, Hint.text_subscript, List.map_cons, List.map_singleton,
    type.text_hint]
  apply String.toList_injective
  simp [Hint.text, typing, pydantic]

theorem mem_constructs_annotatedHint {i : Import} {type : TypeExpr} {arguments : List String} :
    i ∈ (annotatedHint type arguments).constructs ↔
      i ∈ type.imports ++ [typing "Annotated", pydantic "Field"] := by
  simp only [annotatedHint, Hint.mem_constructs_subscript, Hint.mem_constructs_call,
    TypeExpr.mem_constructs_hint, List.mem_append, List.mem_cons, List.not_mem_nil, or_false,
    exists_eq_or_imp, exists_eq_left]
  rw [or_left_comm]

theorem mentionsIn_annotatedHint (type : TypeExpr) (arguments : List String) :
    mentionsIn (annotatedHint type arguments).tokens = type.mentions := by
  rw [annotatedHint, Hint.mentionsIn_subscript, ← TypeExpr.mentionsIn_hint]
  exact List.append_nil _

end SchemaModels.Model
