import SchemaModels.Proofs.Unit.Tokens
import SchemaModels.Proofs.Validator.Declaration

/-!
# The tokens of validators

The schema of a definition that comes later is the only one that is lazy: the call is written with
its name, and nothing else that is fixed in the code of a validator speaks of it.

* `SchemaExpr.tokens`, `Body.tokens`, `declarationTokens`: the tokens of a schema, of the schema of
  a declaration and of a declaration.
* `textOf_declarationTokens`: together they are the code.
* `mentionsIn_declarationTokens`: the names in them are those that the schema mentions.
* `told_declarationTokens`: what is fixed in them is not lazy.
-/

namespace SchemaModels.Validator

open Text

/-! ### Schemas -/

/-- The tokens of a call with one argument. -/
def callTokens (opening argument closing : String) : List Token :=
  Token.wrapped opening [.free argument] closing

theorem textOf_callTokens (opening argument closing : String) :
    textOf written (callTokens opening argument closing) = opening ++ argument ++ closing := by
  rw [callTokens, textOf_wrapped, textOf, textOf, String.append_empty]
  rfl

theorem told_callTokens {opening argument closing : String} (hopening : IsGap "lazy" opening)
    (hclosing : IsGap "lazy" closing) : Told "lazy" (callTokens opening argument closing) :=
  .wrapped hopening (.single rfl) hclosing

namespace Check

/-- The tokens of a check. -/
def tokens : Check → List Token
  | minCount n => callTokens ".min(" (String.ofList (Number.digitsOf n)) ")"
  | maxCount n => callTokens ".max(" (String.ofList (Number.digitsOf n)) ")"
  | regex source => callTokens ".regex(/" (regexBody source) "/)"
  | min n => callTokens ".min(" (String.ofList n.text) ")"
  | max n => callTokens ".max(" (String.ofList n.text) ")"
  | above n => callTokens ".gt(" (String.ofList n.text) ")"
  | below n => callTokens ".lt(" (String.ofList n.text) ")"

theorem textOf_tokens (c : Check) : textOf written c.tokens = c.text := by
  cases c <;> exact textOf_callTokens _ _ _

theorem mentionsIn_tokens (c : Check) : mentionsIn c.tokens = [] := by
  cases c <;> rfl

theorem told_tokens (c : Check) : Told "lazy" c.tokens := by
  cases c <;> exact told_callTokens (by decide) (by decide)

end Check

/-- The tokens of checks, one after the other. -/
def checkTokens (checks : List Check) : List Token := checks.flatMap Check.tokens

theorem textOf_checkTokens : ∀ checks : List Check,
    textOf written (checkTokens checks) = String.intercalate "" (checks.map Check.text)
  | [] => rfl
  | [c] => by
      rw [checkTokens, List.flatMap_singleton, c.textOf_tokens]
      exact String.intercalate_singleton.symm
  | c :: d :: rest => by
      rw [checkTokens, List.flatMap_cons, textOf_append, c.textOf_tokens]
      have hrest := textOf_checkTokens (d :: rest)
      rw [checkTokens] at hrest
      rw [hrest]
      simp only [List.map_cons, String.intercalate_cons_cons, String.append_empty]

theorem mentionsIn_checkTokens (checks : List Check) : mentionsIn (checkTokens checks) = [] := by
  rw [mentionsIn, checkTokens, List.flatMap_assoc]
  exact List.flatMap_eq_nil_iff.mpr fun c _ => c.mentionsIn_tokens

theorem startsFixed_checkTokens (checks : List Check) : StartsFixed (checkTokens checks) := by
  cases checks with
  | nil => exact startsFixed_nil
  | cons c rest => cases c <;> exact startsFixed_cons _ _

theorem told_checkTokens : ∀ checks : List Check, Told "lazy" (checkTokens checks)
  | [] => .nil
  | c :: rest => c.told_tokens.append (told_checkTokens rest) (startsFixed_checkTokens rest)

namespace SchemaExpr

/-- The text of a constant. -/
def literalText : Json → String
  | .string s => quoted s
  | value => value.compact

theorem text_literal (value : Json) :
    (literal value).text = "z.literal(" ++ literalText value ++ ")" := by
  cases value <;> rfl

mutual

/-- The tokens of a schema. -/
def tokens : SchemaExpr → List Token
  | primitive kind => [.fixed (primitiveText kind)]
  | any => [.fixed "z.any()"]
  | never => [.fixed "z.never()"]
  | null => [.fixed "z.null()"]
  | literal value => callTokens "z.literal(" (literalText value) ")"
  | enum values => callTokens "z.enum([" (String.intercalate ", " (values.map quoted)) "])"
  | array item => Token.wrapped "z.array(" item.tokens ")"
  | tuple items => Token.wrapped "z.tuple([" (Token.joined ", " (tokensAll items)) "])"
  | record value => Token.wrapped "z.record(z.string(), " value.tokens ")"
  | name n => [.mention ⟨n, false⟩]
  | lazyName n => [.mention ⟨n, true⟩]
  | union members => Token.wrapped "z.union([" (Token.joined ", " (tokensAll members)) "])"
  | tagged field members =>
      .fixed "z.discriminatedUnion(" :: .free (quoted field) ::
        Token.wrapped ", [" (Token.joined ", " (tokensAll members)) "])"
  | checked base checks => base.tokens ++ checkTokens checks
  | nullable base => base.tokens ++ [.fixed ".nullable()"]

def tokensAll : List SchemaExpr → List (List Token)
  | [] => []
  | e :: rest => e.tokens :: tokensAll rest

end

mutual

/-- The tokens of a schema are its text. -/
theorem textOf_tokens : ∀ e : SchemaExpr, textOf written e.tokens = e.text
  | primitive _ => String.append_empty
  | any => String.append_empty
  | never => String.append_empty
  | null => String.append_empty
  | literal value => by
      rw [tokens, textOf_callTokens, text_literal]
  | enum _ => textOf_callTokens _ _ _
  | array item => by
      rw [tokens, textOf_wrapped, textOf_tokens item]
      rfl
  | tuple items => by
      rw [tokens, textOf_wrapped, textOf_joined, map_textOf_tokensAll items]
      rfl
  | record value => by
      rw [tokens, textOf_wrapped, textOf_tokens value]
      rfl
  | name _ => String.append_empty
  | lazyName _ => String.append_empty
  | union members => by
      rw [tokens, textOf_wrapped, textOf_joined, map_textOf_tokensAll members]
      rfl
  | tagged field members => by
      show _ = "z.discriminatedUnion(" ++ quoted field ++ ", [" ++
        String.intercalate ", " (texts members) ++ "])"
      rw [tokens, textOf, textOf, textOf_wrapped, textOf_joined, map_textOf_tokensAll members]
      simp only [Token.text, String.append_assoc]
  | checked base checks => by
      rw [tokens, textOf_append, textOf_tokens base, textOf_checkTokens]
      rfl
  | nullable base => by
      rw [tokens, textOf_append, textOf_tokens base, textOf, textOf, String.append_empty]
      rfl

theorem map_textOf_tokensAll : ∀ schemas : List SchemaExpr,
    (tokensAll schemas).map (textOf written) = texts schemas
  | [] => rfl
  | e :: rest => by
      rw [tokensAll, texts, List.map_cons, textOf_tokens e, map_textOf_tokensAll rest]

end

mutual

/-- The names in the tokens of a schema are those that it mentions. -/
theorem mentionsIn_tokens : ∀ e : SchemaExpr, mentionsIn e.tokens = e.mentions
  | primitive _ => rfl
  | any => rfl
  | never => rfl
  | null => rfl
  | literal _ => rfl
  | enum _ => rfl
  | array item => by
      rw [tokens, mentionsIn_wrapped, mentionsIn_tokens item, mentions]
  | tuple items => by
      rw [tokens, mentionsIn_wrapped, mentionsIn_joined, mentionsIn_tokensAll items, mentions]
  | record value => by
      rw [tokens, mentionsIn_wrapped, mentionsIn_tokens value, mentions]
  | name _ => rfl
  | lazyName _ => rfl
  | union members => by
      rw [tokens, mentionsIn_wrapped, mentionsIn_joined, mentionsIn_tokensAll members, mentions]
  | tagged _ members => by
      rw [mentions, ← mentionsIn_tokensAll members, ← mentionsIn_joined ", "]
      exact mentionsIn_wrapped ", [" _ "])"
  | checked base checks => by
      rw [tokens, mentionsIn_append, mentionsIn_tokens base, mentionsIn_checkTokens,
        List.append_nil, mentions]
  | nullable base => by
      rw [tokens, mentionsIn_append, mentionsIn_tokens base, mentions]
      exact List.append_nil _

theorem mentionsIn_tokensAll : ∀ schemas : List SchemaExpr,
    (tokensAll schemas).flatMap mentionsIn = mentionsAll schemas
  | [] => rfl
  | e :: rest => by
      rw [tokensAll, List.flatMap_cons, mentionsIn_tokens e, mentionsIn_tokensAll rest, mentionsAll]

end

mutual

/-- Nothing that is fixed in a schema is lazy. -/
theorem told_tokens : ∀ e : SchemaExpr, Told "lazy" e.tokens
  | primitive kind => by
      have hgap : ∀ kind, IsGap "lazy" (primitiveText kind)
        | .string => show IsGap "lazy" "z.string()" by decide
        | .integer => show IsGap "lazy" "z.number().int()" by decide
        | .number => show IsGap "lazy" "z.number()" by decide
        | .boolean => show IsGap "lazy" "z.boolean()" by decide
      exact .cons_fixed (hgap kind) .nil
  | any => .cons_fixed (by decide) .nil
  | never => .cons_fixed (by decide) .nil
  | null => .cons_fixed (by decide) .nil
  | literal _ => told_callTokens (by decide) (by decide)
  | enum _ => told_callTokens (by decide) (by decide)
  | array item => .wrapped (by decide) (told_tokens item) (by decide)
  | tuple items => .wrapped (by decide) (.joined (by decide) (told_tokensAll items)) (by decide)
  | record value => .wrapped (by decide) (told_tokens value) (by decide)
  | name _ => .single rfl
  | lazyName _ => .single rfl
  | union members =>
      .wrapped (by decide) (.joined (by decide) (told_tokensAll members)) (by decide)
  | tagged _ members =>
      .cons_fixed (by decide) (.cons_wrapped rfl (by decide)
        (.joined (by decide) (told_tokensAll members)) (by decide))
  | checked base checks =>
      (told_tokens base).append (told_checkTokens checks) (startsFixed_checkTokens checks)
  | nullable base => .glue (told_tokens base) (by decide) .nil

theorem told_tokensAll : ∀ schemas : List SchemaExpr, ∀ xs ∈ tokensAll schemas, Told "lazy" xs
  | [] => fun _ h => absurd h List.not_mem_nil
  | e :: rest => List.forall_mem_cons.mpr ⟨told_tokens e, told_tokensAll rest⟩

end

end SchemaExpr

/-! ### Fields -/

/-- The tokens of the call that attaches a description, if there is one. -/
def describeTokens (description : Option String) : List Token :=
  (description.map fun text => callTokens ".describe(" (quoted text) ")").getD []

/-- The tokens of what may stand in the place of a field's value. -/
def Presence.tokens : Presence → List Token
  | required => []
  | defaulted value => callTokens ".default(" value.compact ")"
  | nullish => [.fixed ".nullish()"]
  | optional => [.fixed ".optional()"]

/-- The tokens of what follows the schema of a field. -/
def tailTokens (presence : Presence) (description : Option String) : List Token :=
  presence.tokens ++ describeTokens description

/-- The tokens of the line of a field. -/
def Field.tokens (f : Field) : List Token :=
  .free (keyText f.name) :: .fixed ": " ::
    (f.schema.tokens ++ (tailTokens f.presence f.description ++ [.fixed ","]))

section tail
variable (presence : Presence) (description : Option String)

theorem textOf_describeTokens : textOf written (describeTokens description) =
    (description.map describeCall).getD "" := by
  cases description with
  | none => rfl
  | some text => exact textOf_callTokens _ _ _

theorem textOf_tailTokens : textOf written (tailTokens presence description) =
    presence.text ++ (description.map describeCall).getD "" := by
  have hpresence : textOf written presence.tokens = presence.text := by
    cases presence with
    | required => rfl
    | defaulted value => exact textOf_callTokens _ _ _
    | nullish => exact String.append_empty
    | optional => exact String.append_empty
  rw [tailTokens, textOf_append, hpresence, textOf_describeTokens]

theorem mentionsIn_describeTokens : mentionsIn (describeTokens description) = [] := by
  cases description <;> rfl

theorem mentionsIn_tailTokens : mentionsIn (tailTokens presence description) = [] := by
  rw [tailTokens, mentionsIn_append, mentionsIn_describeTokens, List.append_nil]
  cases presence <;> rfl

theorem startsFixed_describeTokens : StartsFixed (describeTokens description) := by
  cases description with
  | none => exact startsFixed_nil
  | some text => exact startsFixed_cons _ _

theorem told_describeTokens : Told "lazy" (describeTokens description) := by
  cases description with
  | none => exact .nil
  | some text => exact told_callTokens (by decide) (by decide)

theorem startsFixed_tailTokens : StartsFixed (tailTokens presence description) := by
  cases presence with
  | required => exact startsFixed_describeTokens description
  | _ => exact startsFixed_cons _ _

theorem told_tailTokens : Told "lazy" (tailTokens presence description) := by
  refine .append ?_ (told_describeTokens description) (startsFixed_describeTokens description)
  cases presence with
  | required => exact .nil
  | defaulted value => exact told_callTokens (by decide) (by decide)
  | nullish => exact .cons_fixed (by decide) .nil
  | optional => exact .cons_fixed (by decide) .nil

end tail

namespace Field
variable (f : Field)

theorem textOf_tokens : textOf written f.tokens = f.text := by
  rw [tokens, textOf, textOf, textOf_append, f.schema.textOf_tokens, textOf_append,
    textOf_tailTokens, text]
  simp only [textOf, Token.text, String.append_empty, String.append_assoc]

theorem mentionsIn_tokens : mentionsIn f.tokens = f.schema.mentions := by
  show mentionsIn (f.schema.tokens ++ (tailTokens f.presence f.description ++ [.fixed ","])) = _
  rw [mentionsIn_append, mentionsIn_append, f.schema.mentionsIn_tokens, mentionsIn_tailTokens]
  exact List.append_nil _

theorem told_tokens : Told "lazy" f.tokens := by
  refine .glue (.single rfl) (by decide) ?_
  rw [← List.append_assoc]
  exact (f.schema.told_tokens.append (told_tailTokens _ _) (startsFixed_tailTokens _ _)).glue
    (by decide) .nil

end Field

/-! ### Bodies -/

namespace Body

/-- The tokens of lines between brackets, at an indentation. -/
def linesTokens (opening : List Token) (closing indent : String) (lines : List (List Token)) :
    List Token :=
  opening ++ .fixed "\n" ::
    (Token.joined "\n" (lines.map (.fixed indent :: ·)) ++ [.fixed "\n", .fixed closing])

/-- The tokens before the members of a union. -/
def unionTokens : Option String → List Token
  | some field => callTokens "z.discriminatedUnion(" (quoted field) ", ["
  | none => [.fixed "z.union(["]

/-- The tokens of a declaration's schema. -/
def tokens (indent : String) : Body → List Token
  | enum values => (SchemaExpr.enum values).tokens
  | object fields strict =>
      (if fields.isEmpty then [.fixed "z.object(\x7b\x7d)"]
        else linesTokens [.fixed "z.object(\x7b"] "\x7d)" indent (fields.map Field.tokens)) ++
        (if strict then [.fixed ".strict()"] else [])
  | single member => member.tokens
  | union tag members =>
      linesTokens (unionTokens tag) "])" indent (members.map fun m => m.tokens ++ [.fixed ","])
  | typeAlias schema => schema.tokens

section lines
variable (opening : List Token) (closing indent : String) (lines : List (List Token))

theorem textOf_linesTokens : textOf written (linesTokens opening closing indent lines) =
    linesBetween (textOf written opening) closing indent (lines.map (textOf written)) := by
  have hlines : (lines.map (.fixed indent :: ·)).map (textOf written) =
      (lines.map (textOf written)).map (indent ++ ·) := by
    rw [List.map_map, List.map_map]
    rfl
  rw [linesTokens, textOf_append, textOf, textOf_append, textOf_joined, hlines, linesBetween]
  simp only [textOf, Token.text, String.append_empty, String.append_assoc]

theorem mentionsIn_linesTokens (hopening : mentionsIn opening = []) :
    mentionsIn (linesTokens opening closing indent lines) = lines.flatMap mentionsIn := by
  have hline : ∀ line : List Token, mentionsIn (.fixed indent :: line) = mentionsIn line :=
    fun _ => rfl
  rw [linesTokens, mentionsIn_append, hopening, List.nil_append]
  show mentionsIn (Token.joined "\n" (lines.map (.fixed indent :: ·)) ++ _) = _
  rw [mentionsIn_append, mentionsIn_joined, List.flatMap_map, List.flatMap_congr fun l _ => hline l]
  exact List.append_nil _

variable {opening closing indent lines} in
theorem told_linesTokens (hindent : IsGap "lazy" indent) (hopening : Told "lazy" opening)
    (hclosing : IsGap "lazy" closing) (hlines : ∀ line ∈ lines, Told "lazy" line) :
    Told "lazy" (linesTokens opening closing indent lines) :=
  hopening.glue (by decide) (.glue
    (.joined (by decide) (List.forall_mem_map.mpr fun line hline =>
      (hlines line hline).cons_fixed hindent))
    (by decide) (.cons_fixed hclosing .nil))

end lines

variable {indent : String}

/-- The tokens of a declaration's schema are its text. -/
theorem textOf_tokens : ∀ body : Body, textOf written (body.tokens indent) = body.text indent
  | enum _ => SchemaExpr.textOf_tokens _
  | object fields strict => by
      have hfields : (fields.map Field.tokens).map (textOf written) = fields.map Field.text := by
        rw [List.map_map]
        exact List.map_congr_left fun f _ => f.textOf_tokens
      have hopening : textOf written [.fixed "z.object(\x7b"] = "z.object(\x7b" :=
        String.append_empty
      have hempty : textOf written [.fixed "z.object(\x7b\x7d)"] = "z.object(\x7b\x7d)" :=
        String.append_empty
      have hstrict : textOf written (if strict then [.fixed ".strict()"] else []) =
          if strict then ".strict()" else "" := by
        cases strict with
        | true => exact String.append_empty
        | false => rfl
      rw [tokens, text, textOf_append, hstrict]
      split
      · rw [hempty]
      · rw [textOf_linesTokens, hopening, hfields]
  | single member => member.textOf_tokens
  | union tag members => by
      have hmembers : (members.map fun m => m.tokens ++ [Token.fixed ","]).map (textOf written) =
          members.map fun m => m.text ++ "," := by
        rw [List.map_map]
        refine List.map_congr_left fun m _ => ?_
        show textOf written (m.tokens ++ [.fixed ","]) = _
        rw [textOf_append, m.textOf_tokens, textOf, textOf, String.append_empty]
        rfl
      rw [tokens, textOf_linesTokens, hmembers]
      cases tag with
      | some field => exact congrArg (linesBetween · _ _ _) (textOf_callTokens _ _ _)
      | none => exact congrArg (linesBetween · _ _ _) String.append_empty
  | typeAlias schema => schema.textOf_tokens

/-- The names in the tokens of a declaration are those that it mentions. -/
theorem mentionsIn_tokens : ∀ body : Body, mentionsIn (body.tokens indent) = body.mentions
  | enum _ => rfl
  | object fields strict => by
      have hstrict : mentionsIn (if strict then [.fixed ".strict()"] else []) = [] := by
        cases strict <;> rfl
      have hfields : (fields.map Field.tokens).flatMap mentionsIn =
          fields.flatMap fun f => f.schema.mentions := by
        rw [List.flatMap_map, List.flatMap_congr fun f _ => f.mentionsIn_tokens]
      rw [tokens, mentions, mentionsIn_append, hstrict, List.append_nil]
      split
      · rename_i hempty
        rw [List.isEmpty_iff.mp hempty]
        rfl
      · rw [mentionsIn_linesTokens _ _ _ _ rfl, hfields]
  | single member => member.mentionsIn_tokens
  | union tag members => by
      have hmember : ∀ m : SchemaExpr, mentionsIn (m.tokens ++ [.fixed ","]) = m.mentions :=
        fun m => by
          rw [mentionsIn_append, m.mentionsIn_tokens]
          exact List.append_nil _
      have hopening : mentionsIn (unionTokens tag) = [] := by
        cases tag <;> rfl
      rw [tokens, mentionsIn_linesTokens _ _ _ _ hopening, List.flatMap_map,
        List.flatMap_congr fun m _ => hmember m, mentions, SchemaExpr.mentionsAll_eq_flatMap]
  | typeAlias schema => schema.mentionsIn_tokens

/-- Nothing that is fixed in a declaration's schema is lazy. -/
theorem told_tokens (hindent : IsGap "lazy" indent) : ∀ body : Body,
    Told "lazy" (body.tokens indent)
  | enum _ => SchemaExpr.told_tokens _
  | object fields strict => by
      have hobject : Told "lazy" (if fields.isEmpty then [.fixed "z.object(\x7b\x7d)"]
          else linesTokens [.fixed "z.object(\x7b"] "\x7d)" indent (fields.map Field.tokens)) := by
        split
        · exact .cons_fixed (by decide) .nil
        · exact told_linesTokens hindent (.cons_fixed (by decide) .nil) (by decide)
            (List.forall_mem_map.mpr fun f _ => f.told_tokens)
      cases strict with
      | true => exact hobject.glue (by decide) .nil
      | false => exact hobject.append .nil startsFixed_nil
  | single member => member.told_tokens
  | union tag members => by
      refine told_linesTokens hindent ?_ (by decide)
        (List.forall_mem_map.mpr fun m _ => m.told_tokens.glue (by decide) .nil)
      cases tag with
      | some field => exact told_callTokens (by decide) (by decide)
      | none => exact .cons_fixed (by decide) .nil
  | typeAlias schema => schema.told_tokens

end Body

/-! ### Declarations -/

/-- The tokens of the constant and the type of a name, under a comment. -/
def exportTokens (name : String) (schema : List Token) (description : Option String)
    (annotate : Bool) : List Token :=
  (description.map fun text => [.free (jsdoc text), .fixed "\n"]).getD [] ++
    .fixed "export const " :: .free (schemaName name) ::
      .fixed (if annotate then ": z.ZodTypeAny = " else " = ") ::
        (schema ++ .fixed ";\nexport type " :: .free name :: .fixed " = z.infer<typeof " ::
          [.free (schemaName name), .fixed ">;"])

/-- The tokens of the declaration of a definition. -/
def declarationTokens (settings : Settings) (plan : Plan) (d : Definition) (body : Body) :
    List Token :=
  let description := settings.described d.description
  exportTokens d.name (body.tokens (indentOf settings) ++ describeTokens description) description
    (isRecursive plan d.name)

theorem textOf_exportTokens (name : String) (schema : List Token) (description : Option String)
    (annotate : Bool) : textOf written (exportTokens name schema description annotate) =
      exportBlock name (textOf written schema) description annotate := by
  have hdescription : textOf written
      ((description.map fun text => [.free (jsdoc text), .fixed "\n"]).getD []) =
        (description.map fun text => jsdoc text ++ "\n").getD "" := by
    cases description with
    | none => rfl
    | some text => exact congrArg _ String.append_empty
  have htype : ";\nexport type " = ";\n" ++ "export type " := by decide
  have hannotated : ": z.ZodTypeAny = " = ": z.ZodTypeAny" ++ " = " := by decide
  rw [exportTokens, textOf_append, hdescription, exportBlock]
  cases annotate <;>
    simp only [textOf, textOf_append, Token.text, htype, hannotated, String.append_empty,
      String.append_assoc, Bool.false_eq_true, if_true, if_false]

section declaration
variable (settings : Settings) (plan : Plan) (d : Definition) (body : Body)

/-- The tokens of a declaration are its code. -/
theorem textOf_declarationTokens : textOf written (declarationTokens settings plan d body) =
    exportBlock d.name (describedText settings d body) (settings.described d.description)
      (isRecursive plan d.name) := by
  rw [declarationTokens, textOf_exportTokens, textOf_append, body.textOf_tokens,
    textOf_describeTokens, describedText]

/-- The names in the tokens of a declaration are those that its schema mentions. -/
theorem mentionsIn_declarationTokens :
    mentionsIn (declarationTokens settings plan d body) = body.mentions := by
  have hdescription : mentionsIn (((settings.described d.description).map fun text =>
      [.free (jsdoc text), .fixed "\n"]).getD []) = [] := by
    cases settings.described d.description <;> rfl
  rw [declarationTokens, exportTokens, mentionsIn_append, hdescription, ← body.mentionsIn_tokens]
  show mentionsIn (_ ++ _ ++ _) = _
  rw [mentionsIn_append, mentionsIn_append, mentionsIn_describeTokens, List.append_nil]
  exact List.append_nil _

theorem isGap_indentOf : IsGap "lazy" (indentOf settings) := by
  have hall : ∀ indent : Indent, IsGap "lazy" indent.text
    | .two => show IsGap "lazy" "  " by decide
    | .four => show IsGap "lazy" "    " by decide
    | .tab => show IsGap "lazy" "\t" by decide
  exact hall _

/-- Nothing that is fixed in the code of a declaration is lazy. -/
theorem told_declarationTokens : Told "lazy" (declarationTokens settings plan d body) := by
  have hdescription : Told "lazy" (((settings.described d.description).map fun text =>
      [.free (jsdoc text), .fixed "\n"]).getD []) := by
    cases settings.described d.description with
    | none => exact .nil
    | some text => exact .glue (.single rfl) (by decide) .nil
  have hannotation : IsGap "lazy"
      (if isRecursive plan d.name then ": z.ZodTypeAny = " else " = ") := by
    split <;> decide
  have hschema := (body.told_tokens (isGap_indentOf settings)).append
    (told_describeTokens (settings.described d.description)) (startsFixed_describeTokens _)
  exact hdescription.glue (by decide) (.glue (.single rfl) hannotation
    (hschema.glue (by decide) (.glue (.single rfl) (by decide) (.glue (.single rfl)
      (by decide) .nil))))

end declaration

end SchemaModels.Validator
