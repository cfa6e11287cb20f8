import SchemaModels.Proofs.Model.Pieces

/-!
# The tokens of models

What is fixed in the code of a model has no capital, and so no construct in it, and no quotation
mark; and it stands between any two other pieces. So the names of definitions that are written for
later are those in quotes, and only these.

* `Piece.tokens`, `Body.tokens`: the tokens of a piece and of a declaration.
* `Body.textOf_tokens`: together they are the code.
* `Body.mentionsIn_tokens`: the names in them are those that the declaration mentions.
* `Cut`, `Body.cut_pieces`, `cut_rootPieces`: what is fixed in the code of a declaration.
-/

namespace SchemaModels.Model

open Text

/-! ### Tokens -/

namespace Piece

/-- The tokens of a piece: the names of definitions are those in type hints. -/
def tokens : Piece → List Token
  | fixed s => [.fixed s]
  | hint h => h.tokens
  | piece => [.free piece.text]

theorem textOf_tokens : ∀ p : Piece, textOf written p.tokens = p.text
  | fixed _ => String.append_empty
  | hint h => h.textOf_tokens
  | base _ => String.append_empty
  | callee _ => String.append_empty
  | name _ => String.append_empty
  | quoted _ => String.append_empty
  | value _ => String.append_empty
  | prose _ => String.append_empty

/-- The names in a piece. -/
def mentions (p : Piece) : List Mention := mentionsIn p.tokens

/-- Whether a piece, if it is fixed, has no capital. -/
def isLower : Piece → Bool
  | fixed s => s.toList.all fun c => !c.isUpper
  | _ => true

def isFixed : Piece → Bool
  | fixed _ => true
  | _ => false

/-- Pieces that are not fixed are told apart by quotation marks. -/
theorem told_tokens : ∀ p : Piece, p.isFixed = false → Told "\"" p.tokens
  | hint h, _ => h.told_tokens
  | base _, _ => .single rfl
  | callee _, _ => .single rfl
  | name _, _ => .single rfl
  | quoted _, _ => .single rfl
  | value _, _ => .single rfl
  | prose _, _ => .single rfl

end Piece

/-- The tokens of pieces. -/
def tokensOf (pieces : List Piece) : List Token := pieces.flatMap Piece.tokens

theorem textOf_tokensOf : ∀ pieces : List Piece, textOf written (tokensOf pieces) = codeOf pieces
  | [] => rfl
  | p :: rest => by
      rw [tokensOf, List.flatMap_cons, textOf_append, p.textOf_tokens, codeOf]
      exact congrArg _ (textOf_tokensOf rest)

theorem mentionsIn_tokensOf (pieces : List Piece) :
    mentionsIn (tokensOf pieces) = pieces.flatMap Piece.mentions :=
  List.flatMap_assoc

/-- The tokens of a declaration. -/
def Body.tokens (indent name : String) (description : Option String) (body : Body) : List Token :=
  tokensOf (body.pieces indent name description)

section mentions
variable {indent name : String} {description : Option String}

/-- The tokens of a declaration are its code. -/
theorem Body.textOf_tokens (body : Body) :
    textOf written (body.tokens indent name description) = body.text indent name description := by
  rw [tokens, textOf_tokensOf, codeOf_pieces]

/-! ### The names in a body -/

theorem Field.mentions_pieces (f : Field) : f.pieces.flatMap Piece.mentions = f.type.mentions := by
  unfold pieces
  split
  · rw [← TypeExpr.mentionsIn_hint]
    cases f.default <;> exact List.append_nil _
  · rw [← mentionsIn_annotatedHint]
    exact List.append_nil _

theorem mentions_docPieces :
    (docPieces indent description).flatMap (fun ps => ps.flatMap Piece.mentions) = [] := by
  cases description <;> rfl

theorem mentions_commentPieces {discriminator : Option String} :
    (commentPieces description discriminator).flatMap (fun ps => ps.flatMap Piece.mentions) =
      [] := by
  rw [commentPieces, List.flatMap_map]
  exact List.flatMap_eq_nil_iff.mpr fun _ _ => rfl

theorem mentions_spreadPieces (members : List TypeExpr) :
    (spreadPieces indent name members).flatMap (fun ps => ps.flatMap Piece.mentions) =
      TypeExpr.mentionsAll members := by
  have hmember : ∀ m : TypeExpr, [Piece.fixed indent, .hint m.hint, .fixed ","].flatMap
      Piece.mentions = m.mentions := fun m => by
    rw [← TypeExpr.mentionsIn_hint]
    exact List.append_nil _
  rw [TypeExpr.mentionsAll_eq_flatMap, spreadPieces, List.cons_append, List.flatMap_cons,
    List.flatMap_append, List.flatMap_map, List.flatMap_congr fun m _ => hmember m]
  exact List.append_nil _

/-- The lines of a union have the names that its members mention. -/
theorem mentions_unionPieces : ∀ members : List TypeExpr,
    (unionPieces indent name members).flatMap (fun ps => ps.flatMap Piece.mentions) =
      TypeExpr.mentionsAll members
  | [only] => by
      rw [TypeExpr.mentionsAll, ← TypeExpr.mentionsIn_hint]
      exact List.append_nil _
  | [] => mentions_spreadPieces []
  | first :: second :: rest => mentions_spreadPieces (first :: second :: rest)

/-- The names in the tokens of a declaration are those that it mentions. -/
theorem Body.mentionsIn_tokens (body : Body) :
    mentionsIn (body.tokens indent name description) = body.mentions := by
  have hfixed : ∀ s, (Piece.fixed s).mentions = [] := fun _ => rfl
  rw [tokens, mentionsIn_tokensOf]
  cases body with
  | enum members =>
      have hmembers : (members.map memberPieces).flatMap (fun ps => ps.flatMap Piece.mentions) =
          [] := by
        rw [List.flatMap_map]
        exact List.flatMap_eq_nil_iff.mpr fun _ _ => rfl
      rw [pieces, mentions, flatMap_classPieces hfixed, List.flatMap_append, mentions_docPieces,
        flatMap_blockPieces hfixed, hmembers]
      rfl
  | model forbidsExtra fields =>
      have hforbid : (if forbidsExtra then [forbidPieces] else []).flatMap
          (fun ps => ps.flatMap Piece.mentions) = [] := by
        cases forbidsExtra <;> rfl
      have hfields : (fields.map Field.pieces).flatMap (fun ps => ps.flatMap Piece.mentions) =
          fields.flatMap fun f => f.type.mentions := by
        rw [List.flatMap_map, List.flatMap_congr fun f _ => f.mentions_pieces]
      rw [pieces, mentions, flatMap_classPieces hfixed, List.flatMap_append, List.flatMap_append,
        mentions_docPieces, flatMap_blockPieces hfixed, flatMap_blockPieces hfixed, hforbid,
        hfields]
      rfl
  | union discriminator members =>
      rw [pieces, mentions, flatMap_joined hfixed, List.flatMap_append, mentions_commentPieces,
        List.nil_append, mentions_unionPieces]
  | typeAlias type arguments =>
      rw [pieces, mentions, flatMap_joined hfixed, List.flatMap_append, mentions_commentPieces,
        List.nil_append]
      split
      · rw [← TypeExpr.mentionsIn_hint]
        exact (List.append_nil _).trans (List.append_nil _)
      · rw [← mentionsIn_annotatedHint]
        exact (List.append_nil _).trans (List.append_nil _)

end mentions

/-! ### What is fixed -/

/-- A text that can be fixed: it is not empty, and has neither a capital nor a quotation mark. -/
def IsFixed (s : String) : Prop := (Piece.fixed s).isLower = true ∧ IsGap "\"" s

instance (s : String) : Decidable (IsFixed s) :=
  inferInstanceAs (Decidable ((Piece.fixed s).isLower = true ∧ IsGap "\"" s))

/-- The fixed ones among pieces have neither a capital nor a quotation mark, and keep the others
apart. -/
structure Cut (pieces : List Piece) : Prop where
  lower : ∀ p ∈ pieces, p.isLower = true
  told : Told "\"" (tokensOf pieces)

namespace Cut
variable {s : String} {p : Piece} {ps qs : List Piece}

theorem nil : Cut [] := ⟨fun _ h => absurd h List.not_mem_nil, .nil⟩

theorem single (hp : p.isFixed = false) : Cut [p] where
  lower q hq := by
    rw [List.mem_singleton.mp hq]
    cases p with
    | fixed s => cases hp
    | _ => rfl
  told := by
    rw [tokensOf, List.flatMap_singleton]
    exact p.told_tokens hp

/-- A fixed piece keeps pieces apart. -/
theorem glue (hp : Cut ps) (hs : IsFixed s) (hq : Cut qs) : Cut (ps ++ .fixed s :: qs) where
  lower := List.forall_mem_append.mpr ⟨hp.lower, List.forall_mem_cons.mpr ⟨hs.1, hq.lower⟩⟩
  told := by
    rw [tokensOf, List.flatMap_append, List.flatMap_cons]
    exact hp.told.glue hs.2 hq.told

theorem fixed (hs : IsFixed s) (hp : Cut ps) : Cut (.fixed s :: ps) := nil.glue hs hp

/-- A piece before a fixed one. -/
theorem cons (hp : p.isFixed = false) (hs : IsFixed s) (hq : Cut qs) : Cut (p :: .fixed s :: qs) :=
  (single hp).glue hs hq

theorem joined {separator : String} (hs : IsFixed separator) :
    ∀ {groups : List (List Piece)}, (∀ ps ∈ groups, Cut ps) → Cut (joined separator groups)
  | [], _ => nil
  | [ps], h => by
      rw [Model.joined, List.intercalate_singleton]
      exact h ps List.mem_cons_self
  | ps :: qs :: rest, h => by
      rw [Model.joined, List.intercalate_cons_cons, List.append_assoc]
      exact (h ps List.mem_cons_self).glue hs
        (joined hs fun rs hrs => h rs (List.mem_cons_of_mem ps hrs))

end Cut

theorem isFixed_indentOf (settings : Settings) : IsFixed (indentOf settings) := by
  have hall : ∀ indent : Indent, IsFixed indent.text
    | .two => show IsFixed "  " by decide
    | .four => show IsFixed "    " by decide
    | .tab => show IsFixed "\t" by decide
  exact hall _

theorem Field.cut_pieces (f : Field) : Cut f.pieces := by
  unfold pieces
  split
  · cases f.default with
    | none => exact .cons rfl (by decide) (.single rfl)
    | some d => exact .cons rfl (by decide) (.cons rfl (by decide) (.single rfl))
  · exact .cons rfl (by decide) (.single rfl)

section pieces
variable {indent name : String} {description : Option String}

theorem cut_docPieces : ∀ ps ∈ docPieces indent description, Cut ps := by
  intro ps hps
  obtain ⟨text, -, rfl⟩ := mem_optionally.mp hps
  exact .single rfl

theorem cut_commentPieces {discriminator : Option String} :
    ∀ ps ∈ commentPieces description discriminator, Cut ps := by
  intro ps hps
  obtain ⟨comment, -, rfl⟩ := List.mem_map.mp hps
  exact .single rfl

theorem cut_headerPieces {before : String} (hbefore : IsFixed before) {last : Import} :
    Cut (headerPieces name before last) :=
  .fixed (by decide) (.cons rfl hbefore (.cons rfl (by decide) .nil))

theorem cut_forbidPieces : Cut forbidPieces :=
  .fixed (by decide) (.cons rfl (by decide) (.cons rfl (by decide) .nil))

section indent
variable (hindent : IsFixed indent)
include hindent

theorem cut_classPieces {header : List Piece} {blocks : List (List Piece)} (hheader : Cut header)
    (hblocks : ∀ ps ∈ blocks, Cut ps) : Cut (classPieces indent header blocks) := by
  unfold classPieces
  split
  · exact hheader.glue (by decide) (.fixed hindent (.fixed (by decide) .nil))
  · exact hheader.glue (by decide) (.joined (by decide) hblocks)

theorem cut_blockPieces {lines : List (List Piece)} (hlines : ∀ ps ∈ lines, Cut ps) :
    ∀ ps ∈ blockPieces indent lines, Cut ps := by
  intro ps hps
  unfold blockPieces at hps
  split at hps
  · cases hps
  · rw [List.mem_singleton.mp hps]
    refine .joined (by decide) fun line hline => ?_
    obtain ⟨inner, hinner, rfl⟩ := List.mem_map.mp hline
    exact .fixed hindent (hlines inner hinner)

theorem cut_spreadPieces (members : List TypeExpr) :
    ∀ ps ∈ spreadPieces indent name members, Cut ps := by
  refine List.forall_mem_append.mpr ⟨List.forall_mem_cons.mpr ⟨?_, ?_⟩, ?_⟩
  · exact .cons rfl (by decide) (.cons rfl (by decide) .nil)
  · exact List.forall_mem_map.mpr fun m _ => .fixed hindent (.cons rfl (by decide) .nil)
  · exact List.forall_mem_singleton.mpr (.fixed (by decide) .nil)

theorem cut_unionPieces (members : List TypeExpr) :
    ∀ ps ∈ unionPieces indent name members, Cut ps := by
  unfold unionPieces
  split
  · exact List.forall_mem_singleton.mpr (.cons rfl (by decide) (.single rfl))
  · exact cut_spreadPieces hindent _

/-- What is fixed in the code of a declaration. -/
theorem Body.cut_pieces : ∀ body : Body, Cut (body.pieces indent name description)
  | enum members => by
      refine cut_classPieces hindent (cut_headerPieces (by decide))
        (List.forall_mem_append.mpr ⟨cut_docPieces, cut_blockPieces hindent ?_⟩)
      exact List.forall_mem_map.mpr fun m _ => .cons rfl (by decide) (.single rfl)
  | model forbidsExtra fields => by
      refine cut_classPieces hindent (cut_headerPieces (by decide))
        (List.forall_mem_append.mpr ⟨List.forall_mem_append.mpr
          ⟨cut_docPieces, cut_blockPieces hindent ?_⟩, cut_blockPieces hindent ?_⟩)
      · cases forbidsExtra with
        | true => exact List.forall_mem_singleton.mpr cut_forbidPieces
        | false => exact fun _ h => absurd h List.not_mem_nil
      · exact List.forall_mem_map.mpr fun f _ => f.cut_pieces
  | union discriminator members =>
      .joined (by decide) (List.forall_mem_append.mpr
        ⟨cut_commentPieces, cut_unionPieces hindent members⟩)
  | typeAlias type arguments =>
      .joined (by decide) (List.forall_mem_append.mpr ⟨cut_commentPieces,
        List.forall_mem_singleton.mpr (.cons rfl (by decide) (.single rfl))⟩)

end indent

end pieces

/-! ### The top-level type -/

theorem cut_rootPieces (settings : Settings) (t : Table) : Cut (rootPieces settings t) := by
  have hindent := isFixed_indentOf settings
  have hdump : Cut (dumpPieces t) := by
    unfold dumpPieces
    split
    · exact .fixed (by decide) (.cons rfl (by decide) (.single rfl))
    · exact .fixed (by decide) (.single rfl)
  refine cut_classPieces hindent (cut_headerPieces (by decide))
    (List.forall_mem_append.mpr ⟨List.forall_mem_append.mpr
      ⟨cut_docPieces, cut_blockPieces hindent ?_⟩,
        List.forall_mem_singleton.mpr (.joined (by decide) ?_)⟩)
  · exact List.forall_mem_cons.mpr ⟨.fixed (by decide) (.single rfl),
      List.forall_mem_singleton.mpr (.fixed (by decide) (.single rfl))⟩
  · refine List.forall_mem_cons.mpr ⟨?_, List.forall_mem_cons.mpr
      ⟨?_, List.forall_mem_singleton.mpr ?_⟩⟩
    · exact .fixed hindent (.fixed (by decide) .nil)
    · exact .fixed hindent (.fixed hindent (.single rfl))
    · exact .glue (.fixed hindent (.fixed hindent (.fixed (by decide) hdump))) (by decide) .nil

end SchemaModels.Model
