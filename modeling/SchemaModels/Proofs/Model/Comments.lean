import SchemaModels.Proofs.Model.Declaration
import SchemaModels.Proofs.Text.Rows

/-!
# Comments above assignments

The code of a union or an alias is its comments, a line each, and the assignment. A comment is made
of a line of the description or of the discriminator, and both are written as they are.

* `toList_text_assignment`: the comments and the assignment.
* `isChain_commentBlock`: what holds of characters in a row in the comments holds of them in the
  lines of the description and in the discriminator.
-/

namespace SchemaModels.Model

open Text

namespace Body

/-- Whether a declaration is an assignment. -/
def isAssignment : Body → Bool
  | union _ _ => true
  | typeAlias _ _ => true
  | _ => false

/-- The discriminator that is written above an assignment. -/
def discriminator? : Body → Option String
  | union discriminator _ => discriminator
  | _ => none

/-- A declaration without a discriminator. -/
def untagged : Body → Body
  | union _ members => union none members
  | b => b

end Body

/-- The text of comments, a line each. -/
def commentBlock (comments : List String) : List Char :=
  comments.flatMap fun c => c.toList ++ ['\n']

/-! ### Assignments -/

theorem exists_unionLines_eq (indent name : String) (members : List TypeExpr) :
    ∃ value rest, unionLines indent name members = (name ++ " = " ++ value) :: rest := by
  unfold unionLines
  split
  · exact ⟨_, [], rfl⟩
  · have hopening : name ++ " = Union[" = name ++ " = " ++ "Union[" := by
      rw [String.append_assoc]
      rfl
    rw [hopening]
    exact ⟨_, _, rfl⟩

section text
variable {body : Body} (h : body.isAssignment = true) (indent name : String)
include h

/-- Without comments the code of an assignment begins with the name that is assigned. -/
theorem exists_toList_untagged : ∃ value,
    (body.untagged.text indent name none).toList = name.toList ++ " = ".toList ++ value := by
  have hline : ∀ (value : String) (rest : List String), ∃ text,
      (String.intercalate "\n" ((name ++ " = " ++ value) :: rest)).toList =
        name.toList ++ " = ".toList ++ text := fun value rest => by
    rw [toList_intercalate_cons, String.toList_append, String.toList_append, List.append_assoc]
    exact ⟨_, rfl⟩
  match body, h with
  | .union _ members, _ =>
      obtain ⟨value, rest, hlines⟩ := exists_unionLines_eq indent name members
      show ∃ text, (String.intercalate "\n" (unionLines indent name members)).toList = _
      rw [hlines]
      exact hline value rest
  | .typeAlias type arguments, _ => exact hline _ []

/-- The code of an assignment is its comments and what is written without them. -/
theorem toList_text_assignment (description : Option String) :
    (body.text indent name description).toList =
      commentBlock (comments description body.discriminator?) ++
        (body.untagged.text indent name none).toList := by
  match body, h with
  | .union discriminator members, _ =>
      have hlines : unionLines indent name members ≠ [] := by
        obtain ⟨_, _, heq⟩ := exists_unionLines_eq indent name members
        rw [heq]
        exact List.cons_ne_nil _ _
      exact toList_intercalate_append "\n" hlines _
  | .typeAlias type arguments, _ =>
      exact toList_intercalate_append "\n" (List.cons_ne_nil _ []) _

end text

/-! ### Comments -/

theorem head?_of_mem_comments {description discriminator : Option String} {c : String}
    (h : c ∈ comments description discriminator) : c.toList.head? = some '#' := by
  rcases List.mem_append.mp h with h | h
  · obtain ⟨line, -, rfl⟩ := List.mem_map.mp h
    unfold commentLine
    split
    · rfl
    · rw [String.toList_append]
      rfl
  · obtain ⟨field, -, rfl⟩ := mem_optionally.mp h
    rw [String.toList_append, String.toList_append]
    rfl

theorem getLast?_commentBlock (comments : List String) :
    commentBlock comments = [] ∨ (commentBlock comments).getLast? = some '\n' := by
  rcases List.eq_nil_or_concat comments with rfl | ⟨cs, c, rfl⟩
  · exact .inl rfl
  · right
    rw [commentBlock, List.concat_eq_append, List.flatMap_append, List.flatMap_singleton,
      ← List.append_assoc, List.getLast?_concat]

/-- The comments above an assignment go on as comments after each break, and after one before them,
exactly when each of them does. -/
theorem isChain_commentBlock {R : Char → Char → Prop} (hmark : R '\n' '#')
    {comments : List String} (h : ∀ c ∈ comments, c.toList.head? = some '#') :
    ('\n' :: commentBlock comments).IsChain R ↔
      ∀ c ∈ comments, (c.toList ++ ['\n']).IsChain R := by
  induction comments with
  | nil => exact ⟨fun _ => List.forall_mem_nil _, fun _ => List.isChain_singleton _⟩
  | cons c cs ih =>
      obtain ⟨hc, hcs⟩ := List.forall_mem_cons.mp h
      obtain ⟨line, hline⟩ := List.head?_eq_some_iff.mp hc
      have hblock : commentBlock (c :: cs) = '#' :: (line ++ '\n' :: commentBlock cs) := by
        rw [commentBlock, List.flatMap_cons, hline]
        simp [commentBlock]
      -- The line feed that ends a comment is the one before the next.
      rw [hblock, List.isChain_cons_cons, and_iff_right hmark, List.isChain_cons_split, ih hcs,
        List.forall_mem_cons, hline]
      rfl

section isChain
variable {R : Char → Char → Prop} (hR : ∀ c d, c ≠ '\n' → c ≠ '\r' → R c d)
include hR

/-- What is only asked of breaks holds of a text when it holds after a part without them. -/
theorem isChain_append_iff {a : List Char} (ha : '\n' ∉ a ∧ '\r' ∉ a) (s : List Char) :
    (a ++ s).IsChain R ↔ s.IsChain R := by
  induction a with
  | nil => exact Iff.rfl
  | cons c a ih =>
      obtain ⟨hfeed, hreturn⟩ := ha
      obtain ⟨hcf, hfeed⟩ := List.ne_and_not_mem_of_not_mem_cons hfeed
      obtain ⟨hcr, hreturn⟩ := List.ne_and_not_mem_of_not_mem_cons hreturn
      rw [List.cons_append, List.isChain_cons, ih ⟨hfeed, hreturn⟩]
      exact and_iff_right fun d _ => hR c d (Ne.symm hcf) (Ne.symm hcr)

theorem isChain_commentLine (line : List Char) :
    ((commentLine (String.ofList line)).toList ++ ['\n']).IsChain R ↔
      (line ++ ['\n']).IsChain R := by
  unfold commentLine
  split
  · rename_i hempty
    obtain rfl : line = [] := by simpa using hempty
    exact isChain_append_iff hR (a := ['#']) (by decide) ['\n']
  · rw [String.toList_append, List.append_assoc, isChain_append_iff hR (by decide),
      String.toList_ofList]

/-- A quote stands between a discriminator and the end of its comment. -/
theorem isChain_discriminator (field : String) :
    (("# Discriminated by \"" ++ field ++ "\"").toList ++ ['\n']).IsChain R ↔
      (field.toList ++ ['"']).IsChain R := by
  have hend : ['"', '\n'].IsChain R := List.isChain_pair.mpr (hR _ _ (by decide) (by decide))
  rw [String.toList_append, String.toList_append, List.append_assoc, List.append_assoc,
    isChain_append_iff hR (by decide)]
  show (field.toList ++ '"' :: ['\n']).IsChain R ↔ _
  rw [List.isChain_split, and_iff_left hend]

/-- What breaks in comments ask is what they ask in the lines of the description and in the
discriminator. -/
theorem forall_comments_iff (description discriminator : Option String) :
    (∀ c ∈ comments description discriminator, (c.toList ++ ['\n']).IsChain R) ↔
      (∀ text, description = some text → ∀ line ∈ lines text.toList, (line ++ ['\n']).IsChain R) ∧
        ∀ field, discriminator = some field → (field.toList ++ ['"']).IsChain R := by
  rw [comments, List.forall_mem_append]
  refine and_congr ?_ ?_
  · cases description with
    | none => simp
    | some text =>
        simp only [Option.map_some, Option.getD_some, linesOf, List.map_map, List.forall_mem_map,
          Function.comp_apply, isChain_commentLine hR, Option.some.injEq, forall_eq']
  · cases discriminator with
    | none => simp [optionally]
    | some field => simpa [optionally] using isChain_discriminator hR field

end isChain

end SchemaModels.Model
