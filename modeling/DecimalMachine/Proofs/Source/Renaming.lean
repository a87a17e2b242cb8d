import DecimalMachine.Proofs.Assembly.Identifier
import DecimalMachine.Proofs.Source.Line
import DecimalMachine.Proofs.Source.Listing

set_option autoImplicit false

/-! # Renamed texts

A renaming gives new names to some identifiers. In a text it changes the label in front of a line
and the operand of an instruction, and which word is which shows only once the labels that stand
alone are carried to the next line; so a text is renamed line by line with what is carried to the
line in front of it (`Source.renameCarried`). What is carried is then renamed by itself, and the
statements of the renamed text are the statements with their labels renamed
(`Source.statements_of_renames`). -/

namespace DecimalMachine

/-- New names for some identifiers, different ones for different identifiers. -/
structure Renaming where
  /-- The names that are replaced. -/
  renames : String → Bool
  /-- What a name is replaced by. -/
  name : String → String
  isIdentifier_of_renames : ∀ x, renames x = true → Token.isIdentifier x = true
  isIdentifier_name : ∀ x, renames x = true → Token.isIdentifier (name x) = true
  name_injective : ∀ x y, renames x = true → renames y = true → name x = name y → x = y

variable (ρ : Renaming)

/-- The name that stands for a name in the end. -/
def Renaming.apply (x : String) : String :=
  if ρ.renames x then ρ.name x else x

/-- The renaming that exchanges two identifiers. -/
def Renaming.swap (x y : String) (hx : Token.isIdentifier x = true)
    (hy : Token.isIdentifier y = true) : Renaming where
  renames z := z == x || z == y
  name z := if z = x then y else x
  isIdentifier_of_renames z hz := by
    rcases Bool.or_eq_true_iff.1 hz with h | h
    · exact beq_iff_eq.1 h ▸ hx
    · exact beq_iff_eq.1 h ▸ hy
  isIdentifier_name z _ := by
    split
    · exact hy
    · exact hx
  name_injective z w hz hw h := by
    simp only [Bool.or_eq_true, beq_iff_eq] at hz hw
    rcases hz with rfl | rfl <;> rcases hw with rfl | rfl <;> simp_all

/-! ## Words -/

/-- The definition of a label, renamed; any other word is left as it is. -/
def Renaming.label (w : String) : String :=
  match Stmt.uncolon? w with
  | some x => ρ.apply x ++ ":"
  | none => w

/-- An operand in the mode it is written in, with the label in it renamed. -/
def Renaming.operand (w : String) : String :=
  if ρ.renames (Operand.bare w) then
    (Operand.writtenMode w).mark (ρ.name (Operand.bare w))
  else w

/-- The words behind the first of a line, renamed: the last of them is an operand behind a mnemonic,
    which comes first, or behind the place of the instruction. -/
def Renaming.behind (first : String) : List String → List String
  | [second] =>
      if (Stmt.undot? first).isSome || (Stmt.uncolon? first).isSome || (Token.int? first).isSome
      then [second] else [ρ.operand second]
  | [mnemonic, operand] => [mnemonic, ρ.operand operand]
  | ws => ws

/-- The words of a line, renamed. -/
def Renaming.words : List String → List String
  | [] => []
  | first :: rest => ρ.label first :: ρ.behind first rest

/-! ## Statements -/

/-- A place with its label renamed. -/
def Place.rename : Place → Place
  | label x => label (ρ.apply x)
  | cell w => cell w

/-- An item with the label in its operand renamed. -/
def Item.rename : Item → Item
  | instr mnemonic w => instr mnemonic (ρ.operand w)
  | item => item

/-- A statement with its labels renamed. -/
def Stmt.rename : Stmt → Stmt
  | put place item => put (place.map (·.rename ρ)) (item.rename ρ)
  | s => s

theorem Item.rename_ofWord (w : String) : (ofWord w).rename ρ = ofWord w := by
  unfold ofWord
  cases Token.int? w <;> rfl

variable {ρ} in
theorem Renaming.apply_of_renames {x : String} (h : ρ.renames x = true) :
    ρ.apply x = ρ.name x :=
  if_pos h

/-- A word is left as it is, unless it is the definition of an identifier that is renamed. -/
theorem Renaming.label_cases (w : String) :
    ρ.label w = w ∧ (∀ x, Stmt.uncolon? w = some x → ρ.apply x = x) ∨
      ∃ x, ρ.renames x = true ∧ w = x ++ ":" ∧ ρ.label w = ρ.name x ++ ":" := by
  unfold label
  cases hw : Stmt.uncolon? w with
  | none => exact .inl ⟨rfl, nofun⟩
  | some x =>
      have hcolon := Stmt.eq_append_colon_of_uncolon? hw
      cases hx : ρ.renames x with
      | true => exact .inr ⟨x, hx, hcolon, congrArg (· ++ ":") (apply_of_renames hx)⟩
      | false =>
          have happly : ρ.apply x = x := if_neg (by simp [hx])
          refine .inl ⟨?_, fun y hy => Option.some.inj hy ▸ happly⟩
          exact (congrArg (· ++ ":") happly).trans hcolon.symm

/-- A renamed line says what the line says, with the labels renamed. -/
theorem Stmt.ofWords_words (ws : List String) : ofWords (ρ.words ws) = (ofWords ws).rename ρ := by
  match ws with
  | [] => rfl
  | [w] =>
      simp only [Renaming.words, Renaming.behind, ofWords, ofOne]
      rcases ρ.label_cases w with ⟨hsame, -⟩ | ⟨x, hx, rfl, hlabel⟩
      · rw [hsame]
        split
        · rfl
        · simp [rename, Item.rename_ofWord]
      · rw [hlabel, int?_append_colon (ρ.isIdentifier_of_renames x hx),
          int?_append_colon (ρ.isIdentifier_name x hx), uncolon?_append_colon,
          uncolon?_append_colon]
        rfl
  | [first, second] =>
      rcases ρ.label_cases first with ⟨hsame, happly⟩ | ⟨x, hx, rfl, hlabel⟩
      · cases hdot : undot? first with
        | some name => simp [Renaming.words, Renaming.behind, ofWords, ofTwo, hsame, hdot, rename]
        | none =>
            cases hcolon : uncolon? first with
            | some x =>
                simp [Renaming.words, Renaming.behind, ofWords, ofTwo, hsame, hdot, hcolon, rename,
                  Place.rename, Item.rename_ofWord, happly x hcolon]
            | none =>
                cases hint : Token.int? first with
                | some v =>
                    simp [Renaming.words, Renaming.behind, ofWords, ofTwo, hsame, hdot, hcolon,
                      hint, rename, Place.rename, Item.rename_ofWord]
                | none =>
                    simp [Renaming.words, Renaming.behind, ofWords, ofTwo, hsame, hdot, hcolon,
                      hint, rename, Item.rename]
      · simp [Renaming.words, Renaming.behind, ofWords, ofTwo, hlabel,
          undot?_append_colon (ρ.isIdentifier_of_renames x hx),
          undot?_append_colon (ρ.isIdentifier_name x hx), uncolon?_append_colon, rename,
          Place.rename, Item.rename_ofWord, Renaming.apply_of_renames hx]
  | [first, mnemonic, operand] =>
      simp only [Renaming.words, Renaming.behind, ofWords, ofThree]
      rcases ρ.label_cases first with ⟨hsame, happly⟩ | ⟨x, hx, rfl, hlabel⟩
      · rw [hsame]
        split
        · rename_i x hx
          simp [rename, Place.rename, Item.rename, happly x hx]
        · simp [rename, Place.rename, Item.rename]
      · rw [hlabel, uncolon?_append_colon, uncolon?_append_colon]
        simp [rename, Place.rename, Item.rename, Renaming.apply_of_renames hx]
  | _ :: _ :: _ :: _ :: _ => rfl

/-! ## Texts -/

namespace Source

/-- The words of every line as written, renamed in the part that they play once the words carried to
    the line stand in front of them. -/
def renameCarried (carried : List String) : List (List String) → List (List String)
  | [] => []
  | ws :: rest =>
      let line := carried ++ ws
      (ρ.words line).drop carried.length :: renameCarried (handedOn line) rest

/-- A text is written like another one with the labels renamed. Blanks and comments may differ. -/
def Renames (source source' : String) : Prop :=
  (Text.lines source').map written = renameCarried ρ [] ((Text.lines source).map written)

theorem isLoneLabel_words (ws : List String) : isLoneLabel (ρ.words ws) = isLoneLabel ws := by
  match ws with
  | [] => rfl
  | [w] =>
      simp only [Renaming.words, Renaming.behind, isLoneLabel]
      rcases ρ.label_cases w with ⟨hsame, -⟩ | ⟨x, hx, rfl, hlabel⟩
      · rw [hsame]
      · rw [hlabel, Token.label?_append_colon (ρ.isIdentifier_of_renames x hx),
          Token.label?_append_colon (ρ.isIdentifier_name x hx)]
        rfl
  | [first, second] =>
      simp only [Renaming.words, Renaming.behind]
      split <;> rfl
  | [_, _, _] => rfl
  | _ :: _ :: _ :: _ :: _ => rfl

theorem handedOn_words (ws : List String) : handedOn (ρ.words ws) = ρ.words (handedOn ws) := by
  rw [handedOn, handedOn, isLoneLabel_words]
  split <;> rfl

/-- What is carried to a line is renamed by itself. -/
theorem words_append {carried : List String} (h : carried = [] ∨ isLoneLabel carried = true)
    (ws : List String) :
    ρ.words carried ++ (ρ.words (carried ++ ws)).drop carried.length =
      ρ.words (carried ++ ws) := by
  rcases h with rfl | h
  · rfl
  · match carried, h with
    | [w], _ => rfl

theorem carry_renameCarried {carried : List String}
    (h : carried = [] ∨ isLoneLabel carried = true) (ls : List (List String)) :
    carry (ρ.words carried) (renameCarried ρ carried ls) = (carry carried ls).map ρ.words := by
  induction ls generalizing carried with
  | nil => rfl
  | cons ws rest ih =>
      have hnext : handedOn (carried ++ ws) = [] ∨
          isLoneLabel (handedOn (carried ++ ws)) = true := by
        rcases handedOn_eq_nil_or (carried ++ ws) with hnil | ⟨hline, hlone⟩
        · exact .inl hnil
        · exact .inr (by rwa [hline])
      have hrest := ih hnext
      rw [← handedOn_words] at hrest
      rw [renameCarried, carry, words_append ρ h]
      exact congrArg (ρ.words (carried ++ ws) :: ·) hrest

/-- The statements of a renamed text are those of the text, renamed. -/
theorem statements_of_renames {source source' : String} (h : Renames ρ source source') :
    statements source' = (statements source).map (Stmt.rename ρ) := by
  have hlines : lines source' = (lines source).map ρ.words := by
    rw [lines, lines, h]
    exact carry_renameCarried ρ (.inl rfl) _
  rw [statements, statements, hlines, List.map_map, List.map_map]
  exact List.map_congr_left fun ws _ => Stmt.ofWords_words ρ ws

end Source

end DecimalMachine
