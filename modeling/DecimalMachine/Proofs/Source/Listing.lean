import DecimalMachine.Assembly.Emission
import DecimalMachine.Proofs.Source.Line
import DecimalMachine.Proofs.Source.Token

set_option autoImplicit false

/-! # Listings

A listing is a source text with one instruction on each line, spelled as instructions are shown.
Each of its lines is the statement that puts this instruction at the next free cell of code
(`Source.statements_listing`), and the operand that the statement holds is read back as it was
(`Operand.resolve?_text`). -/

namespace DecimalMachine

/-! ## Operands -/

/-- A text with the marks of a mode. -/
def Mode.mark (mode : Mode) (t : String) : String :=
  match mode with
  | .immediate => "$" ++ t
  | .indirect => "[" ++ t ++ "]"
  | .direct => t

/-- The characters of an integer are neither blanks nor semicolons. -/
theorem Text.Numeral.plain_of_mem_chars {n : Int} {c : Char} (h : c ∈ chars n) :
    isBlank c = false ∧ c ≠ ';' := by
  have hc := toNat_of_mem_chars h
  constructor
  · cases hb : isBlank c with
    | false => rfl
    | true =>
        simp [isBlank] at hb
        omega
  · rintro rfl
    revert hc
    decide

namespace Operand

theorem toList_text (x : Operand) :
    x.text.toList =
      match x.mode with
      | .immediate => '$' :: Text.Numeral.chars x.value.toInt
      | .indirect => '[' :: Text.Numeral.chars x.value.toInt ++ [']']
      | .direct => Text.Numeral.chars x.value.toInt := by
  obtain ⟨mode, v⟩ := x
  cases mode <;> simp [text, Cell.text, Text.Numeral.text]

theorem isWord_text (x : Operand) : Source.IsWord x.text := by
  have hchars : ∀ c ∈ Text.Numeral.chars x.value.toInt, Text.isBlank c = false ∧ c ≠ ';' :=
    fun c hc => Text.Numeral.plain_of_mem_chars hc
  rw [Source.IsWord, toList_text]
  cases x.mode with
  | immediate =>
      refine ⟨List.cons_ne_nil _ _, ?_⟩
      intro c hc
      rcases List.mem_cons.1 hc with rfl | hc
      · decide
      · exact hchars c hc
  | indirect =>
      refine ⟨by simp, ?_⟩
      intro c hc
      rcases List.mem_append.1 hc with hc | hc
      · rcases List.mem_cons.1 hc with rfl | hc
        · decide
        · exact hchars c hc
      · obtain rfl := List.mem_singleton.1 hc
        decide
  | direct => exact ⟨Text.Numeral.chars_ne_nil _, hchars⟩

/-- No mark of a mode is part of an integer. -/
theorem ne_mark_of_int? {t : String} {v : Cell} (hv : Token.int? t = some v) {c : Char}
    (hc : c ∈ t.toList) : c ≠ '$' ∧ c ≠ '[' ∧ c ≠ ']' := by
  have hcases := Token.sign_or_isDigit_of_int? hv hc
  refine ⟨?_, ?_, ?_⟩
  all_goals
    rintro rfl
    revert hcases
    decide

/-- The marks of a mode can be taken off a text again that has none itself. -/
theorem bare_mark_of_unmarked {t : String}
    (ht : ∀ c ∈ t.toList, c ≠ '$' ∧ c ≠ '[' ∧ c ≠ ']') (mode : Mode) :
    bare (mode.mark t) = t := by
  have hfilter : t.toList.filter (fun c => c != '$' && c != '[' && c != ']') = t.toList := by
    refine List.filter_eq_self.2 ?_
    intro c hc
    simp [ht c hc]
  cases mode <;> simp [bare, Mode.mark, hfilter]

theorem writtenMode_mark_of_unmarked {t : String}
    (ht : ∀ c ∈ t.toList, c ≠ '$' ∧ c ≠ '[' ∧ c ≠ ']') (mode : Mode) :
    writtenMode (mode.mark t) = mode := by
  have hdollar : '$' ∉ t.toList := fun h => (ht _ h).1 rfl
  have hbracket : '[' ∉ t.toList := fun h => (ht _ h).2.1 rfl
  cases mode <;> simp [writtenMode, Mode.mark, hdollar, hbracket]

/-- Without the marks of its mode an operand is the integer that they were put around. -/
theorem bare_mark {t : String} {v : Cell} (hv : Token.int? t = some v) (mode : Mode) :
    bare (mode.mark t) = t :=
  bare_mark_of_unmarked (fun _ hc => ne_mark_of_int? hv hc) mode

theorem writtenMode_mark {t : String} {v : Cell} (hv : Token.int? t = some v) (mode : Mode) :
    writtenMode (mode.mark t) = mode :=
  writtenMode_mark_of_unmarked (fun _ hc => ne_mark_of_int? hv hc) mode

theorem text_eq_mark (x : Operand) : x.text = x.mode.mark x.value.text := by
  obtain ⟨mode, v⟩ := x
  cases mode <;> rfl

/-- Where no label is known, an operand is read back from its spelling. -/
theorem resolve?_text (x : Operand) : resolve? (fun _ => none) x.text = some x := by
  have hv := Token.int?_text x.value
  rw [text_eq_mark]
  simp [resolve?, value?, bare_mark hv, hv, writtenMode_mark hv]

end Operand

/-! ## Mnemonics -/

namespace Opcode

theorem isWord_mnemonic (op : Opcode) : Source.IsWord op.mnemonic := by
  cases op <;> decide +kernel

theorem label?_mnemonic (op : Opcode) : Token.label? op.mnemonic = none := by
  cases op <;> decide +kernel

theorem int?_mnemonic (op : Opcode) : Token.int? op.mnemonic = none := by
  cases op <;> decide +kernel

theorem uncolon?_mnemonic (op : Opcode) : Stmt.uncolon? op.mnemonic = none := by
  cases op <;> decide

theorem undot?_mnemonic (op : Opcode) : Stmt.undot? op.mnemonic = none := by
  cases op <;> decide

end Opcode

/-! ## Instructions -/

namespace Instr

/-- The words that an instruction is spelled with. -/
def spelling (i : Instr) : List String :=
  i.op.mnemonic :: (i.operand.map Operand.text).toList

/-- An instruction as a statement puts it into memory. -/
def item (i : Instr) : Item :=
  match i.operand with
  | none => .word i.op.mnemonic
  | some x => .instr i.op.mnemonic x.text

/-- The source text with one instruction on each line. -/
def listing (is : List Instr) : String :=
  "\n".intercalate (is.map Instr.text)

theorem text_eq_plain (i : Instr) : i.text = Source.plain i.spelling := by
  obtain ⟨op, _ | x⟩ := i
  · simp [text, spelling, Source.plain]
  · simp [text, spelling, Source.plain, String.append_assoc]

theorem isWord_of_mem_spelling {i : Instr} {w : String} (h : w ∈ i.spelling) :
    Source.IsWord w := by
  obtain ⟨op, _ | x⟩ := i
  · obtain rfl := List.mem_singleton.1 h
    exact op.isWord_mnemonic
  · rcases List.mem_cons.1 h with rfl | h
    · exact op.isWord_mnemonic
    · obtain rfl := List.mem_singleton.1 h
      exact x.isWord_text

theorem isLoneLabel_spelling (i : Instr) : Source.isLoneLabel i.spelling = false := by
  obtain ⟨op, _ | x⟩ := i
  · simp [spelling, Source.isLoneLabel, Opcode.label?_mnemonic]
  · rfl

/-- The words of an instruction are the statement that puts it somewhere. -/
theorem ofWords_spelling (i : Instr) : Stmt.ofWords i.spelling = .put none i.item := by
  obtain ⟨op, _ | x⟩ := i
  · simp [spelling, Stmt.ofWords, Stmt.ofOne, Item.ofWord, item, Opcode.int?_mnemonic,
      Opcode.uncolon?_mnemonic]
  · simp [spelling, Stmt.ofWords, Stmt.ofTwo, item, Opcode.int?_mnemonic,
      Opcode.uncolon?_mnemonic, Opcode.undot?_mnemonic]

end Instr

/-- The statements of a listing are its instructions. -/
theorem Source.statements_listing {is : List Instr} (hne : is ≠ []) :
    Source.statements (Instr.listing is) = is.map fun i => .put none i.item := by
  have htexts : is.map Instr.text = (is.map Instr.spelling).map Source.plain := by
    rw [List.map_map]
    exact List.map_congr_left fun i _ => i.text_eq_plain
  have hlines : Source.lines (Instr.listing is) = is.map Instr.spelling := by
    rw [Instr.listing, htexts]
    refine Source.lines_plain (by simpa using hne) ?_ ?_
    · intro ws hws w hw
      obtain ⟨i, -, rfl⟩ := List.mem_map.1 hws
      exact Instr.isWord_of_mem_spelling hw
    · intro ws hws
      obtain ⟨i, -, rfl⟩ := List.mem_map.1 hws
      exact i.isLoneLabel_spelling
  rw [Source.statements, hlines, List.map_map]
  exact List.map_congr_left fun i _ => i.ofWords_spelling

end DecimalMachine
