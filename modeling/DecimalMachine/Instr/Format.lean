import DecimalMachine.Defect
import DecimalMachine.Fault
import DecimalMachine.Instr.Basic

set_option autoImplicit false

/-! # The format of instructions in cells

Every pair of an opcode and a mode owns a range of words, one for each operand small enough to be
packed into the word, and one more word, the marker, which says that the operand is in the next
cell. Encoding and decoding read the same formats, and no word belongs to two of them. -/

namespace DecimalMachine

/-! ## Formats -/

/-- The words of one opcode in one mode: the operand `v` below `limit` is packed as `base + v`,
    any other follows the word `marker`. -/
structure Format where
  base : Nat
  limit : Nat
  marker : Nat
  deriving DecidableEq, Repr

namespace Format

/-- The format of an opcode in a mode. `HLT` has none, as it takes no operand, and `INC` and `DEC`
    have no immediate one, as they change a cell. -/
def of? (op : Opcode) (mode : Mode) : Option Format :=
  match op, mode with
  | .inc, .indirect => some ⟨9300, 10, 9400⟩
  | .inc, .direct => some ⟨100, 100, 9000⟩
  | .dec, .indirect => some ⟨9390, 10, 9490⟩
  | .dec, .direct => some ⟨200, 100, 9090⟩
  | op, .immediate => op.family?.map fun i => ⟨9110 + 10 * i, 10, 9210 + 10 * i⟩
  | op, .indirect => op.family?.map fun i => ⟨9310 + 10 * i, 10, 9410 + 10 * i⟩
  | op, .direct => op.family?.map fun i => ⟨1000 * (i + 1), 1000, 9010 + 10 * i⟩

/-- Whether an operand can be packed. -/
def packs (f : Format) (v : Cell) : Bool :=
  0 ≤ v.toInt && v.toInt < f.limit

/-- The word that holds a packed operand. -/
def packedWord (f : Format) (v : Cell) : Cell :=
  Int32.ofInt (f.base + v.toInt)

/-- The word that announces an operand in the next cell. -/
def markerWord (f : Format) : Cell :=
  Int32.ofNat f.marker

/-- The operand packed into a word, if the word lies in the range of the format. -/
def unpack? (f : Format) (word : Cell) : Option Cell :=
  let v := word.toInt - f.base
  if 0 ≤ v ∧ v < f.limit then some (Int32.ofInt v) else none

/-- All formats with the opcode and the mode they belong to. -/
def table : List (Opcode × Mode × Format) :=
  Opcode.all.flatMap fun op =>
    Mode.all.filterMap fun mode => (of? op mode).map fun f => (op, mode, f)

end Format

/-! ## Encoding -/

/-- The word of `HLT`. -/
def haltWord : Cell := 0

/-- An instruction as it stands in memory. -/
inductive Encoded
  | packed (word : Cell)
  | wide (marker operand : Cell)
  deriving DecidableEq, Repr

namespace Encoded

/-- The cells of an encoded instruction. -/
def words : Encoded → List Cell
  | packed w => [w]
  | wide w v => [w, v]

/-- The width of an encoded instruction. -/
def width : Encoded → Width
  | packed _ => .packed
  | wide _ _ => .wide

theorem length_words (e : Encoded) : e.words.length = e.width.cells := by
  cases e <;> rfl

end Encoded

namespace Instr

/-- An instruction in memory, in at least the given width. -/
def encodeFrom (least : Width) (i : Instr) : Except Defect Encoded :=
  match i.operand with
  | none => if i.op = .hlt then .ok (.packed haltWord) else .error .missingOperand
  | some x =>
      match Format.of? i.op x.mode with
      | none => .error .invalidMode
      | some f =>
          if least = .packed ∧ f.packs x.value then .ok (.packed (f.packedWord x.value))
          else .ok (.wide f.markerWord x.value)

/-- An instruction in memory, packed if its operand allows it. -/
def encode (i : Instr) : Except Defect Encoded :=
  i.encodeFrom .packed

/-- An instruction in memory, with its operand, if it has one, in a cell of its own. -/
def encodeWide (i : Instr) : Except Defect Encoded :=
  i.encodeFrom .wide

/-! ## Decoding -/

/-- What a word says when it is read as an instruction. -/
inductive Reading
  /-- The word is a whole instruction. -/
  | whole (i : Instr)
  /-- The word is a marker, and the operand is in the next cell. -/
  | marker (op : Opcode) (mode : Mode)
  deriving DecidableEq, Repr

/-- The reading of a word in one format. -/
def Reading.inFormat? (word : Cell) : Opcode × Mode × Format → Option Reading
  | (op, mode, f) =>
      match f.unpack? word with
      | some v => some (.whole ⟨op, some ⟨mode, v⟩⟩)
      | none => if word = f.markerWord then some (.marker op mode) else none

/-- The reading of a word, if it is an instruction or a marker. -/
def read? (word : Cell) : Option Reading :=
  if word = haltWord then some (.whole halt)
  else Format.table.findSome? (Reading.inFormat? word)

/-- Whether decoding a word takes the next cell too. -/
def readsNext (word : Cell) : Bool :=
  match read? word with
  | some (.marker _ _) => true
  | _ => false

/-- The instruction that starts with a word, and its width. The next cell counts only after a
    marker; if it cannot be read then, that fault is the answer. -/
def decode (word : Cell) (next : Except Fault Cell) : Except Fault (Instr × Width) :=
  match read? word with
  | none => .error (.unrecognized word)
  | some (.whole i) => .ok (i, .packed)
  | some (.marker op mode) => next.map fun v => (⟨op, some ⟨mode, v⟩⟩, .wide)

end Instr

end DecimalMachine
