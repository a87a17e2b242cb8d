import DecimalMachine.Proofs.Instr.RoundTrip
import DecimalMachine.Proofs.Machine.Program
import DecimalMachine.Proofs.Source.Listing

set_option autoImplicit false

/-! # Listings are assembled and decoded

A listing defines no label, so one pass settles it, and every instruction in it is encoded as it is
spelled, behind the one before it (`Pass.emits_listing`). To decode the cells from the first one
on, each time as many of them as the instruction is wide, gives the listed instructions again and
comes out at the end of the program (`Instr.sweep_eq`). -/

namespace DecimalMachine

/-! ## Emissions -/

theorem Instr.exists_encodings {is : List Instr} (h : ∀ i ∈ is, ∃ e, i.encode = .ok e) :
    ∃ es : List Encoded, is.map Instr.encode = es.map .ok := by
  induction is with
  | nil => exact ⟨[], rfl⟩
  | cons i is ih =>
      obtain ⟨e, he⟩ := h i List.mem_cons_self
      obtain ⟨es, hes⟩ := ih fun j hj => h j (List.mem_cons_of_mem _ hj)
      exact ⟨e :: es, by rw [List.map_cons, List.map_cons, he, hes]⟩

/-- Where no label is known, an instruction emits its encoding. -/
theorem Instr.emit_item {i : Instr} {e : Encoded} (h : i.encode = .ok e) :
    (Stmt.put none i.item).emit (fun _ => none) false = { cells := e.words } := by
  obtain ⟨op, _ | x⟩ := i
  · obtain ⟨rfl, rfl⟩ := encodeFrom_none h
    have hop : Opcode.ofWord? Opcode.hlt.mnemonic = some .hlt := Opcode.ofWord?_mnemonic .hlt
    simp [item, Stmt.emit, Stmt.isMisplaced, Stmt.emitItem, Stmt.emitWord, notHalt, hop,
      Encoded.words]
  · have hne : op ≠ .hlt := by
      rintro rfl
      rw [encode, encodeFrom_eq_error_iff.2 (.halt x)] at h
      exact absurd h (by simp)
    have hencode : (⟨op, some x⟩ : Instr).encodeFrom .packed = .ok e := h
    simp [item, Stmt.emit, Stmt.isMisplaced, Stmt.emitItem,
      emitInstr_eq (Opcode.ofWord?_mnemonic op) hne, Operand.taken, Operand.malformed,
      Operand.resolve?_text, hencode]

theorem Instr.site?_item {i : Instr} {e : Encoded} (h : i.encode = .ok e) (cur : Cursors) :
    (Stmt.put none i.item).site? cur = some cur.code := by
  obtain ⟨op, _ | x⟩ := i
  · obtain ⟨rfl, -⟩ := encodeFrom_none h
    simp [item, Stmt.site?, Opcode.ofWord?_mnemonic]
  · rfl

/-! ## The pass over a listing -/

namespace Layout

/-- The layout with the code cursor moved on. -/
def advance (lay : Layout) (n : Nat) : Layout :=
  { lay with cursors := { lay.cursors with code := lay.cursors.code + n } }

theorem advance_advance (lay : Layout) (n k : Nat) :
    (lay.advance n).advance k = lay.advance (n + k) := by
  simp [advance, Nat.add_assoc]

/-- A line with an instruction, in a layout without labels. -/
theorem step_item {lay : Layout} (hlabels : lay.labels = ∅) {i : Instr} {e : Encoded}
    (h : i.encode = .ok e) {line : Line} (hstmt : line.stmt = .put none i.item)
    (hwide : line.wide = false) :
    (lay.step (fun _ => none) line).1.writes =
        (e.words.zipIdx lay.cursors.code).map (fun (v, a) => (a, v)) ∧
      (lay.step (fun _ => none) line).1.defects = [] ∧
      (lay.step (fun _ => none) line).2 = lay.advance e.words.length := by
  have hbind : lay.bind line = lay := by
    simp [bind, hstmt, Stmt.defines?]
  have hclash : lay.clash line = [] := by
    simp [clash, hstmt, Stmt.defines?]
  have hknown : lay.known (fun _ => none) = fun _ => none := by
    funext name
    simp [known, hlabels]
  have hcursors : lay.cursors.after (.put none i.item) e.words.length =
      { lay.cursors with code := lay.cursors.code + e.words.length } := by
    have hpos : e.words.length ≠ 0 := by
      cases e <;> simp [Encoded.words]
    simp only [Cursors.after, Instr.site?_item h]
    obtain ⟨op, _ | x⟩ := i
    · simp [Instr.item, Cursors.afterItem, hpos]
    · rfl
  simp only [step, hbind, hclash, hknown, hstmt, hwide, Instr.emit_item h, Instr.site?_item h]
  refine ⟨rfl, rfl, ?_⟩
  rw [hcursors]
  rfl

end Layout

namespace Pass

/-- A pass that wrote some cells one behind the other, without a defect, and nothing else. -/
structure Emits (p : Pass) (lay : Layout) (cells : List Cell) : Prop where
  writes : p.entries.flatMap (·.writes) =
    (cells.zipIdx lay.cursors.code).map fun (v, a) => (a, v)
  defects : ∀ e ∈ p.entries, e.defects = []
  layout : p.layout = lay.advance cells.length

/-- The object file of such a pass over a whole program. -/
theorem Emits.object {p : Pass} {cells : List Cell} (h : p.Emits {} cells) :
    p.object.writes = cells.zipIdx.map (fun (v, a) => (a, v)) ∧ p.object.start = 0 ∧
      p.findings = [] := by
  refine ⟨h.writes, congrArg (·.cursors.start) h.layout, ?_⟩
  refine List.flatMap_eq_nil_iff.2 ?_
  intro entry hentry
  simp [Entry.findings, h.defects entry hentry]

/-- Lines with instructions emit the encodings of these in order. -/
theorem emits_items {is : List Instr} {es : List Encoded} (h : is.map Instr.encode = es.map .ok)
    {lines : List Line}
    (hlines : lines.map (fun line => (line.stmt, line.wide)) =
      is.map fun i => (Stmt.put none i.item, false))
    {lay : Layout} (hlabels : lay.labels = ∅) :
    (runFrom (fun _ => none) lay lines).Emits lay (es.flatMap Encoded.words) := by
  induction is generalizing es lines lay with
  | nil =>
      obtain rfl : es = [] := by simpa using h.symm
      obtain rfl : lines = [] := by simpa using hlines
      exact ⟨rfl, by simp [runFrom], rfl⟩
  | cons i is ih =>
      obtain ⟨e, es, rfl, hencode, hes⟩ := List.map_eq_cons_iff.1 h.symm
      obtain ⟨line, lines, rfl, hline, hlines⟩ := List.map_eq_cons_iff.1 hlines
      obtain ⟨hstmt, hwide⟩ := Prod.mk.inj hline
      obtain ⟨hwrites, hdefects, hlayout⟩ := Layout.step_item hlabels hencode.symm hstmt hwide
      have hrest : (runFrom (fun _ => none) (lay.advance e.words.length) lines).Emits
          (lay.advance e.words.length) (es.flatMap Encoded.words) :=
        ih hes.symm hlines hlabels
      simp only [runFrom]
      rw [hlayout]
      refine ⟨?_, ?_, ?_⟩
      · rw [List.flatMap_cons, List.flatMap_cons, List.zipIdx_append, List.map_append, hwrites,
          hrest.writes]
        rfl
      · intro entry hentry
        rcases List.mem_cons.1 hentry with rfl | hentry
        · exact hdefects
        · exact hrest.defects entry hentry
      · rw [List.flatMap_cons, List.length_append, ← Layout.advance_advance]
        exact hrest.layout

/-- A program in whose first pass no label is found is settled by it. -/
theorem settled_eq_first {program : List Line} (h : (first program).symbols.addresses = []) :
    settled program = first program := by
  exact if_pos h

/-- A listing is settled by one pass, which emits the encodings of its instructions in order. -/
theorem emits_listing {is : List Instr} {es : List Encoded}
    (h : is.map Instr.encode = es.map .ok) :
    (settled (Source.program (Instr.listing is))).Emits {} (es.flatMap Encoded.words) := by
  have hfirst : (first (Source.program (Instr.listing is))).Emits {}
      (es.flatMap Encoded.words) := by
    by_cases hne : is = []
    · -- the listing of no instruction is one blank line
      subst hne
      obtain rfl : es = [] := by simpa using h.symm
      have hstatements : Source.statements (Instr.listing []) = [.blank] := by decide +kernel
      have hprogram : Source.program (Instr.listing []) = [⟨1, .blank, false⟩] := by
        simp [Source.program, hstatements]
      rw [hprogram]
      exact ⟨rfl, by simp [first, run, runFrom, Layout.step, Layout.clash, Stmt.defines?,
        Stmt.emit], rfl⟩
    · refine emits_items h ?_ rfl
      rw [Source.program, Source.statements_listing hne, List.map_map]
      change List.map ((fun s => (s, false)) ∘ Prod.fst) _ = _
      rw [← List.map_map, List.zipIdx_map_fst, List.map_map]
      rfl
  have haddresses : (first (Source.program (Instr.listing is))).symbols.addresses = [] := by
    simp only [symbols, Symbols.addresses, hfirst.layout]
    rfl
  rw [settled_eq_first haddresses]
  exact hfirst

end Pass

/-! ## Linear decoding -/

/-- What is decoded one after the other from a cell on, as long as that is in front of a stop, and
    the cell at which this ends. -/
def Instr.sweep (read : Nat → Except Fault Cell) (stop a : Nat) :
    Except Fault (List Instr × Nat) :=
  if a < stop then do
    let (i, w) ← decode (← read a) (read (a + 1))
    let (is, b) ← sweep read stop (a + w.cells)
    return (i :: is, b)
  else return ([], a)
termination_by stop - a
decreasing_by cases w <;> simp only [Width.cells] <;> omega

/-- The cells of instructions that stand one behind the other are decoded to these instructions. -/
theorem Instr.sweep_eq {read : Nat → Except Fault Cell} {is : List Instr} {es : List Encoded}
    (h : is.map encode = es.map .ok) {a stop : Nat}
    (hstop : a + (es.flatMap Encoded.words).length = stop)
    (hread : ∀ n v, (es.flatMap Encoded.words)[n]? = some v → read (a + n) = .ok v) :
    sweep read stop a = .ok (is, stop) := by
  induction is generalizing es a with
  | nil =>
      obtain rfl : es = [] := by simpa using h.symm
      obtain rfl : a = stop := by simpa using hstop
      rw [sweep, if_neg (Nat.lt_irrefl a)]
      rfl
  | cons i is ih =>
      obtain ⟨e, es, rfl, hencode, hes⟩ := List.map_eq_cons_iff.1 h.symm
      rw [List.flatMap_cons] at hstop hread
      rw [List.length_append] at hstop
      obtain ⟨word, hword⟩ := e.exists_first_word
      have hpos : 0 < e.words.length := (List.getElem?_eq_some_iff.1 hword).1
      have hhead : ∀ n v, e.words[n]? = some v → read (a + n) = .ok v := by
        intro n v hv
        refine hread n v ?_
        rw [List.getElem?_append_left (List.getElem?_eq_some_iff.1 hv).1]
        exact hv
      have hdecode : decode word (read (a + 1)) = .ok (i, e.width) :=
        decode_of_encodesAs (Or.inl hencode.symm) hword fun v hv => hhead 1 v hv
      have hrest : sweep read stop (a + e.width.cells) = .ok (is, stop) := by
        rw [← Encoded.length_words]
        refine ih hes.symm (by omega) ?_
        intro n v hv
        rw [Nat.add_assoc]
        refine hread (e.words.length + n) v ?_
        rw [List.getElem?_append_right (Nat.le_add_right _ _), Nat.add_sub_cancel_left]
        exact hv
      rw [sweep, if_pos (by omega), show read a = .ok word from hhead 0 word hword]
      simp only [bind, Except.bind, hdecode, hrest]
      rfl

/-! ## Listings -/

namespace Object

/-- The value that an object file has for a cell. -/
def read (o : Object) (a : Nat) : Except Fault Cell :=
  match lastWrite? o.cells a with
  | some v => .ok v
  | none => .error (.outside a)

theorem foldl_extent_zipIdx (cells : List Cell) (n : Nat) :
    ((cells.zipIdx n).map fun (v, a) => (a, v)).foldl (fun n (a, _) => max n (a + 1)) n =
      n + cells.length := by
  induction cells generalizing n with
  | nil => rfl
  | cons v rest ih =>
      simp only [List.zipIdx_cons, List.map_cons, List.foldl_cons, List.length_cons]
      rw [Nat.max_eq_right (Nat.le_succ n), ih]
      omega

end Object

/-- A listing of instructions that can be encoded is assembled without a defect to their encodings,
    one behind the other from the first cell on. Decoded from there in turn, the cells give the
    listed instructions, up to the end of the program. -/
theorem assembleClean_listing {is : List Instr} (h : ∀ i ∈ is, ∃ e, i.encode = .ok e) :
    ∃ (o : Object) (es : List Encoded),
      assembleClean (Instr.listing is) = .ok o ∧ is.map Instr.encode = es.map .ok ∧
      o.writes = ((es.flatMap Encoded.words).zipIdx).map (fun (v, a) => (a, v)) ∧
      o.start = 0 ∧ o.extent = (es.flatMap Encoded.words).length ∧
      Instr.sweep o.read o.extent 0 = .ok (is, o.extent) := by
  obtain ⟨es, hes⟩ := Instr.exists_encodings h
  obtain ⟨hwrites, hstart, hfindings⟩ := (Pass.emits_listing hes).object
  have hclean : assembleClean (Instr.listing is) =
      .ok (Pass.settled (Source.program (Instr.listing is))).object := by
    refine assembleClean_of_findings_eq_nil ?_
    rw [assemble, hfindings]
  generalize (Pass.settled (Source.program (Instr.listing is))).object = o at *
  have hextent : o.extent = (es.flatMap Encoded.words).length := by
    rw [Object.extent, hwrites, Object.foldl_extent_zipIdx, Nat.zero_add]
  refine ⟨o, es, hclean, hes, hwrites, hstart, hextent, ?_⟩
  -- the writes go to one cell after the other, so each of them is the last one to its cell
  refine Instr.sweep_eq hes (by rw [hextent, Nat.zero_add]) ?_
  intro n v hv
  have hmem : (n, v) ∈ o.writes := by
    rw [hwrites]
    exact List.mem_map.2 ⟨(v, n), List.mk_mem_zipIdx_iff_getElem?.2 hv, rfl⟩
  have honce : (o.writes.map (·.1)).Nodup := by
    rw [hwrites, List.map_map]
    change (((es.flatMap Encoded.words).zipIdx).map Prod.snd).Nodup
    rw [List.zipIdx_map_snd]
    exact List.nodup_range'
  rw [Nat.zero_add, Object.read, Object.lastWrite?_cells, lastWrite?_eq_some_of_mem honce hmem]

/-- Packed and wide instructions, a negative operand among them, in all modes. -/
theorem assembleClean_listing_mixed_widths :
    ∃ o, assembleClean "CPA $12\nSTO [7]\nBRZ -1\nHLT" = .ok o ∧
      o.writes = [(0, 9210), (1, 12), (2, 9327), (3, 9080), (4, -1), (5, 0)] ∧
      Instr.sweep o.read 6 0 = .ok ([⟨.cpa, some ⟨.immediate, 12⟩⟩, ⟨.sto, some ⟨.indirect, 7⟩⟩,
        ⟨.brz, some ⟨.direct, -1⟩⟩, .halt], 6) := by
  have hencode : ∀ i ∈ ([⟨.cpa, some ⟨.immediate, 12⟩⟩, ⟨.sto, some ⟨.indirect, 7⟩⟩,
      ⟨.brz, some ⟨.direct, -1⟩⟩, .halt] : List Instr), ∃ e, i.encode = .ok e := by
    simpa using ⟨⟨_, rfl⟩, ⟨_, rfl⟩, ⟨_, rfl⟩, ⟨_, rfl⟩⟩
  obtain ⟨o, es, hclean, hes, hwrites, -, hextent, hsweep⟩ := assembleClean_listing hencode
  obtain rfl : es = [.wide 9210 12, .packed 9327, .wide 9080 (-1), .packed 0] :=
    (List.map_inj_right fun _ _ h => Except.ok.inj h).1 (hes.symm.trans rfl)
  rw [show o.extent = 6 from hextent] at hsweep
  exact ⟨o, hclean, hwrites, hsweep⟩

end DecimalMachine
