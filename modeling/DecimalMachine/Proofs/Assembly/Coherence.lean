import DecimalMachine.Proofs.Assembly.Findings

set_option autoImplicit false

/-! # The tables of symbols agree

A label is recorded when its statement is walked, a line with the entry that the walk leaves, and a
label that is defined again replaces what was recorded of it. In the settled pass the two records
come from one entry: a label has the cell and the number of the last line that defines it
(`labels_settled`), and that line is found at the same cell.

Read backwards, both tables are searched for the first hit in an ordered list, of the labels as
they ascend and of the lines as they descend. So the hit is the least label and the last line of a
cell (`Symbols.labelAt?_eq_some_iff`, `Symbols.lineAt?_eq_some_iff`). -/

namespace DecimalMachine

namespace Symbols

/-! ## First hits -/

/-- In an ordered list the first hit is the one that no other stands before. -/
theorem find?_eq_some_iff_of_pairwise {β : Type} {r : β → β → Prop}
    (hr : ∀ x y, r x y → ¬ r y x) {l : List β} (hl : l.Pairwise r) {p : β → Bool} {x : β} :
    l.find? p = some x ↔ (x ∈ l ∧ p x = true) ∧ ∀ y ∈ l, p y = true → ¬ r y x := by
  rw [List.find?_eq_some_iff_append]
  constructor
  · rintro ⟨hx, before, rest, rfl, hbefore⟩
    refine ⟨⟨by simp, hx⟩, fun y hy hpy => ?_⟩
    rcases List.mem_append.1 hy with hy | hy
    · exact absurd hpy (by simpa using hbefore y hy)
    · rcases List.mem_cons.1 hy with rfl | hy
      · exact fun h => hr _ _ h h
      · exact hr _ _ (List.rel_of_pairwise_cons (List.pairwise_append.1 hl).2.1 hy)
  · rintro ⟨⟨hmem, hx⟩, hfirst⟩
    obtain ⟨before, rest, rfl⟩ := List.append_of_mem hmem
    refine ⟨hx, before, rest, rfl, fun y hy => ?_⟩
    have hyx : r y x := (List.pairwise_append.1 hl).2.2 y hy x List.mem_cons_self
    have hpy : p y ≠ true := fun hpy => hfirst y (by simp [hy]) hpy hyx
    simpa using hpy

/-! ## Labels read backwards -/

section Labels

variable {s : Symbols} {a : Nat} {name : String}

theorem ordered_toList_labels (s : Symbols) :
    s.labels.toList.Pairwise fun x y => x.1 < y.1 := by
  have h := s.labels.ordered_keys_toList
  exact h.imp fun hlt => compareOfLessAndEq_eq_lt.1 hlt

/-- The listed addresses are decided by the look-ups. -/
theorem addresses_eq_iff {t : Symbols} : s.addresses = t.addresses ↔ s.address? = t.address? := by
  refine ⟨address?_eq_of_addresses_eq, fun h => ?_⟩
  have hordered : ∀ u : Symbols, u.addresses.Pairwise fun x y => x.1 < y.1 := fun u =>
    List.pairwise_map.2 u.ordered_toList_labels
  have hnodup : ∀ u : Symbols, u.addresses.Nodup := by
    intro u
    refine (hordered u).imp ?_
    rintro x _ hlt rfl
    exact String.lt_irrefl _ hlt
  have hperm : s.addresses.Perm t.addresses := by
    refine (List.perm_ext_iff_of_nodup (hnodup s) (hnodup t)).2 fun x => ?_
    rw [mem_addresses, mem_addresses, h]
  exact hperm.eq_of_pairwise (fun x y _ _ hxy hyx => absurd hyx (String.lt_asymm hxy))
    (hordered s) (hordered t)

theorem address?_eq_some_iff :
    s.address? name = some a ↔ ∃ b, (name, b) ∈ s.labels.toList ∧ b.address = a := by
  rw [address?, Option.map_eq_some_iff]
  exact exists_congr fun b => and_congr_left' Std.TreeMap.mem_toList_iff_getElem?_eq_some.symm

/-- The label of a cell is the least of those that name it. -/
theorem labelAt?_eq_some_iff :
    s.labelAt? a = some name ↔
      s.address? name = some a ∧ ∀ other, s.address? other = some a → name ≤ other := by
  have hfind := fun b => find?_eq_some_iff_of_pairwise (fun _ _ => String.lt_asymm)
    s.ordered_toList_labels (p := fun x => x.2.address == a) (x := (name, b))
  simp only [labelAt?, Option.map_eq_some_iff, address?_eq_some_iff]
  constructor
  · rintro ⟨⟨_, b⟩, hb, rfl⟩
    obtain ⟨⟨hmem, haddress⟩, hleast⟩ := (hfind b).1 hb
    refine ⟨⟨b, hmem, by simpa using haddress⟩, ?_⟩
    rintro other ⟨b', hmem', rfl⟩
    exact hleast (other, b') hmem' (by simp)
  · rintro ⟨⟨b, hmem, rfl⟩, hleast⟩
    refine ⟨(name, b), (hfind b).2 ⟨⟨hmem, by simp⟩, ?_⟩, rfl⟩
    rintro ⟨other, b'⟩ hmem' haddress
    exact hleast other ⟨b', hmem', by simpa using haddress⟩

theorem labelAt?_eq_none_iff : s.labelAt? a = none ↔ ∀ name, s.address? name ≠ some a := by
  simp only [labelAt?, Option.map_eq_none_iff, List.find?_eq_none, beq_iff_eq, ne_eq,
    address?_eq_some_iff, not_exists, not_and, Prod.forall]

end Labels

/-! ## Lines read backwards -/

section Lines

variable {s : Symbols} (hs : s.lines.Pairwise fun x y => x.1 < y.1) {a line : Nat}

include hs

theorem lineAddress?_eq_some_iff : s.lineAddress? line = some a ↔ (line, a) ∈ s.lines := by
  rw [lineAddress?, List.lookup_eq_some_iff]
  constructor
  · rintro ⟨before, rest, hlines, -⟩
    simp [hlines]
  · intro hmem
    obtain ⟨before, rest, hlines⟩ := List.append_of_mem hmem
    refine ⟨before, rest, hlines, fun x hx => bne_iff_ne.2 ?_⟩
    rw [hlines] at hs
    exact Nat.ne_of_gt ((List.pairwise_append.1 hs).2.2 x hx (line, a) List.mem_cons_self)

/-- The line of a cell is the last of those that were assembled to it. -/
theorem lineAt?_eq_some_iff :
    s.lineAt? a = some line ↔
      s.lineAddress? line = some a ∧ ∀ other, s.lineAddress? other = some a → other ≤ line := by
  have hfind := fun a' => find?_eq_some_iff_of_pairwise (fun _ _ => Nat.lt_asymm)
    (List.pairwise_reverse.2 hs) (p := fun x => x.2 == a) (x := (line, a'))
  simp only [lineAt?, Option.map_eq_some_iff, lineAddress?_eq_some_iff hs]
  constructor
  · rintro ⟨⟨_, a'⟩, hb, rfl⟩
    obtain ⟨⟨hmem, haddress⟩, hlast⟩ := (hfind a').1 hb
    obtain rfl : a' = a := by simpa using haddress
    refine ⟨List.mem_reverse.1 hmem, fun other hother => ?_⟩
    exact Nat.not_lt.1 (hlast (other, a') (List.mem_reverse.2 hother) (by simp))
  · rintro ⟨hmem, hlast⟩
    refine ⟨(line, a), (hfind a).2 ⟨⟨List.mem_reverse.2 hmem, by simp⟩, ?_⟩, rfl⟩
    rintro ⟨other, a'⟩ hmem' haddress
    obtain rfl : a' = a := by simpa using haddress
    exact Nat.not_lt.2 (hlast other (List.mem_reverse.1 hmem'))

theorem lineAt?_eq_none_iff : s.lineAt? a = none ↔ ∀ line, s.lineAddress? line ≠ some a := by
  simp only [lineAt?, Option.map_eq_none_iff, List.find?_eq_none, beq_iff_eq, ne_eq,
    lineAddress?_eq_some_iff hs, List.mem_reverse, Prod.forall]
  exact ⟨fun h line hmem => h line a hmem rfl, by rintro h line _ hmem rfl; exact h line hmem⟩

end Lines

end Symbols

/-! ## The symbols of a text -/

namespace Pass

theorem lines_symbols (p : Pass) : p.symbols.lines = p.entries.filterMap Entry.mapping? := by
  rfl

/-- The table of labels has of a label what the last entry that binds it has left. -/
theorem labels_eq_some_iff {p : Pass} {before : Lookup} {lines : List Line}
    (hrun : p = run before lines) {name : String} {b : Binding} :
    p.symbols.labels[name]? = some b ↔
      ∃ n : Nat, (p.entries[n]?.bind (·.binding? name)) = some b ∧
        ∀ i : Nat, n < i → (p.entries[i]?.bind (·.binding? name)) = none := by
  have hlabels : p.symbols.labels = (Layout.walk before {} (lines.take lines.length)).labels := by
    rw [List.take_length, ← layout_runFrom, hrun]
    rfl
  have hbeyond : ∀ i, lines.length ≤ i → (p.entries[i]?.bind (·.binding? name)) = none := by
    intro i hi
    rw [hrun, run, getElem?_entries_runFrom, List.getElem?_eq_none hi]
    rfl
  have hentries : p.entries = (runFrom before {} lines).entries := congrArg entries hrun
  rw [hlabels, labels_walk_take _ _ _ _ _ _ rfl, ← hentries]
  constructor
  · rintro ⟨n, -, hb, hafter⟩
    exact ⟨n, hb, fun i hi => (Nat.lt_or_ge i lines.length).elim (hafter i hi) (hbeyond i)⟩
  · rintro ⟨n, hb, hafter⟩
    refine ⟨n, Nat.lt_of_not_le fun hn => ?_, hb, fun i hi _ => hafter i hi⟩
    exact absurd ((hbeyond n hn).symm.trans hb) (by simp)

end Pass

namespace Source

/-- A line defines a label, and no line after it does. -/
structure LastDefines (source name : String) (line : Nat) : Prop where
  defines : defines? source line = some name
  not_after : ∀ i, line < i → defines? source i ≠ some name

/-- The symbols of a text are those of its settled pass. -/
theorem symbols_assemble (source : String) :
    (assemble source).object.symbols = (Pass.settled (program source)).symbols := by
  rfl

/-- The lines in the symbols of a text ascend. -/
theorem ascending_lines (source : String) :
    (assemble source).object.symbols.lines.Pairwise fun x y => x.1 < y.1 := by
  rw [symbols_assemble, Pass.lines_symbols]
  refine List.pairwise_filterMap.2 ((ascending_entries source).imp fun hlt x hx y hy => ?_)
  rwa [Entry.number_of_mapping? hx, Entry.number_of_mapping? hy]

/-- What the entry of a line leaves in the table of labels. -/
theorem binding?_settled (source name : String) (n : Nat) :
    ((Pass.settled (program source)).entries[n]?.bind (·.binding? name)) =
      if defines? source (n + 1) = some name then
        ((Pass.settled (program source)).symbols.lineAddress? (n + 1)).map (⟨·, n + 1⟩)
      else none := by
  have hbinds := binds?_settled source name n
  cases he : (Pass.settled (program source)).entries[n]? with
  | none =>
      rw [he] at hbinds
      split
      · rename_i hd
        rw [if_pos hd] at hbinds
        rw [← hbinds]
        rfl
      · rfl
  | some e =>
      rw [he, Option.bind_some] at hbinds
      rw [Option.bind_some, Entry.binding?, hbinds, (defects_settled he).1]
      split <;> rfl

theorem binding?_settled_eq_none_iff {source name : String} {n : Nat} :
    ((Pass.settled (program source)).entries[n]?.bind (·.binding? name)) = none ↔
      defines? source (n + 1) ≠ some name := by
  rw [binding?_settled]
  by_cases hd : defines? source (n + 1) = some name
  · simp [hd, Option.isSome_iff_ne_none.1 (isSome_lineAddress?_of_defines? hd)]
  · simp [hd]

/-- The table of labels has the last line that defines a label, with the cell that this line is
    found at. -/
theorem labels_settled {source name : String} {b : Binding} :
    (assemble source).object.symbols.labels[name]? = some b ↔
      LastDefines source name b.line ∧
        (assemble source).object.symbols.lineAddress? b.line = some b.address := by
  obtain ⟨lines, hrun, -⟩ := exists_settled_eq_run source
  rw [symbols_assemble, Pass.labels_eq_some_iff hrun]
  simp only [binding?_settled_eq_none_iff]
  constructor
  · rintro ⟨n, hb, hafter⟩
    rw [binding?_settled, Option.ite_none_right_eq_some, Option.map_eq_some_iff] at hb
    obtain ⟨hd, a, ha, rfl⟩ := hb
    refine ⟨⟨hd, fun i hi => ?_⟩, ha⟩
    obtain ⟨i, rfl⟩ := Nat.exists_eq_add_one_of_ne_zero (Nat.ne_zero_of_lt hi)
    exact hafter i (Nat.lt_of_succ_lt_succ hi)
  · obtain ⟨a, line⟩ := b
    rintro ⟨⟨hd, hafter⟩, ha⟩
    obtain ⟨n, rfl⟩ := exists_eq_succ_of_defines? hd
    refine ⟨n, ?_, fun i hi => hafter (i + 1) (Nat.succ_lt_succ hi)⟩
    rw [binding?_settled, if_pos hd]
    exact Option.map_eq_some_iff.2 ⟨a, ha, rfl⟩

/-- The labels of a text are the names that some line defines. -/
theorem mem_labels_iff {source name : String} :
    name ∈ (assemble source).object.symbols.labels ↔
      ∃ line, defines? source line = some name := by
  have hany : name ∈ (assemble source).object.symbols.labels ↔
      ∃ s ∈ statements source, s.defines? = some name := by
    have h := isSome_address?_settled source name
    rw [Symbols.address?, Option.isSome_map] at h
    rw [symbols_assemble, Std.TreeMap.mem_iff_isSome_getElem?, h]
    simp
  rw [hany]
  constructor
  · rintro ⟨s, hmem, hd⟩
    obtain ⟨n, hn⟩ := List.getElem?_of_mem hmem
    exact ⟨n + 1, Option.bind_eq_some_iff.2 ⟨s, hn, hd⟩⟩
  · rintro ⟨line, h⟩
    obtain ⟨s, hs, hd⟩ := Option.bind_eq_some_iff.1 h
    obtain ⟨n, rfl⟩ := exists_eq_succ_of_defines? h
    exact ⟨s, List.mem_of_getElem? hs, hd⟩

end Source

/-- The tables of the symbols of a text agree. The labels are the names that some line defines, each
    with the last line that defines it and the cell that this line is found at; a cell has the least
    of the labels that name it and the last of the lines assembled to it, or none if there is
    none. -/
structure Symbols.Coherent (t : Symbols) (source : String) : Prop where
  labels : ∀ name, name ∈ t.labels ↔ ∃ line, Source.defines? source line = some name
  definitions : ∀ name ∈ t.labels, ∃ line a, Source.LastDefines source name line ∧
    t.definition? name = some line ∧ t.address? name = some a ∧ t.lineAddress? line = some a
  labelAt : ∀ a name, t.labelAt? a = some name ↔
    t.address? name = some a ∧ ∀ other, t.address? other = some a → name ≤ other
  noLabelAt : ∀ a, t.labelAt? a = none ↔ ∀ name, t.address? name ≠ some a
  lineAt : ∀ a line, t.lineAt? a = some line ↔
    t.lineAddress? line = some a ∧ ∀ other, t.lineAddress? other = some a → other ≤ line
  noLineAt : ∀ a, t.lineAt? a = none ↔ ∀ line, t.lineAddress? line ≠ some a

/-- The tables of every text agree, whatever is wrong with it. -/
theorem symbols_coherent (source : String) :
    (assemble source).object.symbols.Coherent source := by
  have hlines := Source.ascending_lines source
  refine ⟨fun _ => Source.mem_labels_iff, fun name hmem => ?_,
    fun _ _ => Symbols.labelAt?_eq_some_iff, fun _ => Symbols.labelAt?_eq_none_iff,
    fun _ _ => Symbols.lineAt?_eq_some_iff hlines, fun _ => Symbols.lineAt?_eq_none_iff hlines⟩
  obtain ⟨⟨a, line⟩, hb⟩ :=
    Option.isSome_iff_exists.1 (Std.TreeMap.mem_iff_isSome_getElem?.1 hmem)
  obtain ⟨hlast, ha⟩ := Source.labels_settled.1 hb
  refine ⟨line, a, hlast, ?_, ?_, ha⟩
  · rw [Symbols.definition?, hb]
    rfl
  · rw [Symbols.address?, hb]
    rfl

end DecimalMachine
