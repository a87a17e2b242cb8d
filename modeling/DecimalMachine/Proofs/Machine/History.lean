import DecimalMachine.Proofs.Machine.Changes
import Mathlib.Data.List.Induction

set_option autoImplicit false

/-! # The history of a cell

A memory that is cut and made longer again has cells at addresses where it had others before, and
nothing of what those held may show. What a cell holds is therefore told here from the requests
that memory has served, without a look at memory itself: a cell last came into existence at the
last resize that went past its address, with the value that the filler of that resize gave for it
(`Memory.Born`), and of the writes to it since then the last one counts, if there is any. A memory
starts as a resize of the empty one, so its first cells are no special case
(`Memory.create_eq_resize`).

A cell keeps its value, or takes the one written to it, as long as no resize cuts it off
(`Memory.getElem?_serve`); the rest is induction on the requests. -/

namespace DecimalMachine

/-! ## The values of a filler -/

namespace Filler

variable {σ : Type} [Filler σ]

/-- A filler that has been called some times. -/
def after (s : σ) : Nat → σ
  | 0 => s
  | n + 1 => after (next s).2 n

/-- The value that a filler gives after it has been called some times. -/
def value (s : σ) (n : Nat) : Cell :=
  (next (after s n)).1

end Filler

namespace Memory

variable {m : Memory} {a : Nat}

section Resize

variable {σ : Type} [Filler σ] {s : σ} {n : Nat}

/-- The filler is called once for each new cell, in the order of their addresses. -/
theorem getElem?_extend {i : Nat} (h : i < n) :
    (m.extend n s).1.cells[m.size + i]? = some (Filler.value s i) := by
  induction n generalizing m s i with
  | zero => exact absurd h (Nat.not_lt_zero i)
  | succ n ih =>
      rw [extend]
      cases i with
      | zero =>
          have hnew : m.size < (⟨m.cells.push (Filler.next s).1⟩ : Memory).size := by
            simp [size]
          exact (getElem?_extend_of_lt hnew n _).trans Array.getElem?_push_size
      | succ i =>
          have hsize : m.size + (i + 1) = (⟨m.cells.push (Filler.next s).1⟩ : Memory).size + i := by
            simp only [size, Array.size_push]
            omega
          rw [hsize, ih (Nat.lt_of_succ_lt_succ h)]
          rfl

theorem extend_snd (m : Memory) (n : Nat) (s : σ) : (m.extend n s).2 = Filler.after s n := by
  induction n generalizing m s with
  | zero => rfl
  | succ n ih => exact ih _ _

theorem resize_snd (m : Memory) (n : Nat) (s : σ) :
    (m.resize n s).2 = Filler.after s (n - m.size) :=
  extend_snd _ _ _

theorem getElem?_resize_of_ge (h : m.size ≤ a) (hn : a < n) :
    (m.resize n s).1.cells[a]? = some (Filler.value s (a - m.size)) := by
  have hcut : (⟨m.cells.extract 0 n⟩ : Memory).size = m.size := by
    simp only [size, Array.size_extract] at h ⊢
    omega
  have hnew := getElem?_extend (m := ⟨m.cells.extract 0 n⟩) (s := s)
    (show a - m.size < n - m.size by omega)
  rwa [hcut, Nat.add_sub_cancel' h] at hnew

/-- A memory starts as the empty one, made longer. -/
theorem create_eq_resize (n : Nat) (s : σ) : create n s = empty.resize n s := by
  simp [create, resize, empty, size]

end Resize

/-! ## Accesses in place -/

/-- The memory that an access leaves, which fails by leaving it as it is, with its answer. -/
def orUnchanged {ε α : Type} (m : Memory) : Except ε (Memory × α) → Memory × Except ε α
  | .ok (m', x) => (m', .ok x)
  | .error e => (m, .error e)

/-- Writing in place: first the cell is looked up, which can fail, and then it is set. -/
def writeInPlace (m : Memory) (a : Nat) (v : Cell) : Memory × Except Fault Bool :=
  match m.cells[a]? with
  | none => (m, .error (.outside a))
  | some old => (⟨m.cells.setIfInBounds a v⟩, .ok (old != v))

/-- Setting a cell in place at an address that is to be right. -/
def assignInPlace (m : Memory) (a : Nat) (v : Cell) : Memory × Except BoundsError Unit :=
  match m.get a with
  | .error e => (m, .error e)
  | .ok _ => (⟨m.cells.setIfInBounds a v⟩, .ok ())

theorem store_eq (h : a < m.size) (v : Cell) :
    m.store a v = (⟨m.cells.setIfInBounds a v⟩, m.cells[a]? != some v) := by
  have hlt : a < m.cells.size := h
  simp [store, hlt, Array.setIfInBounds, bne]

theorem store_of_ge (h : m.size ≤ a) (v : Cell) : m.store a v = (m, false) :=
  dif_neg (Nat.not_lt.2 h)

section Access

variable (v : Cell)

theorem writeInPlace_of_lt (h : a < m.size) :
    m.writeInPlace a v = (⟨m.cells.setIfInBounds a v⟩, .ok (m.cells[a]? != some v)) := by
  have hlt : a < m.cells.size := h
  simp [writeInPlace, hlt, bne]

theorem writeInPlace_of_ge (h : m.size ≤ a) : m.writeInPlace a v = (m, .error (.outside a)) := by
  have hcell : m.cells[a]? = none := Array.getElem?_eq_none h
  simp [writeInPlace, hcell]

theorem assignInPlace_of_lt (h : a < m.size) :
    m.assignInPlace a v = (⟨m.cells.setIfInBounds a v⟩, .ok ()) := by
  have hlt : a < m.cells.size := h
  simp [assignInPlace, get, hlt]

theorem assignInPlace_of_ge (h : m.size ≤ a) :
    m.assignInPlace a v = (m, .error ⟨m.size, a⟩) := by
  have hcell : m.cells[a]? = none := Array.getElem?_eq_none h
  simp [assignInPlace, get, hcell]

theorem writeInPlace_eq (m : Memory) (a : Nat) (v : Cell) :
    m.writeInPlace a v = m.orUnchanged (m.write a v) := by
  unfold write
  split
  · rename_i h
    rw [writeInPlace_of_lt v h, store_eq h]
    rfl
  · rename_i h
    exact writeInPlace_of_ge v (Nat.le_of_not_lt h)

theorem assignInPlace_eq (m : Memory) (a : Nat) (v : Cell) :
    m.assignInPlace a v = m.orUnchanged ((m.set a v).map fun m' => (m', ())) := by
  unfold set
  split
  · rename_i h
    rw [assignInPlace_of_lt v h, store_eq h]
    rfl
  · rename_i h
    exact assignInPlace_of_ge v (Nat.le_of_not_lt h)

end Access

/-! ## Requests -/

/-- Something asked of a memory. Each resize brings the filler for its new cells. -/
inductive Request : Type 1
  | write (a : Nat) (v : Cell)
  | assign (a : Nat) (v : Cell)
  | resize {σ : Type} [Filler σ] (n : Nat) (s : σ)

namespace Request

/-- The size of a memory after a request, from its size before it. -/
def resized (n : Nat) : Request → Nat
  | resize n' _ => n'
  | _ => n

/-- The size of a memory after some requests: that of the last resize. -/
def resizedAll (n : Nat) (rs : List Request) : Nat :=
  rs.foldl resized n

/-- The cell that a request tries to write, and the value. -/
def write? : Request → Option (Nat × Cell)
  | write a v => some (a, v)
  | assign a v => some (a, v)
  | resize _ _ => none

/-- A cell of a memory of `n` cells is there all along some requests. -/
def Keep (n : Nat) (rs : List Request) (a : Nat) : Prop :=
  ∀ part, part <+: rs → a < resizedAll n part

variable {n : Nat} {rs : List Request} {r : Request} {a : Nat}

theorem resizedAll_append (n : Nat) (rs rs' : List Request) :
    resizedAll n (rs ++ rs') = resizedAll (resizedAll n rs) rs' :=
  List.foldl_append

theorem Keep.lt (h : Keep n rs a) : a < n :=
  h [] List.nil_prefix

theorem Keep.tail (h : Keep n (r :: rs) a) : Keep (r.resized n) rs a := by
  intro part hpart
  exact h (r :: part) ((List.prefix_cons_inj r).2 hpart)

theorem Keep.snoc (h : Keep n rs a) (hlast : a < resizedAll n (rs ++ [r])) :
    Keep n (rs ++ [r]) a := by
  intro part hpart
  rcases List.prefix_concat_iff.1 hpart with rfl | hpart
  · exact hlast
  · exact h part hpart

end Request

/-- The memory after a request, also after one that fails. -/
def serve (m : Memory) : Request → Memory
  | .write a v => (m.writeInPlace a v).1
  | .assign a v => (m.assignInPlace a v).1
  | @Request.resize _ _ n s => (m.resize n s).1

/-- The memory after some requests. -/
def serveAll (m : Memory) (rs : List Request) : Memory :=
  rs.foldl serve m

variable {v : Cell}

/-- A write in place comes to a store, which does nothing outside of memory. -/
theorem writeInPlace_fst (m : Memory) (a : Nat) (v : Cell) :
    (m.writeInPlace a v).1 = (m.store a v).1 := by
  rcases Nat.lt_or_ge a m.size with h | h
  · rw [writeInPlace_of_lt v h, store_eq h]
  · rw [writeInPlace_of_ge v h, store_of_ge h]

theorem assignInPlace_fst (m : Memory) (a : Nat) (v : Cell) :
    (m.assignInPlace a v).1 = (m.store a v).1 := by
  rcases Nat.lt_or_ge a m.size with h | h
  · rw [assignInPlace_of_lt v h, store_eq h]
  · rw [assignInPlace_of_ge v h, store_of_ge h]

theorem size_serve (m : Memory) (r : Request) : (m.serve r).size = r.resized m.size := by
  cases r with
  | write a v => exact (congrArg size (writeInPlace_fst m a v)).trans (size_store m a v)
  | assign a v => exact (congrArg size (assignInPlace_fst m a v)).trans (size_store m a v)
  | resize n s => exact size_resize m n s

theorem size_serveAll (m : Memory) (rs : List Request) :
    (m.serveAll rs).size = Request.resizedAll m.size rs := by
  induction rs generalizing m with
  | nil => rfl
  | cons r rest ih =>
      have hrest := ih (m.serve r)
      rwa [size_serve] at hrest

/-- A cell that no request cuts off has the value written to it, or else the one from before. -/
theorem getElem?_serve {r : Request} (hv : m.cells[a]? = some v) (h : a < r.resized m.size) :
    (m.serve r).cells[a]? = some ((lastWrite? r.write?.toList a).getD v) := by
  have hstore : ∀ b u, (m.store b u).1.cells[a]? = some ((lastWrite? [(b, u)] a).getD v) := by
    intro b u
    rw [getElem?_store, hv, lastWrite?_cons]
    by_cases hab : a = b <;> simp [hab]
  cases r with
  | write b u => exact (congrArg (·.cells[a]?) (writeInPlace_fst m b u)).trans (hstore b u)
  | assign b u => exact (congrArg (·.cells[a]?) (assignInPlace_fst m b u)).trans (hstore b u)
  | resize n s =>
      have hlt : a < m.size := (Array.getElem?_eq_some_iff.1 hv).1
      exact (getElem?_resize_of_lt hlt h s).trans hv

/-- A cell that is there all along has the value that was written to it last, or else the one from
    the beginning. -/
theorem getElem?_serveAll {rs : List Request} (hkeep : Request.Keep m.size rs a)
    (hv : m.cells[a]? = some v) :
    (m.serveAll rs).cells[a]? = some ((lastWrite? (rs.filterMap Request.write?) a).getD v) := by
  induction rs generalizing m v with
  | nil => exact hv
  | cons r rest ih =>
      have hrest := hkeep.tail
      have hstep := getElem?_serve hv hrest.lt
      have hlast : lastWrite? ((r :: rest).filterMap Request.write?) a =
          (lastWrite? (rest.filterMap Request.write?) a).or (lastWrite? r.write?.toList a) := by
        cases hw : r.write? with
        | none => simp [hw]
        | some w =>
            obtain ⟨b, u⟩ := w
            simp [hw, lastWrite?_cons]
      rw [← size_serve] at hrest
      exact (ih hrest hstep).trans (by rw [hlast, Option.getD_or])

/-! ## Cells that come into existence -/

/-- A cell came into existence, for the last time in a history that starts with the empty memory,
    with a value; `later` is what has been requested since. -/
inductive Born : List Request → Nat → Cell → List Request → Prop
  | intro {σ : Type} [Filler σ] {a : Nat} (earlier : List Request) (n : Nat) (s : σ)
      (later : List Request) (hnew : Request.resizedAll 0 earlier ≤ a)
      (hkept : Request.Keep n later a) :
      Born (earlier ++ .resize n s :: later) a
        (Filler.value s (a - Request.resizedAll 0 earlier)) later

variable {history later : List Request} {r : Request}

theorem Born.lt (h : Born history a v later) : a < Request.resizedAll 0 history := by
  obtain ⟨earlier, n, s, later, -, hkept⟩ := h
  rw [Request.resizedAll_append]
  exact hkept later (List.prefix_refl later)

theorem Born.snoc (h : Born history a v later) (hlt : a < Request.resizedAll 0 (history ++ [r])) :
    Born (history ++ [r]) a v (later ++ [r]) := by
  obtain ⟨earlier, n, s, later, hnew, hkept⟩ := h
  rw [List.append_assoc, List.cons_append] at hlt ⊢
  refine .intro earlier n s (later ++ [r]) hnew (hkept.snoc ?_)
  rwa [Request.resizedAll_append] at hlt

/-- Every cell has come into existence at some time. -/
theorem exists_born {history : List Request} (h : a < Request.resizedAll 0 history) :
    ∃ v later, Born history a v later := by
  induction history using List.reverseRecOn with
  | nil => exact absurd h (Nat.not_lt_zero a)
  | append_singleton history r ih =>
      by_cases hold : a < Request.resizedAll 0 history
      · obtain ⟨v, later, hborn⟩ := ih hold
        exact ⟨v, _, hborn.snoc h⟩
      · -- the last request has made the cell, so it can be no write
        rw [Request.resizedAll_append] at h
        cases r with
        | write b u => exact absurd h hold
        | assign b u => exact absurd h hold
        | resize n s =>
            refine ⟨_, [], .intro history n s [] (Nat.le_of_not_lt hold) ?_⟩
            intro part hpart
            obtain rfl := List.prefix_nil.1 hpart
            exact h

/-- A cell holds what was last written to it since it came into existence, or else the value that it
    came with. -/
theorem getElem?_serveAll_of_born (h : Born history a v later) :
    (empty.serveAll history).cells[a]? =
      some ((lastWrite? (later.filterMap Request.write?) a).getD v) := by
  obtain ⟨earlier, n, s, later, hnew, hkept⟩ := h
  have hsize : (empty.serveAll earlier).size = Request.resizedAll 0 earlier :=
    size_serveAll empty earlier
  have hserve : empty.serveAll (earlier ++ .resize n s :: later) =
      ((empty.serveAll earlier).resize n s).1.serveAll later := by
    rw [serveAll, List.foldl_append]
    rfl
  have hfresh := getElem?_resize_of_ge (s := s) (hsize ▸ hnew) hkept.lt
  rw [hsize] at hfresh
  rw [hserve]
  refine getElem?_serveAll ?_ hfresh
  rw [size_resize]
  exact hkept

/-! ## Answers -/

/-- How a memory serves a request, whatever it has served before. An access within memory succeeds,
    and a write tells whether it changed its cell; outside of memory it fails and leaves all as it
    was. A resize calls its filler once for each cell that is new, in the order of their
    addresses. -/
structure Answers (m : Memory) : Prop where
  write_inPlace : ∀ a v, m.writeInPlace a v = m.orUnchanged (m.write a v)
  write_of_lt : ∀ a v, a < m.size →
    ∃ changed, (m.writeInPlace a v).2 = .ok changed ∧ (changed = true ↔ m.cells[a]? ≠ some v)
  write_of_ge : ∀ a v, m.size ≤ a → m.writeInPlace a v = (m, .error (.outside a))
  assign_inPlace : ∀ a v,
    m.assignInPlace a v = m.orUnchanged ((m.set a v).map fun m' => (m', ()))
  assign_of_lt : ∀ a v, a < m.size → (m.assignInPlace a v).2 = .ok ()
  assign_of_ge : ∀ a v, m.size ≤ a → m.assignInPlace a v = (m, .error ⟨m.size, a⟩)
  filler : ∀ {σ : Type} [Filler σ] (n : Nat) (s : σ),
    (m.resize n s).2 = Filler.after s (n - m.size)
  fresh : ∀ {σ : Type} [Filler σ] (n : Nat) (s : σ) (i : Nat), i < n - m.size →
    (m.resize n s).1.cells[m.size + i]? = some (Filler.value s i)

theorem answers (m : Memory) : m.Answers where
  write_inPlace := m.writeInPlace_eq
  write_of_lt a v h := by
    rw [writeInPlace_of_lt v h]
    exact ⟨_, rfl, bne_iff_ne⟩
  write_of_ge a v h := writeInPlace_of_ge v h
  assign_inPlace := m.assignInPlace_eq
  assign_of_lt a v h := by rw [assignInPlace_of_lt v h]
  assign_of_ge a v h := assignInPlace_of_ge v h
  filler n s := resize_snd m n s
  fresh n s i h := by
    have hfresh := getElem?_resize_of_ge (m := m) (s := s) (Nat.le_add_right m.size i)
      (show m.size + i < n by omega)
    rwa [Nat.add_sub_cancel_left] at hfresh

/-- What a memory holds after any requests: its cells are those that have come into existence and
    were not cut off since, and each holds the value last written to it since then, or else the one
    that a filler gave for it. Nothing of an older cell at its address is left. -/
theorem holds_last_written {σ : Type} [Filler σ] (capacity : Nat) (s : σ) (rs : List Request) :
    let m := (create capacity s).1.serveAll rs
    let history := .resize capacity s :: rs
    (∀ a, a < m.size ↔ ∃ v later, Born history a v later) ∧
      (∀ a v later, Born history a v later →
        m.cells[a]? = some ((lastWrite? (later.filterMap Request.write?) a).getD v)) ∧
      m.Answers := by
  intro m history
  have hm : m = empty.serveAll history :=
    congrArg (·.1.serveAll rs) (create_eq_resize capacity s)
  have hsize : m.size = Request.resizedAll 0 history := hm ▸ size_serveAll empty history
  refine ⟨fun a => ?_, fun a v later h => hm ▸ getElem?_serveAll_of_born h, m.answers⟩
  rw [hsize]
  exact ⟨exists_born, fun ⟨_, _, h⟩ => h.lt⟩

/-- Cell 1 is written, cut off, written in vain and made again by a filler that counts from 10 on:
    the 10 is what it holds. -/
theorem holds_last_written_made_again :
    let rs : List Request := [.write 1 5, .resize 1 (0 : Cell), .write 1 6,
      .resize 3 (⟨10, 1⟩ : Progression), .assign 2 8]
    ((create 2 (7 : Cell)).1.serveAll rs).cells[1]? = some 10 := by
  intro rs
  obtain ⟨-, hvalue, -⟩ := holds_last_written 2 (7 : Cell) rs
  refine hvalue 1 10 [.assign 2 8] (.intro [_, _, _, _] 3 (⟨10, 1⟩ : Progression) _ ?_ ?_)
  · decide
  · intro part hpart
    rcases List.prefix_cons_iff.1 hpart with rfl | ⟨_, rfl, hnil⟩
    · decide
    · obtain rfl := List.prefix_nil.1 hnil
      decide

end Memory

end DecimalMachine
