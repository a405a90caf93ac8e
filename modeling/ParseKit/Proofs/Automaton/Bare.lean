import ParseKit.Proofs.Automaton.Binary
import ParseKit.Proofs.Automaton.Walk
import ParseKit.Text.Location
import ParseKit.Violation

/-!
# Look-ups that can miss

The look-ups of a bare table, whose blocks nobody has checked: cells and states are plain numbers,
a read fails where the table has no such entry, and a sum fails where no word holds it. However
the bytes of an automaton were made, none of this fails on the table that they hold:
`Automaton.decode_never_misses`.
-/

namespace ParseKit

namespace Bare

def word (n : Nat) : Except Violation Nat := inBounds (word? n)

def cell (t : CellTable) (i : Nat) : Except Violation UInt16 := do
  inBounds t.cells[← word i]?

/-- Where the block of a state starts. -/
def start (t : CellTable) (state : Nat) : Except Violation Nat :=
  (inBounds t.offsets[state]?).map UInt32.toNat

def terminal (t : CellTable) (start : Nat) : Except Violation (Option UInt16) :=
  (cell t start).map fun c => if c = noTerminal then none else some c

def isDeadEnd (t : CellTable) (start : Nat) : Except Violation Bool :=
  (cell t (start + 1)).map (· == 0)

def rangeCount (t : CellTable) (start : Nat) : Except Violation Nat :=
  (cell t (start + 2)).map UInt16.toNat

def target? (target : UInt16) : Option Nat :=
  if target = noTarget then none else some target.toNat

def direct (t : CellTable) (start : Nat) (value : UInt8) : Except Violation (Option Nat) :=
  (cell t (start + headerCells + value.toNat)).map target?

/-- Searches `count` ranges, whose cells begin at `place`, for the first that covers `value`. -/
def search (t : CellTable) (value : UInt16) (place : Nat) :
    (count : Nat) → Except Violation (Option Nat)
  | 0 => .ok none
  | count + 1 => do
    let low ← cell t place
    let high ← cell t (place + 1)
    if low ≤ value && value ≤ high then (cell t (place + 2)).map target?
    else search t value (place + rangeCells) count

def range (t : CellTable) (start : Nat) (value : UInt16) : Except Violation (Option Nat) := do
  let count ← rangeCount t start
  let stop ← word (start + fixedCells + rangeCells * count)
  if stop ≤ t.cells.size then search t value (start + fixedCells) count
  else .error .outOfBounds

def next (t : CellTable) (start : Nat) (unit : UInt16) : Except Violation (Option Nat) :=
  if unit.toNat < directCount then direct t start (.ofNat unit.toNat) else range t start unit

def step (t : CellTable) (start : Nat) (c : Char) : Except Violation (Option Nat) :=
  match Units.ofChar c with
  | .single unit => next t start unit
  | .pair lead trail => do
    match ← range t start lead with
    | none => return none
    | some middle => range t (← Bare.start t middle) trail

/-- A walk over a text: where it is, how many characters it has read, and the terminal and the
length of the last run that was recognized. -/
structure Walk where
  state : Nat
  length : Nat
  best : Option (UInt16 × Nat)
  stopped : Bool
deriving DecidableEq

def Walk.begin : Walk := ⟨0, 0, none, false⟩

def Walk.stop (w : Walk) : Walk := { w with stopped := true }

/-- What is recognized where the walk is; at its beginning, nothing has been read yet. -/
def note (t : CellTable) (start : Nat) (w : Walk) : Except Violation Walk :=
  if w.length = 0 then .ok w
  else (terminal t start).map fun
    | none => w
    | some terminal => { w with best := some (terminal, w.length) }

/-- One round of a walk over `input` from `origin` on. -/
def round (t : CellTable) (input : Array Char) (origin : Nat) (w : Walk) :
    Except Violation Walk := do
  let start ← Bare.start t w.state
  let w ← note t start w
  if ← isDeadEnd t start then return w.stop
  match input[← word (origin + w.length)]? with
  | none => return w.stop
  | some c =>
    match ← step t start c with
    | none => return w.stop
    | some state => return { w with state, length := ← word (w.length + 1) }

/-- At most `n` rounds. -/
def rounds (t : CellTable) (input : Array Char) (origin : Nat) :
    (n : Nat) → Walk → Except Violation Walk
  | 0, w => .ok w
  | n + 1, w => if w.stopped then .ok w else do rounds t input origin n (← round t input origin w)

theorem word_eq {n : Nat} (small : n < wordLimit) : word n = .ok n := by
  rw [word, word?, if_pos small, inBounds_some]

theorem cell_eq {t : CellTable} {i : Nat} (inside : i < t.cells.size) (small : i < wordLimit) :
    cell t i = .ok (t.cell i) := by
  rw [cell, word_eq small, ok_bind, Array.getElem?_eq_getElem inside, inBounds_some]
  simp [CellTable.cell, inside]

/-! ### Look-ups in an automaton -/

section

variable {a : Automaton} {q : a.State}

theorem start_eq (a : Automaton) (q : a.State) : start a.table q.val = .ok (a.start q) := by
  rw [start, Array.getElem?_eq_getElem q.isLt, inBounds_some, map_ok]
  rfl

/-- The block of a state starts at a 32-bit offset and has at most 2^16 ranges. -/
theorem blockStop_lt (a : Automaton) (q : a.State) :
    a.start q + fixedCells + rangeCells * a.rangeCount q < wordLimit := by
  have offset : a.start q < 4294967296 := (a.table.offset q).toNat_lt
  have count : a.rangeCount q < 65536 := (a.table.cell (a.start q + 2)).toNat_lt
  simp only [fixedCells, headerCells, directCount, rangeCells, wordLimit, UInt64.size]
  omega

theorem cell_fixed {k : Nat} (h : k < fixedCells) :
    cell a.table (a.start q + k) = .ok (a.fixedCell q k h) := by
  have bound := blockStop_lt a q
  rw [cell_eq (a.fixed_lt q h) (by omega), Automaton.fixedCell_eq_cell]

theorem cell_range (i : Fin (a.rangeCount q)) {k : Nat} (h : k < rangeCells) :
    cell a.table (a.start q + fixedCells + rangeCells * i.val + k) = .ok (a.rangeCell q i k h) := by
  have bound := blockStop_lt a q
  have inside := i.isLt
  have small : a.start q + fixedCells + rangeCells * i.val + k < wordLimit := by
    simp only [rangeCells] at *
    omega
  rw [cell_eq (a.range_lt q inside h) small, Automaton.rangeCell_eq_cell]

theorem target?_eq {target : UInt16} (h : target ∈ a.table.targets (a.start q)) :
    target? target = (a.follow q target h).map Fin.val := by
  unfold target? Automaton.follow
  split <;> rfl

theorem terminal_eq (a : Automaton) (q : a.State) :
    terminal a.table (a.start q) = .ok (a.terminal? q) := by
  have read : cell a.table (a.start q) = .ok (a.fixedCell q 0 (by decide)) :=
    cell_fixed (k := 0) _
  rw [terminal, read]
  rfl

theorem isDeadEnd_eq (a : Automaton) (q : a.State) :
    isDeadEnd a.table (a.start q) = .ok (a.isDeadEnd q) := by
  rw [isDeadEnd, cell_fixed (by decide)]
  rfl

theorem rangeCount_eq (a : Automaton) (q : a.State) :
    rangeCount a.table (a.start q) = .ok (a.rangeCount q) := by
  rw [rangeCount, cell_fixed (by decide), map_ok, Automaton.fixedCell_eq_cell]
  rfl

theorem direct_eq (a : Automaton) (q : a.State) (value : UInt8) :
    direct a.table (a.start q) value = .ok ((a.direct? q value).map Fin.val) := by
  have inside : headerCells + value.toNat < fixedCells := by
    have := value.toNat_lt
    simp only [headerCells, fixedCells, directCount]
    omega
  rw [direct, Nat.add_assoc, cell_fixed inside, map_ok,
    target?_eq (a.direct_mem_targets q value inside)]
  rfl

theorem search_eq (a : Automaton) (q : a.State) (value : UInt16) {i count : Nat}
    (rest : i + count = a.rangeCount q) :
    search a.table value (a.start q + fixedCells + rangeCells * i) count =
      .ok ((((a.arcs q).drop i).find? (·.covers value)).bind fun arc => arc.target.map Fin.val) := by
  have length : (a.arcs q).length = a.rangeCount q := List.length_ofFn
  induction count generalizing i with
  | zero => simp [search, List.drop_eq_nil_of_le (show (a.arcs q).length ≤ i by omega)]
  | succ count ih =>
    have inside : i < a.rangeCount q := by omega
    have low : cell a.table (a.start q + fixedCells + rangeCells * i) =
        .ok (a.rangeCell q ⟨i, inside⟩ 0 (by decide)) := cell_range ⟨i, inside⟩ (k := 0) _
    have high := cell_range (q := q) ⟨i, inside⟩ (k := 1) (by decide)
    have target := cell_range (q := q) ⟨i, inside⟩ (k := 2) (by decide)
    have front : (a.arcs q).drop i = a.arc q ⟨i, inside⟩ :: (a.arcs q).drop (i + 1) := by
      rw [List.drop_eq_getElem_cons (by omega)]
      simp [Automaton.arcs]
    rw [search, low, ok_bind, high, ok_bind, target, front, List.find?_cons]
    change (if (a.arc q ⟨i, inside⟩).covers value = true then _ else _) = _
    cases (a.arc q ⟨i, inside⟩).covers value with
    | true =>
      rw [if_pos rfl, map_ok, target?_eq (a.range_mem_targets q ⟨i, inside⟩ (by decide))]
      rfl
    | false =>
      rw [if_neg Bool.false_ne_true, Nat.add_assoc, ← Nat.mul_succ, ih (by omega)]

theorem range_eq (a : Automaton) (q : a.State) (value : UInt16) :
    range a.table (a.start q) value = .ok ((a.range? q value).map Fin.val) := by
  rw [range, rangeCount_eq, ok_bind, word_eq (blockStop_lt a q), ok_bind, if_pos (a.blockStop_le q)]
  have found := search_eq a q value (Nat.zero_add (a.rangeCount q))
  rw [Nat.mul_zero, Nat.add_zero, List.drop_zero] at found
  rw [found, Automaton.range?, Option.map_bind]
  rfl

theorem next_eq (a : Automaton) (q : a.State) (unit : UInt16) :
    next a.table (a.start q) unit = .ok ((a.next? q unit).map Fin.val) := by
  unfold next Automaton.next?
  split
  · exact direct_eq a q _
  · exact range_eq a q unit

theorem step_eq (a : Automaton) (q : a.State) (c : Char) :
    step a.table (a.start q) c = .ok ((a.step? q c).map Fin.val) := by
  unfold step Automaton.step?
  cases Units.ofChar c with
  | single unit => exact next_eq a q unit
  | pair lead trail =>
    simp only [range_eq, ok_bind]
    cases a.range? q lead with
    | none => rfl
    | some middle =>
      simp only [Option.map_some, start_eq, ok_bind, range_eq, Option.bind_some]

end

/-! ### Walks -/

/-- The walk, with what is recognized at `q`. -/
def Walk.noted (w : Walk) (a : Automaton) (q : a.State) : Walk :=
  if w.length = 0 then w
  else { w with best := ((a.terminal? q).map fun terminal => (terminal, w.length)).or w.best }

theorem note_eq (a : Automaton) (q : a.State) (w : Walk) :
    note a.table (a.start q) w = .ok (w.noted a q) := by
  unfold note Walk.noted
  split
  · rfl
  · rw [terminal_eq, map_ok]
    cases a.terminal? q <;> rfl

theorem length_noted (w : Walk) (a : Automaton) (q : a.State) : (w.noted a q).length = w.length := by
  unfold Walk.noted
  split <;> rfl

theorem stopped_noted (w : Walk) (a : Automaton) (q : a.State) :
    (w.noted a q).stopped = w.stopped := by
  unfold Walk.noted
  split <;> rfl

section

variable {a : Automaton} {q : a.State} {w : Walk} {input : Array Char} {origin : Nat}
  (at_state : w.state = q.val) (small : origin + w.length < wordLimit)
include at_state small

theorem round_of_end (ended : input[origin + w.length]? = none) :
    round a.table input origin w = .ok (w.noted a q).stop := by
  unfold round
  rw [at_state, start_eq, ok_bind, note_eq, ok_bind, isDeadEnd_eq, ok_bind, length_noted,
    word_eq small, ok_bind, ended]
  split <;> rfl

theorem round_of_stuck {c : Char} (found : input[origin + w.length]? = some c)
    (stuck : a.isDeadEnd q = true ∨ a.step? q c = none) :
    round a.table input origin w = .ok (w.noted a q).stop := by
  unfold round
  rw [at_state, start_eq, ok_bind, note_eq, ok_bind, isDeadEnd_eq, ok_bind, length_noted,
    word_eq small, ok_bind, found]
  rcases stuck with dead | blocked
  · rw [dead]
    rfl
  · simp only [step_eq, ok_bind, blocked]
    split <;> rfl

theorem round_of_step {c : Char} {q' : a.State} (found : input[origin + w.length]? = some c)
    (alive : a.isDeadEnd q = false) (follows : a.step? q c = some q')
    (longer : w.length + 1 < wordLimit) :
    round a.table input origin w =
      .ok { w.noted a q with state := q'.val, length := w.length + 1 } := by
  unfold round
  rw [at_state, start_eq, ok_bind, note_eq, ok_bind, isDeadEnd_eq, ok_bind, length_noted,
    word_eq small, ok_bind, found, alive]
  simp only [step_eq, ok_bind, follows, Option.map_some, word_eq longer]
  rfl

end

/-- The best run of a walk that has read `length` characters, goes on from `q` over `chars`, and
has recognized `best` on its way. -/
def bestFrom (a : Automaton) (q : a.State) (chars : List Char) (length : Nat)
    (best : Option (UInt16 × Nat)) : Option (UInt16 × Nat) :=
  ((a.matchFrom q chars).map fun m => (m.terminal, length + m.length)).or best

theorem bestFrom_cons {a : Automaton} {q q' : a.State} {c : Char} (alive : a.isDeadEnd q = false)
    (step : a.step? q c = some q') (rest : List Char) (length : Nat) (best : Option (UInt16 × Nat)) :
    bestFrom a q (c :: rest) length best =
      bestFrom a q' rest (length + 1)
        (((a.terminal? q').map fun terminal => (terminal, length + 1)).or best) := by
  simp only [bestFrom, Automaton.matchFrom, alive, step, Bool.false_eq_true, if_false]
  cases a.matchFrom q' rest with
  | some m => simp [Match.extend, Nat.add_assoc, Nat.add_comm 1]
  | none => cases a.terminal? q' <;> rfl

theorem bestFrom_of_stuck {a : Automaton} {q : a.State} {c : Char}
    (stuck : a.isDeadEnd q = true ∨ a.step? q c = none) (rest : List Char) (length : Nat)
    (best : Option (UInt16 × Nat)) : bestFrom a q (c :: rest) length best = best := by
  rcases stuck with dead | blocked
  · simp [bestFrom, Automaton.matchFrom, dead]
  · simp [bestFrom, Automaton.matchFrom, blocked]

theorem rounds_of_stopped {t : CellTable} {input : Array Char} {origin : Nat} {w : Walk}
    (stopped : w.stopped = true) (n : Nat) : rounds t input origin n w = .ok w := by
  cases n <;> simp [rounds, stopped]

/-- From where a walk stands, enough rounds end it at the best run of the rest of its text. -/
theorem rounds_eq {a : Automaton} {input : Array Char} (short : input.size < wordLimit)
    {origin : Nat} {chars : List Char} {q : a.State} {w : Walk} (at_state : w.state = q.val)
    (unfinished : w.stopped = false) (small : origin + w.length < wordLimit)
    (rest : input.toList.drop (origin + w.length) = chars) {n : Nat} (enough : chars.length < n) :
    ∃ w', rounds a.table input origin n w = .ok w' ∧ w'.stopped = true ∧
      w'.best = bestFrom a q chars w.length (w.noted a q).best := by
  induction n generalizing chars q w with
  | zero => exact absurd enough (Nat.not_lt_zero _)
  | succ n ih =>
    rw [rounds, unfinished, if_neg Bool.false_ne_true]
    have found : input[origin + w.length]? = chars.head? := by
      rw [← Array.getElem?_toList, ← List.head?_drop, rest]
    cases chars with
    | nil =>
      rw [round_of_end at_state small found, ok_bind, rounds_of_stopped rfl]
      exact ⟨_, rfl, rfl, rfl⟩
    | cons c chars =>
      rw [List.head?_cons] at found
      by_cases stuck : a.isDeadEnd q = true ∨ a.step? q c = none
      · rw [round_of_stuck at_state small found stuck, ok_bind, rounds_of_stopped rfl,
          bestFrom_of_stuck stuck]
        exact ⟨_, rfl, rfl, rfl⟩
      · obtain ⟨alive, moves⟩ := not_or.mp stuck
        obtain ⟨q', follows⟩ := Option.ne_none_iff_exists'.mp moves
        rw [Bool.not_eq_true] at alive
        have inside : origin + w.length < input.size := (Array.getElem?_eq_some_iff.mp found).1
        rw [round_of_step at_state small found alive follows (by omega), ok_bind,
          bestFrom_cons alive follows]
        have later : input.toList.drop (origin + (w.length + 1)) = chars := by
          rw [← Nat.add_assoc, ← List.drop_drop, rest, List.drop_succ_cons, List.drop_zero]
        obtain ⟨w', done, stopped, best⟩ := @ih chars q'
          { w.noted a q with state := q'.val, length := w.length + 1 } rfl
          (by rw [stopped_noted, unfinished]) (by simp only; omega) later
          (Nat.lt_of_succ_lt_succ enough)
        exact ⟨w', done, stopped, best⟩

end Bare

namespace Automaton

/-- The look-ups at `q` miss nothing, and lead only to states that exist. -/
structure Reads (a : Automaton) (q : a.State) : Prop where
  start : Bare.start a.table q.val = .ok (a.start q)
  terminal : Bare.terminal a.table (a.start q) = .ok (a.terminal? q)
  isDeadEnd : Bare.isDeadEnd a.table (a.start q) = .ok (a.isDeadEnd q)
  rangeCount : Bare.rangeCount a.table (a.start q) = .ok (a.rangeCount q)
  direct : ∀ value, Bare.direct a.table (a.start q) value = .ok ((a.direct? q value).map Fin.val)
  range : ∀ value, Bare.range a.table (a.start q) value = .ok ((a.range? q value).map Fin.val)
  next : ∀ unit, Bare.next a.table (a.start q) unit = .ok ((a.next? q unit).map Fin.val)

theorem reads (a : Automaton) (q : a.State) : a.Reads q :=
  ⟨Bare.start_eq a q, Bare.terminal_eq a q, Bare.isDeadEnd_eq a q, Bare.rangeCount_eq a q,
    Bare.direct_eq a q, Bare.range_eq a q, Bare.next_eq a q⟩

theorem rounds_begin (a : Automaton) {input : Array Char} (short : input.size < wordLimit)
    {origin : Nat} (inside : origin < wordLimit) :
    ∃ w, Bare.rounds a.table input origin (input.size + 1) .begin = .ok w ∧ w.stopped = true ∧
      w.best = (a.longestMatch? (input.toList.drop origin)).map fun m => (m.terminal, m.length) := by
  have few : (input.toList.drop origin).length < input.size + 1 := by
    rw [List.length_drop, Array.length_toList]
    omega
  obtain ⟨w, done, stopped, best⟩ := Bare.rounds_eq (a := a) (q := a.initial) (w := .begin) short rfl
    rfl inside rfl few
  refine ⟨w, done, stopped, best.trans ?_⟩
  simp [Bare.bestFrom, longestMatch?, Bare.Walk.noted, Bare.Walk.begin]

theorem longestMatch?_inside {a : Automaton} {chars : List Char} {origin : Nat} {m : Match}
    (found : a.longestMatch? (chars.drop origin) = some m) : origin + m.length ≤ chars.length := by
  have inside := (matchFrom_eq_some_iff.mp found).length_le
  have := m.length_pos
  rw [List.length_drop] at inside
  omega

/-- On the table of decoded bytes no look-up and no walk misses a cell or leaves the states. -/
theorem decode_never_misses {bytes : ByteArray} {a : Automaton} (decoded : decode bytes = .ok a) :
    CellTable.ofBytes bytes = .ok a.table ∧ (∀ q, a.Reads q) ∧
      ∀ (input : Array Char) (origin : Nat), input.size < wordLimit → origin < wordLimit →
        ∃ w, Bare.rounds a.table input origin (input.size + 1) .begin = .ok w ∧ w.stopped = true ∧
          w.best = (a.longestMatch? (input.toList.drop origin)).map
            (fun m => (m.terminal, m.length)) ∧
          ∀ terminal length, w.best = some (terminal, length) →
            1 ≤ length ∧ origin + length ≤ input.size := by
  refine ⟨decode_eq_ok.mp decoded, a.reads, ?_⟩
  intro input origin short inside
  obtain ⟨w, done, stopped, best⟩ := a.rounds_begin short inside
  refine ⟨w, done, stopped, best, ?_⟩
  intro terminal length recognized
  rw [best, Option.map_eq_some_iff] at recognized
  obtain ⟨m, found, same⟩ := recognized
  obtain ⟨-, rfl⟩ := Prod.mk.inj same
  exact ⟨m.length_pos, longestMatch?_inside found⟩

end Automaton

/-- Two blocks that overlap, with one range each: the second has its ends reversed. -/
def CellTable.tangled : CellTable := ⟨#[0, 3], Array.replicate 262 1 ++ #[5, 4, 1]⟩

theorem CellTable.cell_tangled {i : Nat} (h : i < 262) : CellTable.tangled.cell i = 1 := by
  rw [cell, tangled, Array.getD_eq_getD_getElem?, Array.getElem?_append_left (by simpa),
    Array.getElem?_replicate, if_pos h]
  rfl

theorem CellTable.targets_tangled (s : Fin CellTable.tangled.stateCount) :
    ∀ target ∈ CellTable.tangled.targets (CellTable.tangled.offset s).toNat, target = 1 := by
  have starts : ∀ s, (CellTable.tangled.offset s).toNat = 0 ∨
      (CellTable.tangled.offset s).toNat = 3 := by decide
  intro target member
  have near := starts s
  have count : CellTable.tangled.rangeCount (CellTable.tangled.offset s).toNat = 1 := by
    rw [CellTable.rangeCount, CellTable.cell_tangled (by omega)]
    rfl
  rw [CellTable.targets, count, List.mem_append] at member
  rcases member with direct | range
  · obtain ⟨value, small, rfl⟩ := List.mem_map.mp direct
    have small := List.mem_range.mp small
    exact CellTable.cell_tangled (by simp only [headerCells, directCount] at *; omega)
  · obtain ⟨i, first, rfl⟩ := List.mem_map.mp range
    obtain rfl : i = 0 := Nat.lt_one_iff.mp (List.mem_range.mp first)
    rcases near with start | start
    · rw [start]
      exact CellTable.cell_tangled (by decide)
    · rw [start]
      decide +kernel

theorem CellTable.closed_tangled (s : Fin CellTable.tangled.stateCount) :
    ∀ target ∈ CellTable.tangled.targets (CellTable.tangled.offset s).toNat, target ≠ noTarget →
      target.toNat < CellTable.tangled.stateCount := by
  intro target member _
  rw [CellTable.targets_tangled s target member]
  decide

def Automaton.tangled : Automaton where
  table := .tangled
  nonempty := by decide
  fits := by decide +kernel
  closed := CellTable.closed_tangled

namespace Automaton

theorem decode_never_misses_tangled :
    decode CellTable.tangled.toBytes = .ok tangled ∧ (∀ q, tangled.Reads q) ∧
      (∃ w, Bare.rounds .tangled #['a', 'b', '∀'] 1 4 .begin = .ok w ∧ w.stopped = true ∧
        w.best = some (1, 1)) ∧
      ∃ w, Bare.rounds .tangled #['a', 'b', '∀'] 7 4 .begin = .ok w ∧ w.stopped = true ∧
        w.best = none := by
  have decoded : decode CellTable.tangled.toBytes = .ok tangled :=
    decode_eq_ok.mpr (CellTable.ofBytes_toBytes (by decide) (by decide))
  obtain ⟨-, reads, walks⟩ := decode_never_misses decoded
  obtain ⟨w, done, stopped, best, -⟩ := walks #['a', 'b', '∀'] 1 (by decide) (by decide)
  obtain ⟨w', done', stopped', best', -⟩ := walks #['a', 'b', '∀'] 7 (by decide) (by decide)
  refine ⟨decoded, reads, ⟨w, done, stopped, best.trans ?_⟩, w', done', stopped', best'⟩
  decide +kernel

end Automaton

end ParseKit
