import ParseKit.Lexer.Basic
import ParseKit.Proofs.Automaton.Walk

/-!
# The segments of a text

A text falls apart into longest matches and stray characters in exactly one way (`tiles_iff`). The
lexer goes through it segment by segment: `next_of_silent` and `next_of_token` say what one of them
does to it.
-/

namespace ParseKit

inductive Segment where
  | hit (start : Nat) (found : Match)
  /-- A character at which nothing matches. -/
  | stray (start : Nat) (character : Char)
deriving DecidableEq

namespace Segment

def start : Segment → Nat
  | hit start _ => start
  | stray start _ => start

def length : Segment → Nat
  | hit _ found => found.length
  | stray .. => 1

theorem length_pos (s : Segment) : 0 < s.length := by
  cases s with
  | hit _ found => exact found.length_pos
  | stray => exact Nat.one_pos

def Heads (a : Automaton) (rest : List Char) : Segment → Prop
  | hit _ found => Longest (a.recognized? a.initial) rest found
  | stray _ c => rest.head? = some c ∧ Unmatched (a.recognized? a.initial) rest

end Segment

/-- The segments cover `rest`, which starts at an index, one directly after the other. -/
def Tiles (a : Automaton) : Nat → List Char → List Segment → Prop
  | _, rest, [] => rest = []
  | start, rest, s :: more =>
    s.start = start ∧ s.Heads a rest ∧ Tiles a (start + s.length) (rest.drop s.length) more

def segmentsFrom (a : Automaton) (start : Nat) (rest : List Char) : List Segment :=
  match _h : rest with
  | [] => []
  | c :: tail =>
    match a.longestMatch? rest with
    | some m => .hit start m :: segmentsFrom a (start + m.length) (rest.drop m.length)
    | none => .stray start c :: segmentsFrom a (start + 1) tail
termination_by rest.length
decreasing_by
  · have := m.length_pos
    rw [_h, List.length_drop, List.length_cons]
    omega
  · simp

section

variable {a : Automaton} {start : Nat} {rest : List Char}

theorem segmentsFrom_nil : segmentsFrom a start [] = [] := by
  rw [segmentsFrom]

theorem segmentsFrom_hit {m : Match} (found : a.longestMatch? rest = some m) :
    segmentsFrom a start rest =
      .hit start m :: segmentsFrom a (start + m.length) (rest.drop m.length) := by
  cases rest with
  | nil => simp [Automaton.longestMatch?, Automaton.matchFrom] at found
  | cons c tail =>
    rw [segmentsFrom]
    simp only [found]

theorem segmentsFrom_stray {c : Char} {tail : List Char} (none : a.longestMatch? (c :: tail) = none) :
    segmentsFrom a start (c :: tail) = .stray start c :: segmentsFrom a (start + 1) tail := by
  rw [segmentsFrom]
  simp only [none]

theorem tiles_segmentsFrom (a : Automaton) (start : Nat) (rest : List Char) :
    Tiles a start rest (segmentsFrom a start rest) := by
  induction start, rest using segmentsFrom.induct a with
  | case1 =>
    rw [segmentsFrom_nil]
    rfl
  | case2 start c tail m found ih =>
    rw [segmentsFrom_hit found]
    exact ⟨rfl, Automaton.matchFrom_eq_some_iff.mp found, ih⟩
  | case3 start c tail none ih =>
    rw [segmentsFrom_stray none]
    exact ⟨rfl, ⟨rfl, Automaton.matchFrom_eq_none_iff.mp none⟩, ih⟩

theorem tiles_iff {segments : List Segment} :
    Tiles a start rest segments ↔ segments = segmentsFrom a start rest := by
  refine ⟨?_, fun same => same ▸ tiles_segmentsFrom a start rest⟩
  intro tiles
  induction segments generalizing start rest with
  | nil =>
    obtain rfl : rest = [] := tiles
    rw [segmentsFrom_nil]
  | cons s more ih =>
    obtain ⟨place, heads, tiles⟩ := tiles
    rw [ih tiles]
    cases s with
    | hit _ m =>
      obtain rfl : _ = start := place
      exact (segmentsFrom_hit (Automaton.matchFrom_eq_some_iff.mpr heads)).symm
    | stray _ c =>
      obtain rfl : _ = start := place
      obtain ⟨first, unmatched⟩ := heads
      obtain ⟨tail, rfl⟩ := List.head?_eq_some_iff.mp first
      exact (segmentsFrom_stray (Automaton.matchFrom_eq_none_iff.mpr unmatched)).symm

end

/-! ### Segments and terminals -/

/-- The table has a row for each terminal that the automaton recognizes. -/
def TerminalTable.Covers (terminals : TerminalTable) (a : Automaton) : Prop :=
  ∀ s number, a.terminal? s = some number → number.toNat < terminals.symbols.size

variable {terminals : TerminalTable}

theorem row?_of_longest {a : Automaton} (covers : terminals.Covers a) {rest : List Char} {m : Match}
    (longest : Longest (a.recognized? a.initial) rest m) :
    ∃ row, terminals.row? m.terminal = some row := by
  obtain ⟨q, _, recognized⟩ := Option.bind_eq_some_iff.mp longest.recognized
  exact ⟨⟨_, covers q _ recognized⟩, dif_pos (covers q _ recognized)⟩

namespace Segment

/-- The row of the token that a segment gives: none for the separator and for stray characters. -/
def row? (terminals : TerminalTable) (separator : UInt32) : Segment → Option terminals.Row
  | hit _ found =>
    (terminals.row? found.terminal).filter fun row => (terminals.symbol row).id != separator
  | stray .. => none

def mark? (terminals : TerminalTable) (separator : UInt32) (s : Segment) : Option (Mark terminals) :=
  (s.row? terminals separator).map fun row => ⟨row, ⟨s.start, s.length⟩⟩

def stray? : Segment → Option (Nat × Char)
  | hit .. => none
  | stray start c => some (start, c)

end Segment

/-! ### The lexer segment by segment -/

namespace Lexer

variable {l : Lexer terminals} {s : Segment} {more : List Segment}

def segments (l : Lexer terminals) : List Segment := segmentsFrom l.automaton l.cursor l.rest

def absorb (l : Lexer terminals) (s : Segment) : Lexer terminals :=
  match s with
  | .hit _ m =>
    match s.row? terminals l.separator with
    | some row => l.emit row m.length
    | none => l.skip m.length
  | .stray _ c => (l.report c).skip 1

theorem absorb_frame (l : Lexer terminals) (s : Segment) :
    (l.absorb s).automaton = l.automaton ∧ (l.absorb s).separator = l.separator ∧
      (l.absorb s).finished = l.finished ∧ (l.absorb s).output.text = l.output.text ∧
      (l.absorb s).cursor = l.cursor + s.length ∧ (l.absorb s).rest = l.rest.drop s.length := by
  unfold absorb
  split
  · split <;> exact ⟨rfl, rfl, rfl, rfl, rfl, rfl⟩
  · exact ⟨rfl, rfl, rfl, rfl, rfl, rfl⟩

theorem tiles_segments (l : Lexer terminals) : Tiles l.automaton l.cursor l.rest l.segments :=
  tiles_segmentsFrom _ _ _

theorem segments_absorb (h : l.segments = s :: more) : (l.absorb s).segments = more := by
  have tiles := l.tiles_segments
  rw [h] at tiles
  obtain ⟨-, -, tiles⟩ := tiles
  obtain ⟨automaton, -, -, -, cursor, rest⟩ := l.absorb_frame s
  rw [segments, automaton, cursor, rest]
  exact (tiles_iff.mp tiles).symm

theorem segments_eq_nil_iff : l.segments = [] ↔ l.rest = [] := by
  constructor
  · intro h
    have tiles := l.tiles_segments
    rw [h] at tiles
    exact tiles
  · intro h
    rw [segments, h, segmentsFrom_nil]

theorem next_of_end (unfinished : l.finished = false) (h : l.segments = []) :
    l.next = .ok (l.tokenOf terminals.dollar, l.finish) := by
  rw [next, if_neg (by simp [unfinished])]
  split
  · rfl
  · next c tail rest => simp [segments_eq_nil_iff.mp h] at rest

theorem next_of_longest (unfinished : l.finished = false) {m : Match}
    (longest : Longest (l.automaton.recognized? l.automaton.initial) l.rest m) {row : terminals.Row}
    (known : terminals.row? m.terminal = some row) :
    l.next = if (terminals.symbol row).id = l.separator then (l.skip m.length).next
      else .ok (l.tokenOf row, l.emit row m.length) := by
  have found : l.automaton.longestMatch? l.rest = some m :=
    Automaton.matchFrom_eq_some_iff.mpr longest
  rw [next, if_neg (by simp [unfinished])]
  split
  · next empty =>
    have short := longest.length_le
    have pos := m.length_pos
    simp only [empty, List.length_nil] at short
    omega
  · simp only [found, known]

theorem next_of_unmatched (unfinished : l.finished = false) {c : Char}
    (first : l.rest.head? = some c)
    (unmatched : Unmatched (l.automaton.recognized? l.automaton.initial) l.rest) :
    l.next = ((l.report c).skip 1).next := by
  have none : l.automaton.longestMatch? l.rest = none :=
    Automaton.matchFrom_eq_none_iff.mpr unmatched
  rw [next, if_neg (by simp [unfinished])]
  split
  · next empty => simp [empty] at first
  · next c' tail rest =>
    obtain rfl : c' = c := by simpa [rest] using first
    simp only [none]

theorem heads_of_segments (h : l.segments = s :: more) : s.Heads l.automaton l.rest := by
  have tiles := l.tiles_segments
  rw [h] at tiles
  exact tiles.2.1

theorem next_of_silent (unfinished : l.finished = false) (covers : terminals.Covers l.automaton)
    (h : l.segments = s :: more) (silent : s.row? terminals l.separator = none) :
    l.next = (l.absorb s).next := by
  have heads := heads_of_segments h
  cases s with
  | hit start m =>
    obtain ⟨row, known⟩ := row?_of_longest covers heads
    have skipped : (terminals.symbol row).id = l.separator := by
      simpa [Segment.row?, known] using silent
    rw [next_of_longest unfinished heads known, if_pos skipped, absorb]
    simp only [silent]
  | stray start c => exact next_of_unmatched unfinished heads.1 heads.2

theorem next_of_token (unfinished : l.finished = false) (h : l.segments = s :: more)
    {row : terminals.Row} (loud : s.row? terminals l.separator = some row) :
    l.next = .ok (l.tokenOf row, l.absorb s) := by
  have heads := heads_of_segments h
  cases s with
  | hit start m =>
    have kept := loud
    rw [Segment.row?, Option.filter_eq_some_iff] at kept
    obtain ⟨known, other⟩ := kept
    rw [next_of_longest unfinished heads known, if_neg (by simpa using other), absorb]
    simp only [loud]
  | stray => simp [Segment.row?] at loud

end Lexer

end ParseKit
