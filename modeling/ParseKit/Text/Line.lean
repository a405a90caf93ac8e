/-!
Lines of a text. A line ends at one of six break characters, at a carriage return, or at a
carriage return with the line feed after it, which end it together. `lineStarts` lists the index
at which each line starts. `scanLines` collects these indices in one walk that looks back at the
previous character; `toList_scanLines` says that it finds the same list.
-/

namespace ParseKit

def isBreak (c : Char) : Bool :=
  c == '\n' || c == '\x0b' || c == '\x0c' || c == '\u0085' || c == '\u2028' || c == '\u2029'

def isLineEnding (c : Char) : Bool := c == '\r' || isBreak c

/-- Whether a line ends right after `c`, before `rest`: a carriage return leaves that to a line
feed behind it. -/
def endsLine (c : Char) (rest : List Char) : Bool :=
  isBreak c || (c == '\r' && rest.head? != some '\n')

/-- The starts of the lines after the current one, where `chars` begins at index `i`. -/
def laterStarts (i : Nat) : List Char → List Nat
  | [] => []
  | c :: rest =>
    if endsLine c rest then (i + 1) :: laterStarts (i + 1) rest else laterStarts (i + 1) rest

def lineStarts (chars : List Char) : List Nat := 0 :: laterStarts 0 chars

theorem lt_of_mem_laterStarts {i start : Nat} {chars : List Char}
    (h : start ∈ laterStarts i chars) : i < start := by
  induction chars generalizing i with
  | nil => simp [laterStarts] at h
  | cons c rest ih =>
    rw [laterStarts] at h
    split at h
    · rcases List.mem_cons.mp h with rfl | h
      · omega
      · exact Nat.lt_of_succ_lt (ih h)
    · exact Nat.lt_of_succ_lt (ih h)

theorem laterStarts_ascending (i : Nat) (chars : List Char) :
    (laterStarts i chars).Pairwise (· < ·) := by
  induction chars generalizing i with
  | nil => simp [laterStarts]
  | cons c rest ih =>
    rw [laterStarts]
    split
    · exact List.pairwise_cons.mpr ⟨fun _ => lt_of_mem_laterStarts, ih _⟩
    · exact ih _

theorem lineStarts_ascending (chars : List Char) : (lineStarts chars).Pairwise (· < ·) :=
  List.pairwise_cons.mpr ⟨fun _ => lt_of_mem_laterStarts, laterStarts_ascending 0 chars⟩

/-! ### Scanning -/

/-- A walk through a text: the index of the next character, the character before it, and the line
starts found so far. -/
structure LineScan where
  index : Nat
  previous : Char
  starts : Array Nat

namespace LineScan

def initial : LineScan := ⟨0, '\x00', #[0]⟩

/-- A carriage return ends its line when the next character turns out not to be a line feed. -/
def step (s : LineScan) (c : Char) : LineScan :=
  let starts := if s.previous = '\r' ∧ c ≠ '\n' then s.starts.push s.index else s.starts
  ⟨s.index + 1, c, if isBreak c then starts.push (s.index + 1) else starts⟩

def finish (s : LineScan) : Array Nat :=
  if s.previous = '\r' then s.starts.push s.index else s.starts

/-- The line start that the walk owes, if `rest` is still to come. -/
def pending (s : LineScan) (rest : List Char) : List Nat :=
  if s.previous = '\r' ∧ rest.head? ≠ some '\n' then [s.index] else []

theorem toList_finish (s : LineScan) : s.finish.toList = s.starts.toList ++ s.pending [] := by
  unfold finish pending
  by_cases carriage : s.previous = '\r' <;> simp [carriage]

theorem toList_starts_step (s : LineScan) (c : Char) (rest : List Char) :
    (s.step c).starts.toList =
      s.starts.toList ++ s.pending (c :: rest) ++ if isBreak c then [s.index + 1] else [] := by
  unfold step pending
  by_cases ends : s.previous = '\r' ∧ c ≠ '\n' <;> by_cases breaks : isBreak c = true <;>
    simp [ends, breaks]

/-- What a step finds and what it owes then is the line start behind its character. -/
theorem laterStarts_cons (s : LineScan) (c : Char) (rest : List Char) :
    laterStarts s.index (c :: rest) =
      (if isBreak c then [s.index + 1] else []) ++ (s.step c).pending rest ++
        laterStarts (s.index + 1) rest := by
  by_cases carriage : c = '\r'
  · subst carriage
    by_cases feed : rest.head? = some '\n' <;>
      simp [laterStarts, endsLine, pending, step, isBreak, feed]
  · by_cases breaks : isBreak c = true <;>
      simp [laterStarts, endsLine, pending, step, carriage, breaks]

theorem toList_finish_foldl (s : LineScan) (chars : List Char) :
    (chars.foldl step s).finish.toList =
      s.starts.toList ++ s.pending chars ++ laterStarts s.index chars := by
  induction chars generalizing s with
  | nil => rw [List.foldl_nil, toList_finish, laterStarts, List.append_nil]
  | cons c rest ih =>
    rw [List.foldl_cons, ih, toList_starts_step s c rest, laterStarts_cons]
    simp only [List.append_assoc]
    rfl

end LineScan

def scanLines (chars : List Char) : Array Nat := (chars.foldl LineScan.step .initial).finish

theorem toList_scanLines (chars : List Char) : (scanLines chars).toList = lineStarts chars := by
  rw [scanLines, LineScan.toList_finish_foldl]
  rfl

end ParseKit
