import ParseKit.Stream

/-!
# A stream as a tape with a cursor

Whatever is asked of a stream, it answers like an unbounded tape of the tokens of its source:
`stream_follows_tape` relates the ring to the place of a cursor and to the number of tokens
pulled.
-/

namespace ParseKit

/-- Asked again and again from `source` on, a source goes through `state` and hands out `token`. -/
structure Answers {σ : Type} [TokenSource σ] (source : σ) (state : Nat → σ) (token : Nat → Token) :
    Prop where
  start : state 0 = source
  step : ∀ n, TokenSource.next (state n) = .ok (token n, state (n + 1))

theorem answers_list (tokens : List Token) :
    Answers tokens tokens.drop fun n => tokens.getD n .epsilon := by
  refine ⟨rfl, ?_⟩
  intro n
  rw [List.getD_eq_getElem?_getD, ← List.head?_drop, ← List.tail_drop]
  cases tokens.drop n <;> rfl

/-- The source after `n` tokens. A source that fails stays as it is. -/
def TokenSource.after {σ : Type} [TokenSource σ] (source : σ) : Nat → σ
  | 0 => source
  | n + 1 =>
    match TokenSource.next (after source n) with
    | .ok (_, rest) => rest
    | .error _ => after source n

/-- A source that keeps something up, and does not fail as long as it does, answers without end. -/
theorem answers_of_kept {σ : Type} [TokenSource σ] {source : σ} {token : Nat → Token}
    {Kept : Nat → σ → Prop} (start : Kept 0 source)
    (step : ∀ n s, Kept n s → ∃ s', TokenSource.next s = .ok (token n, s') ∧ Kept (n + 1) s') :
    Answers source (TokenSource.after source) token ∧ ∀ n, Kept n (TokenSource.after source n) := by
  have after {n : Nat} {s : σ} (next : TokenSource.next (TokenSource.after source n) = .ok (token n, s)) :
      TokenSource.after source (n + 1) = s := by
    rw [TokenSource.after, next]
  have kept (n : Nat) : Kept n (TokenSource.after source n) := by
    induction n with
    | zero => exact start
    | succ n ih =>
      obtain ⟨s, next, kept⟩ := step n _ ih
      rwa [after next]
  refine ⟨⟨rfl, fun n => ?_⟩, kept⟩
  obtain ⟨s, next, -⟩ := step n _ (kept n)
  rw [next, after next]

inductive StreamCall where
  | next
  /-- The next token of the stream as a source. -/
  | sourceNext
  | rewind (count : Nat)
deriving DecidableEq

/-- Calls one after another. A refused call changes nothing. -/
def runCalls {α : Type} (call : α → StreamCall → Except Violation (Option Token × α)) (a : α) :
    List StreamCall → List (Except Violation (Option Token)) × α
  | [] => ([], a)
  | c :: rest =>
    match call a c with
    | .ok (reply, b) => (.ok reply :: (runCalls call b rest).1, (runCalls call b rest).2)
    | .error e => (.error e :: (runCalls call a rest).1, (runCalls call a rest).2)

namespace Replay

variable {σ : Type} [TokenSource σ]

def call (r : Replay σ) : StreamCall → Except Violation (Option Token × Replay σ)
  | .next => r.next.map fun (token, r) => (some token, r)
  | .sourceNext => (TokenSource.next r).map fun (token, r) => (some token, r)
  | .rewind count => (r.rewind count).map fun r => (none, r)

end Replay

/-- A place on a tape of tokens, and how many of them have been pulled from the source. -/
structure Cursor where
  pos : Nat
  pulled : Nat
deriving DecidableEq

namespace Cursor

def start : Cursor := ⟨0, 0⟩

/-- How far the cursor can go back: over the last 31 tokens pulled. -/
def window (c : Cursor) : Nat := min c.pulled 31 - (c.pulled - c.pos)

def advance (c : Cursor) : Cursor := ⟨c.pos + 1, if c.pos = c.pulled then c.pulled + 1 else c.pulled⟩

def call (token : Nat → Token) (c : Cursor) : StreamCall → Except Violation (Option Token × Cursor)
  | .next => .ok (some (token c.pos), c.advance)
  | .sourceNext => .ok (some (token c.pos), c.advance)
  | .rewind count =>
    if count ≤ c.window then .ok (none, { c with pos := c.pos - count })
    else .error (.rewindTooFar count c.window)

end Cursor

namespace Replay

variable {σ : Type}

/-- The ring holds the tokens pulled last, each at the slot of its number. -/
structure Tracks (state : Nat → σ) (token : Nat → Token) (r : Replay σ) (c : Cursor) : Prop where
  source : r.source = state c.pulled
  held : r.held = min c.pulled 32
  fill : r.fill.val = c.pulled % 32
  start : r.start.val = c.pos % 32
  pos_le : c.pos ≤ c.pulled
  pulled_le : c.pulled ≤ c.pos + 31
  ring : ∀ n < c.pulled, c.pulled ≤ n + 32 → r.ring[n % 32]? = some (token n)

variable {state : Nat → σ} {token : Nat → Token} {r : Replay σ} {c : Cursor}

theorem tracks_ofSource {source : σ} (start : state 0 = source) :
    Tracks state token (ofSource source) .start :=
  ⟨start.symm, rfl, rfl, rfl, Nat.le_refl 0, Nat.zero_le _, fun _ h => absurd h (Nat.not_lt_zero _)⟩

theorem waiting_of_tracks (tracks : Tracks state token r c) : r.waiting = c.pulled - c.pos := by
  obtain ⟨-, -, fill, start, low, high, -⟩ := tracks
  simp only [waiting, ringSize, fill, start]
  omega

theorem window_of_tracks (tracks : Tracks state token r c) : r.window = c.window := by
  rw [window, waiting_of_tracks tracks, tracks.held, Cursor.window]
  simp only [ringSize]
  omega

theorem drained_iff (tracks : Tracks state token r c) : r.start = r.fill ↔ c.pos = c.pulled := by
  obtain ⟨-, -, fill, start, low, high, -⟩ := tracks
  rw [Fin.ext_iff, fill, start]
  omega

theorem next_tracks [TokenSource σ] {source : σ} (answers : Answers source state token)
    (tracks : Tracks state token r c) :
    ∃ r', r.next = .ok (token c.pos, r') ∧ Tracks state token r' c.advance := by
  have drained := drained_iff tracks
  obtain ⟨source, held, fill, start, low, high, ring⟩ := tracks
  unfold Replay.next
  by_cases fresh : c.pos = c.pulled
  · rw [if_neg (not_not_intro (drained.mpr fresh)), source, answers.step]
    refine ⟨_, by rw [fresh]; rfl, ?_⟩
    rw [Cursor.advance, if_pos fresh]
    have slot : (c.pulled % 32 + 1) % 32 = (c.pulled + 1) % 32 := by omega
    refine ⟨rfl, ?_, ?_, ?_, Nat.succ_le_succ low, by simp only; omega, ?_⟩
    · simp only [held, ringSize]
      omega
    · simpa only [after, fill, ringSize] using slot
    · simpa only [after, fill, fresh, ringSize] using slot
    · intro n old recent
      simp only [fill]
      rw [Vector.getElem?_set]
      by_cases new : n = c.pulled
      · subst new
        simp
      · have apart : ¬ c.pulled % 32 = n % 32 := by simp only at old recent; omega
        rw [if_neg apart]
        exact ring n (by simp only at old; omega) (by simp only at recent; omega)
  · rw [if_pos (mt drained.mp fresh)]
    have same : r.ring[r.start] = token c.pos := by
      have read := ring c.pos (by omega) (by omega)
      rw [← start] at read
      simpa using read
    refine ⟨_, by rw [same], ?_⟩
    rw [Cursor.advance, if_neg fresh]
    refine ⟨source, held, fill, ?_, by simp only; omega, by simp only; omega, ring⟩
    simp only [after, start, ringSize]
    omega

theorem rewind_tracks (tracks : Tracks state token r c) {count : Nat} (few : count ≤ c.window) :
    ∃ r', r.rewind count = .ok r' ∧ Tracks state token r' { c with pos := c.pos - count } := by
  have window := window_of_tracks tracks
  obtain ⟨source, held, fill, start, low, high, ring⟩ := tracks
  refine ⟨{ r with start := before r.start count }, by rw [rewind, if_pos (window ▸ few)], ?_⟩
  refine ⟨source, held, fill, ?_, ?_, ?_, ring⟩
  · simp only [Cursor.window] at few
    simp only [before, start, ringSize]
    omega
  · simp only
    omega
  · simp only [Cursor.window] at few ⊢
    omega

theorem rewind_refused (tracks : Tracks state token r c) {count : Nat} (many : ¬ count ≤ c.window) :
    r.rewind count = .error (.rewindTooFar count c.window) := by
  rw [rewind, window_of_tracks tracks, if_neg many]

theorem call_tracks [TokenSource σ] {source : σ} (answers : Answers source state token)
    (tracks : Tracks state token r c) (call : StreamCall) :
    match c.call token call with
    | .ok (reply, c') => ∃ r', r.call call = .ok (reply, r') ∧ Tracks state token r' c'
    | .error e => r.call call = .error e := by
  cases call with
  | next =>
    obtain ⟨r', next, tracks⟩ := next_tracks answers tracks
    exact ⟨r', by rw [Replay.call, next]; rfl, tracks⟩
  | sourceNext =>
    obtain ⟨r', next, tracks⟩ := next_tracks answers tracks
    exact ⟨r', by rw [Replay.call]; change r.next.map _ = _; rw [next]; rfl, tracks⟩
  | rewind count =>
    by_cases few : count ≤ c.window
    · rw [Cursor.call, if_pos few]
      obtain ⟨r', rewound, tracks⟩ := rewind_tracks tracks few
      exact ⟨r', by rw [Replay.call, rewound]; rfl, tracks⟩
    · rw [Cursor.call, if_neg few]
      change r.call _ = _
      rw [Replay.call, rewind_refused tracks few]
      rfl

theorem run_tracks [TokenSource σ] {source : σ} (answers : Answers source state token)
    (tracks : Tracks state token r c) (calls : List StreamCall) :
    (runCalls call r calls).1 = (runCalls (Cursor.call token) c calls).1 ∧
      Tracks state token (runCalls call r calls).2 (runCalls (Cursor.call token) c calls).2 := by
  induction calls generalizing r c with
  | nil => exact ⟨rfl, tracks⟩
  | cons first rest ih =>
    have step := call_tracks answers tracks first
    rw [runCalls, runCalls]
    cases h : c.call token first with
    | ok result =>
      obtain ⟨reply, c'⟩ := result
      rw [h] at step
      obtain ⟨r', same, tracks⟩ := step
      obtain ⟨replies, last⟩ := ih tracks
      rw [same]
      exact ⟨congrArg _ replies, last⟩
    | error e =>
      rw [h] at step
      change r.call first = _ at step
      obtain ⟨replies, last⟩ := ih tracks
      rw [step]
      exact ⟨congrArg _ replies, last⟩

theorem answers_ofSource [TokenSource σ] {source : σ} (answers : Answers source state token) :
    ∃ states, Answers (ofSource source) states token := by
  have step (n : Nat) (r : { r // Tracks state token r ⟨n, n⟩ }) :
      ∃ r' : { r // Tracks state token r ⟨n + 1, n + 1⟩ }, r.1.next = .ok (token n, r'.1) := by
    obtain ⟨r', next, tracks⟩ := next_tracks answers r.2
    rw [Cursor.advance, if_pos rfl] at tracks
    exact ⟨⟨r', tracks⟩, next⟩
  let follow (n : Nat) (r : { r // Tracks state token r ⟨n, n⟩ }) := (step n r).choose
  let states (n : Nat) : { r // Tracks state token r ⟨n, n⟩ } :=
    n.rec ⟨ofSource source, tracks_ofSource answers.start⟩ follow
  exact ⟨fun n => (states n).1, rfl, fun n => (step n (states n)).choose_spec⟩

/-- A new stream answers as the tape of its source's tokens does, and its source has been asked
for exactly the tokens pulled. -/
theorem stream_follows_tape [TokenSource σ] {source : σ} (answers : Answers source state token)
    (calls : List StreamCall) :
    let stream := runCalls call (ofSource source) calls
    let tape := runCalls (Cursor.call token) .start calls
    stream.1 = tape.1 ∧ stream.2.source = state tape.2.pulled ∧
      stream.2.window = min tape.2.pulled 31 - (tape.2.pulled - tape.2.pos) ∧
      tape.2.pos ≤ tape.2.pulled ∧ tape.2.pulled - tape.2.pos ≤ min tape.2.pulled 31 ∧
      stream.2.waiting ≤ min stream.2.held 31 ∧
      stream.2.start.val = tape.2.pos % 32 ∧ stream.2.fill.val = tape.2.pulled % 32 := by
  intro stream tape
  obtain ⟨replies, tracks⟩ := run_tracks answers (tracks_ofSource answers.start) calls
  have low : tape.2.pos ≤ tape.2.pulled := tracks.pos_le
  have high : tape.2.pulled ≤ tape.2.pos + 31 := tracks.pulled_le
  have waiting : stream.2.waiting = tape.2.pulled - tape.2.pos := waiting_of_tracks tracks
  have held : stream.2.held = min tape.2.pulled 32 := tracks.held
  refine ⟨replies, tracks.source, window_of_tracks tracks, low, by omega, ?_, tracks.start,
    tracks.fill⟩
  rw [waiting, held]
  omega

theorem stream_follows_tape_nested :
    let tokens : List Token := [⟨5, 0⟩, ⟨6, 1⟩, ⟨7, 2⟩]
    ∃ state, Answers (ofSource tokens) state (fun n => tokens.getD n .epsilon) ∧
      let stream := runCalls call (ofSource (ofSource tokens))
        (List.replicate 33 .next ++ [.rewind 32, .rewind 31, .sourceNext])
      stream.1.drop 33 = [.error (.rewindTooFar 32 31), .ok none, .ok (some ⟨7, 2⟩)] ∧
        stream.2.source = state 33 := by
  intro tokens
  obtain ⟨state, answers⟩ := answers_ofSource (answers_list tokens)
  obtain ⟨replies, source, -⟩ := stream_follows_tape answers
    (List.replicate 33 .next ++ [.rewind 32, .rewind 31, .sourceNext])
  refine ⟨state, answers, ?_, source⟩
  rw [replies]
  rfl

end Replay

end ParseKit
