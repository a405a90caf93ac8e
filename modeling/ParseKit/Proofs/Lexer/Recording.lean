import ParseKit.Lexer.Source
import ParseKit.Proofs.Lexer.Order
import ParseKit.Proofs.Stream.Tape

/-!
# Tokens handed out and tokens recorded

A lexer hands out each token as it records it. `answers_are_recorded` describes all calls for the next
token: what the first ones hand out, how the end of the text is handed out, and that nothing comes after
it.
-/

namespace ParseKit

variable {terminals : TerminalTable}

/-- Call after call for the next token, the lexer goes through `state` and hands out `token`. There are `m`
tokens with characters; call number `m` hands out the end of the text. -/
structure Recording (text : Text) (state : Nat → Lexer terminals) (token : Nat → Token) (m : Nat) :
    Prop where
  before_end : ∀ k < m, (token k).index.toNat = k ∧ ∀ n, k < n →
    ∃ symbol, (state n).output.terminal? k = some symbol ∧ (token k).terminalId = symbol.id
  at_end : (token m).terminalId = (terminals.symbol terminals.dollar).id ∧
    (token m).index.toNat = m ∧ ∀ n, m < n → (state n).output.span? m = some ⟨text.size, 0⟩
  after_end : ∀ n, m < n → token n = .epsilon ∧ state (n + 1) = state n
  tokenCount_eq : ∀ n, (state n).output.tokenCount = min n (m + 1)
  marks_kept : ∀ n n', n ≤ n' → (state n).output.marks.toList <+: (state n').output.marks.toList
  tokens_eq : ∀ n, (state n).output.tokens = (List.range (min n (m + 1))).map token
  span_inside : ∀ n, ∀ k < m, k < n → ∃ span, (state n).output.span? k = some span ∧
    0 < span.length ∧ span.stop ≤ text.size
  span_ordered : ∀ n k span later, (state n).output.span? k = some span →
    (state n).output.span? (k + 1) = some later → span.stop ≤ later.index

/-! ### The marks of a whole text -/

def tokenMarks (a : Automaton) (terminals : TerminalTable) (separator : UInt32) (text : Text) :
    List (Mark terminals) :=
  (segmentsFrom a 0 text.chars).filterMap (·.mark? terminals separator)

/-- The marks of all tokens of a text, and of its end. -/
def allMarks (a : Automaton) (terminals : TerminalTable) (separator : UInt32) (text : Text) :
    List (Mark terminals) :=
  tokenMarks a terminals separator text ++ [.ofEnd terminals text]

/-- The token that call number `n` hands out. -/
def nthToken (marks : List (Mark terminals)) (n : Nat) : Token :=
  (marks[n]?.map fun mark => ⟨mark.symbol.id, .ofNat n⟩).getD .epsilon

section

variable {a : Automaton} {separator : UInt32} {text : Text}

theorem length_allMarks : (allMarks a terminals separator text).length =
    (tokenMarks a terminals separator text).length + 1 := by
  rw [allMarks, List.length_append, List.length_singleton]

theorem length_tokenMarks_le : (tokenMarks a terminals separator text).length ≤ text.size := by
  have few := length_le_of_tiles (tiles_segmentsFrom a 0 text.chars)
  rw [text.length_chars] at few
  exact Nat.le_trans (List.length_filterMap_le _ _) few

theorem getElem?_allMarks {k : Nat} (less : k < (tokenMarks a terminals separator text).length) :
    ∃ mark, (allMarks a terminals separator text)[k]? = some mark ∧ 0 < mark.span.length := by
  refine ⟨_, List.getElem?_append_left less |>.trans (List.getElem?_eq_getElem less), ?_⟩
  obtain ⟨s, -, found⟩ := List.mem_filterMap.mp (List.getElem_mem less)
  obtain ⟨row, -, same⟩ := Option.map_eq_some_iff.mp found
  rw [← same]
  exact s.length_pos

theorem getElem?_allMarks_end :
    (allMarks a terminals separator text)[(tokenMarks a terminals separator text).length]? =
      some (.ofEnd terminals text) :=
  List.getElem?_concat_length

theorem nthToken_of_getElem? {marks : List (Mark terminals)} {n : Nat} {mark : Mark terminals}
    (found : marks[n]? = some mark) : nthToken marks n = ⟨mark.symbol.id, .ofNat n⟩ := by
  rw [nthToken, found]
  rfl

theorem nthToken_of_length_le {marks : List (Mark terminals)} {n : Nat} (past : marks.length ≤ n) :
    nthToken marks n = .epsilon := by
  rw [nthToken, List.getElem?_eq_none past]
  rfl

end

namespace Lexer

variable {a : Automaton} {separator : UInt32} {text : Text} {l : Lexer terminals}
  {passed : List Segment} {n : Nat}

theorem marks_of_finished (read : l.HasRead a separator text passed) (finished : l.finished = true) :
    l.output.marks.toList = allMarks a terminals separator text := by
  rw [read.marks_eq, passed_of_finished read finished, finished]
  rfl

theorem marks_of_unfinished (read : l.HasRead a separator text passed) (unfinished : l.finished = false) :
    ∃ mark rest, allMarks a terminals separator text = l.output.marks.toList ++ mark :: rest := by
  have marks := read.marks_eq
  rw [unfinished, if_neg Bool.false_ne_true, List.append_nil] at marks
  rw [allMarks, tokenMarks, read.segments_eq, List.filterMap_append, ← marks, List.append_assoc]
  cases l.segments.filterMap (·.mark? terminals separator) with
  | nil => exact ⟨_, [], rfl⟩
  | cons mark rest => exact ⟨mark, rest ++ [.ofEnd terminals text], rfl⟩

/-- After `n` calls the lexer has recorded the first `n` marks of the text. -/
structure HasTaken (a : Automaton) (separator : UInt32) (text : Text) (n : Nat) (l : Lexer terminals) :
    Prop where
  read : ∃ passed, l.HasRead a separator text passed
  marks_eq : l.output.marks.toList = (allMarks a terminals separator text).take n

theorem marks_front (read : l.HasRead a separator text passed) :
    l.output.marks.toList <+: allMarks a terminals separator text := by
  cases finished : l.finished with
  | true => exact ⟨[], by rw [marks_of_finished read finished, List.append_nil]⟩
  | false =>
    obtain ⟨mark, rest, whole⟩ := marks_of_unfinished read finished
    exact ⟨mark :: rest, whole.symm⟩

theorem next_of_hasTaken (covers : terminals.Covers a) (taken : l.HasTaken a separator text n) :
    ∃ l', l.next = .ok (nthToken (allMarks a terminals separator text) n, l') ∧
      l'.HasTaken a separator text (n + 1) := by
  obtain ⟨⟨passed, read⟩, marks⟩ := taken
  cases finished : l.finished with
  | true =>
    have all := marks_of_finished read finished
    have short : (allMarks a terminals separator text).length ≤ n := by
      have length := congrArg List.length (marks.symm.trans all)
      rw [List.length_take] at length
      omega
    refine ⟨l, ?_, ⟨passed, read⟩, ?_⟩
    · rw [next, if_pos finished, nthToken_of_length_le short]
    · rw [all, List.take_of_length_le (Nat.le_succ_of_le short)]
  | false =>
    obtain ⟨mark, l', next, marks', -, advances⟩ :=
      @next_records terminals a separator text l finished (by rwa [read.automaton_eq])
    obtain ⟨more, read', -⟩ := advances passed read
    -- There are more marks than those recorded, so none of the `n` calls came after the end.
    have count : l.output.marks.toList.length = n := by
      obtain ⟨_, _, whole⟩ := marks_of_unfinished read finished
      have length := congrArg List.length whole
      have few := congrArg List.length marks
      rw [List.length_append, List.length_cons] at length
      rw [List.length_take] at few
      omega
    have first : l'.output.marks.toList = (allMarks a terminals separator text).take (n + 1) := by
      have taken := List.prefix_iff_eq_take.mp (marks_front read')
      rwa [marks', List.length_append, count, ← marks'] at taken
    have here : (allMarks a terminals separator text)[n]? = some mark := by
      rw [← List.getElem?_take_of_succ, ← first, marks', ← count, List.getElem?_concat_length]
    refine ⟨l', ?_, ⟨_, read'⟩, first⟩
    rw [next, nthToken_of_getElem? here, Lexed.tokenCount, ← Array.length_toList, count]

/-! ### What has been recorded -/

theorem getElem?_marks (taken : l.HasTaken a separator text n) {k : Nat} (less : k < n) :
    l.output.marks[k]? = (allMarks a terminals separator text)[k]? := by
  rw [← Array.getElem?_toList, taken.marks_eq, List.getElem?_take_of_lt less]

theorem tokenCount_of_hasTaken (taken : l.HasTaken a separator text n) :
    l.output.tokenCount = min n (allMarks a terminals separator text).length := by
  rw [Lexed.tokenCount, ← Array.length_toList, taken.marks_eq, List.length_take]

theorem tokens_of_hasTaken (taken : l.HasTaken a separator text n) :
    l.output.tokens = (List.range (min n (allMarks a terminals separator text).length)).map
      (nthToken (allMarks a terminals separator text)) := by
  rw [Lexed.tokens, taken.marks_eq]
  apply List.ext_getElem
  · simp
  · intro k inside _
    rw [List.length_mapIdx, List.length_take] at inside
    have less : k < (allMarks a terminals separator text).length := by omega
    simp [nthToken, less]

theorem eq_of_next_after_end (taken : l.HasTaken a separator text n)
    (past : (allMarks a terminals separator text).length ≤ n) {token : Token} {l' : Lexer terminals}
    (next : l.next = .ok (token, l')) : l' = l := by
  obtain ⟨⟨passed, read⟩, marks⟩ := taken
  rw [List.take_of_length_le past] at marks
  have finished : l.finished = true := by
    cases finished : l.finished with
    | true => rfl
    | false =>
      obtain ⟨mark, rest, whole⟩ := marks_of_unfinished read finished
      have length := congrArg List.length whole
      rw [marks, List.length_append, List.length_cons] at length
      omega
  rw [Lexer.next, if_pos finished] at next
  exact (Prod.mk.inj (Except.ok.inj next)).2.symm

theorem recording_of_hasTaken {source : Lexer terminals} {state : Nat → Lexer terminals}
    (answers : Answers source state (nthToken (allMarks a terminals separator text)))
    (taken : ∀ n, (state n).HasTaken a separator text n) (short : text.size < UInt32.size - 1) :
    Recording text state (nthToken (allMarks a terminals separator text))
      (tokenMarks a terminals separator text).length := by
  have few : (tokenMarks a terminals separator text).length ≤ text.size := length_tokenMarks_le
  have word {k : Nat} (le : k ≤ (tokenMarks a terminals separator text).length) :
      (UInt32.ofNat k).toNat = k := UInt32.toNat_ofNat_of_lt' (by omega)
  constructor
  case before_end =>
    intro k less
    obtain ⟨mark, found, -⟩ := getElem?_allMarks less
    rw [nthToken_of_getElem? found]
    refine ⟨word (Nat.le_of_lt less), fun n called => ⟨mark.symbol, ?_, rfl⟩⟩
    rw [Lexed.terminal?, getElem?_marks (taken n) called, found, Option.map_some]
  case at_end =>
    rw [nthToken_of_getElem? getElem?_allMarks_end]
    refine ⟨rfl, word (Nat.le_refl _), fun n called => ?_⟩
    rw [Lexed.span?, getElem?_marks (taken n) called, getElem?_allMarks_end]
    rfl
  case after_end =>
    intro n less
    have past : (allMarks a terminals separator text).length ≤ n := length_allMarks ▸ less
    exact ⟨nthToken_of_length_le past, eq_of_next_after_end (taken n) past (answers.step n)⟩
  case tokenCount_eq =>
    intro n
    rw [tokenCount_of_hasTaken (taken n), length_allMarks]
  case marks_kept =>
    intro n n' le
    rw [(taken n).marks_eq, (taken n').marks_eq]
    exact List.take_prefix_take_left le
  case tokens_eq =>
    intro n
    rw [tokens_of_hasTaken (taken n), length_allMarks]
  case span_inside =>
    intro n k less called
    obtain ⟨passed, read⟩ := (taken n).read
    obtain ⟨mark, found, pos⟩ := getElem?_allMarks less
    rw [← getElem?_marks (taken n) called] at found
    refine ⟨mark.span, by rw [Lexed.span?, found, Option.map_some], pos, ?_⟩
    exact stop_le_of_mark read mark (Array.mem_toList_iff.mpr (Array.mem_of_getElem? found))
  case span_ordered =>
    intro n k span later found found'
    obtain ⟨passed, read⟩ := (taken n).read
    exact (span_precedes read (Nat.lt_succ_self k) found found').stops

/-- Whatever text a lexer is on, the calls for the next token never fail. Each hands out the token that
it records, the end of the text comes as one token after all others, and then nothing changes any more. -/
theorem answers_are_recorded (a : Automaton) (terminals : TerminalTable) (separator : UInt32)
    (text : Text) (covers : terminals.Covers a) (short : text.size < UInt32.size - 1) :
    ∃ state token m, Answers (ofText a terminals separator text) state token ∧
      Recording text state token m := by
  have fresh : (ofText a terminals separator text).HasTaken a separator text 0 :=
    ⟨⟨[], hasRead_ofText a terminals separator text⟩, rfl⟩
  obtain ⟨answers, taken⟩ := answers_of_kept fresh fun _ _ taken => next_of_hasTaken covers taken
  exact ⟨_, _, _, answers, recording_of_hasTaken answers taken short⟩

theorem answers_are_recorded_latin :
    let text := Text.ofString "∃aa∀a∃"
    ∃ state token, Answers (ofText .latin .latin 0 text) state token ∧ Recording text state token 2 ∧
      token 0 = ⟨9, 0⟩ ∧ token 1 = ⟨9, 1⟩ ∧ token 2 = ⟨2, 2⟩ ∧ token 3 = .epsilon := by
  intro text
  obtain ⟨state, token, m, answers, recording⟩ :=
    answers_are_recorded .latin .latin 0 text TerminalTable.covers_latin (by decide)
  have calls : (do
      let (first, l) ← TokenSource.next (ofText .latin .latin 0 text)
      let (second, l) ← TokenSource.next l
      let (third, l) ← TokenSource.next l
      let (fourth, _) ← TokenSource.next l
      return [first, second, third, fourth]) =
      Except.ok [(⟨9, 0⟩ : Token), ⟨9, 1⟩, ⟨2, 2⟩, .epsilon] := by decide +kernel
  simp only [← answers.start, answers.step, ok_bind, pure_eq_ok, List.cons.injEq, and_true] at calls
  obtain ⟨first, second, third, fourth⟩ := calls
  obtain rfl : m = 2 := by
    rcases Nat.lt_trichotomy m 2 with less | same | more
    · have later := (recording.after_end 2 less).1
      rw [third] at later
      contradiction
    · exact same
    · have index : (token 3).index.toNat = 3 := by
        rcases Nat.lt_or_eq_of_le more with before_end | rfl
        · exact (recording.before_end 3 before_end).1
        · exact recording.at_end.2.1
      rw [fourth] at index
      contradiction
  exact ⟨state, token, answers, recording, first, second, third, fourth⟩

end Lexer

end ParseKit
