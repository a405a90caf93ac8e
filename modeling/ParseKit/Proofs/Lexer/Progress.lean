import ParseKit.Proofs.Lexer.Tiling

/-!
# How far a lexer has read

`Lexer.HasRead` names the segments that a lexer has behind it: its tokens are theirs. Whatever it is
asked for, it only goes on over segments that lie ahead (`next_advances`, `tokenize_advances`).
-/

namespace ParseKit

variable {terminals : TerminalTable}

/-- What is found at the end of a text: a token without characters. -/
def Mark.ofEnd (terminals : TerminalTable) (text : Text) : Mark terminals :=
  ⟨terminals.dollar, ⟨text.size, 0⟩⟩

namespace Lexer

variable {a : Automaton} {separator : UInt32} {text : Text} {l l' l'' : Lexer terminals}
  {passed : List Segment}

/-- The lexer has gone through the segments `passed` at the front of the text. -/
structure HasRead (a : Automaton) (separator : UInt32) (text : Text) (l : Lexer terminals)
    (passed : List Segment) : Prop where
  automaton_eq : l.automaton = a
  separator_eq : l.separator = separator
  text_eq : l.output.text = text
  segments_eq : segmentsFrom a 0 text.chars = passed ++ l.segments
  behind : ∀ s ∈ passed, s.start < l.cursor
  marks_eq : l.output.marks.toList = passed.filterMap (·.mark? terminals separator) ++
    if l.finished then [.ofEnd terminals text] else []
  ended : l.finished = true → l.segments = []

/-- From `l` on, the lexer has gone through more segments and has reported their errors. -/
def Advances (a : Automaton) (separator : UInt32) (text : Text) (l l' : Lexer terminals) : Prop :=
  ∀ passed, l.HasRead a separator text passed → ∃ more,
    l'.HasRead a separator text (passed ++ more) ∧
      l'.reports = (more.filterMap (·.diagnostic? text)).foldl Reports.add l.reports

theorem hasRead_ofText (a : Automaton) (terminals : TerminalTable) (separator : UInt32)
    (text : Text) : (ofText a terminals separator text).HasRead a separator text [] :=
  ⟨rfl, rfl, rfl, rfl, fun _ member => absurd member List.not_mem_nil, rfl, fun h => nomatch h⟩

theorem advances_refl (l : Lexer terminals) : Advances a separator text l l := by
  intro passed read
  exact ⟨[], by rwa [List.append_nil], rfl⟩

theorem advances_trans (first : Advances a separator text l l')
    (second : Advances a separator text l' l'') : Advances a separator text l l'' := by
  intro passed read
  obtain ⟨more, read, reports⟩ := first passed read
  obtain ⟨rest, read, reports'⟩ := second _ read
  refine ⟨more ++ rest, by rwa [← List.append_assoc], ?_⟩
  rw [reports', reports, List.filterMap_append, List.foldl_append]

theorem cursor_le_of_segments (l : Lexer terminals) : ∀ s ∈ l.segments, l.cursor ≤ s.start :=
  fun s member => (stop_le_of_tiles l.tiles_segments s member).1

theorem start_of_segments {s : Segment} {rest : List Segment} (h : l.segments = s :: rest) :
    s.start = l.cursor := by
  have tiles := l.tiles_segments
  rw [h] at tiles
  exact tiles.1

theorem absorb_advances {s : Segment} {rest : List Segment} (unfinished : l.finished = false)
    (h : l.segments = s :: rest) : Advances a separator text l (l.absorb s) := by
  intro passed read
  obtain ⟨automaton, separator', finished, text', cursor, -⟩ := l.absorb_frame s
  have place := start_of_segments h
  refine ⟨[s], ?_, ?_⟩
  · constructor
    · exact automaton.trans read.automaton_eq
    · exact separator'.trans read.separator_eq
    · exact text'.trans read.text_eq
    · rw [read.segments_eq, h, segments_absorb h, List.append_assoc, List.singleton_append]
    · intro s' member
      have pos := s.length_pos
      rw [cursor]
      rcases List.mem_append.mp member with before | same
      · have := read.behind s' before
        omega
      · obtain rfl := List.mem_singleton.mp same
        omega
    · rw [marks_absorb place, read.marks_eq, read.separator_eq, finished, unfinished]
      cases mark : s.mark? terminals separator <;> simp [mark]
    · intro done
      simp [finished, unfinished] at done
  · rw [reports_absorb place, read.text_eq]
    cases error : s.diagnostic? text <;> simp [error]

theorem finish_advances (unfinished : l.finished = false) (h : l.segments = []) :
    Advances a separator text l l.finish := by
  intro passed read
  refine ⟨[], ?_, rfl⟩
  rw [List.append_nil]
  constructor
  · exact read.automaton_eq
  · exact read.separator_eq
  · exact read.text_eq
  · exact read.segments_eq
  · exact read.behind
  · have marks := read.marks_eq
    rw [unfinished] at marks
    simp only [finish, Lexed.push, Array.toList_push, marks, read.text_eq]
    simp [Mark.ofEnd]
  · exact fun _ => h

/-- Before the end has been handed out, a call adds one mark and hands out its token. -/
theorem next_records (unfinished : l.finished = false) (covers : terminals.Covers l.automaton) :
    ∃ mark l', l.next = .ok (⟨mark.symbol.id, .ofNat l.output.tokenCount⟩, l') ∧
      l'.output.marks.toList = l.output.marks.toList ++ [mark] ∧ l'.automaton = l.automaton ∧
      Advances a separator text l l' := by
  induction h : l.segments generalizing l with
  | nil =>
    exact ⟨⟨terminals.dollar, ⟨l.output.text.size, 0⟩⟩, l.finish, next_of_end unfinished h,
      Array.toList_push, rfl, finish_advances unfinished h⟩
  | cons s rest ih =>
    obtain ⟨automaton, -, finished, -⟩ := l.absorb_frame s
    have absorbed : Advances a separator text l (l.absorb s) := absorb_advances unfinished h
    have marks := marks_absorb (start_of_segments h)
    cases loud : s.row? terminals l.separator with
    | none =>
      have silent : (l.absorb s).output.marks.toList = l.output.marks.toList := by
        simpa [Segment.mark?, loud] using marks
      obtain ⟨mark, l', next, marks', same, advances⟩ :=
        ih (finished.trans unfinished) (by rwa [automaton]) (segments_absorb h)
      rw [Lexed.tokenCount, Array.toList_inj.mp silent] at next
      rw [next_of_silent unfinished covers h loud]
      exact ⟨mark, l', next, by rw [marks', silent], same.trans automaton,
        advances_trans absorbed advances⟩
    | some row =>
      rw [Segment.mark?, loud] at marks
      exact ⟨⟨row, ⟨s.start, s.length⟩⟩, l.absorb s, next_of_token unfinished h loud, marks, automaton,
        absorbed⟩

theorem next_advances (unfinished : l.finished = false) (covers : terminals.Covers l.automaton) :
    ∃ token l', l.next = .ok (token, l') ∧ l'.automaton = l.automaton ∧
      Advances a separator text l l' := by
  obtain ⟨_, l', next, -, same, advances⟩ :=
    @next_records terminals a separator text l unfinished covers
  exact ⟨_, l', next, same, advances⟩

theorem collect_advances (covers : terminals.Covers l.automaton) :
    ∃ tokens l', l.collect = .ok (tokens, l') ∧ l'.finished = true ∧
      Advances a separator text l l' := by
  fun_induction collect l with
  | case1 l finished => exact ⟨[], l, rfl, finished, advances_refl l⟩
  | case2 l unfinished e failed =>
    obtain ⟨_, _, next, -⟩ :=
      @next_advances terminals a separator text l (by simpa using unfinished) covers
    rw [failed] at next
    contradiction
  | case3 l unfinished token l' next ih =>
    obtain ⟨_, _, next', automaton, first⟩ :=
      @next_advances terminals a separator text l (by simpa using unfinished) covers
    rw [next] at next'
    obtain ⟨rfl, rfl⟩ := Prod.mk.inj (Except.ok.inj next')
    obtain ⟨tokens, last, collected, finished, later⟩ := ih (by rwa [automaton])
    rw [collected]
    exact ⟨_, _, rfl, finished, advances_trans first later⟩

theorem tokenize_advances (covers : terminals.Covers l.automaton) :
    ∃ l', l.tokenize = .ok l' ∧ l'.finished = true ∧ Advances a separator text l l' := by
  obtain ⟨tokens, l', collected, finished, advances⟩ := collect_advances covers
  exact ⟨l', by rw [tokenize, collected]; rfl, finished, advances⟩

/-! ### Two readers of one text -/

theorem passed_of_finished (read : l.HasRead a separator text passed) (finished : l.finished = true) :
    passed = segmentsFrom a 0 text.chars := by
  rw [read.segments_eq, read.ended finished, List.append_nil]

theorem output_unique {passed' : List Segment} (read : l.HasRead a separator text passed)
    (read' : l'.HasRead a separator text passed') (finished : l.finished = true)
    (finished' : l'.finished = true) : l.output = l'.output := by
  have marks : l.output.marks = l'.output.marks := by
    apply Array.toList_inj.mp
    rw [read.marks_eq, read'.marks_eq, passed_of_finished read finished,
      passed_of_finished read' finished', finished, finished']
  have texts : l.output.text = l'.output.text := read.text_eq.trans read'.text_eq.symm
  cases h : l.output
  cases h' : l'.output
  simp_all

end Lexer

end ParseKit
