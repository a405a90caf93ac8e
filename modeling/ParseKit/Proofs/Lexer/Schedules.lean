import ParseKit.Lexer.Source
import ParseKit.Proofs.Lexer.Progress

/-!
# Reading a text call by call

A text can be read by calls of several kinds, one after another in any order, with errors taken and
handlers registered in between. However it is read, the tokens are the same, and each error ends up
in exactly one place: `schedules_agree`.
-/

namespace ParseKit

inductive LexCall where
  | next
  /-- The next token of the lexer as a source. -/
  | sourceNext
  /-- The next token up to the end-of-input token. -/
  | iterNext
  | tokenize
  | takeErrors
  | registerHandler
deriving DecidableEq

inductive LexAnswer where
  | token (token : Option Token)
  | errors (errors : List Diagnostic)
  | done
deriving DecidableEq

/-- A call that was made: what it answered, and the part of the text that it read. -/
structure LexEvent where
  call : LexCall
  answer : LexAnswer
  start : Nat
  stop : Nat
deriving DecidableEq

namespace LexEvent

def taken (e : LexEvent) : List Diagnostic :=
  match e.answer with
  | .errors errors => errors
  | _ => []

/-- The errors of the stray characters in the part of the text that was read. -/
def found (a : Automaton) (text : Text) (e : LexEvent) : List Diagnostic :=
  ((segmentsFrom a 0 text.chars).filter fun s => e.start ≤ s.start && s.start < e.stop).filterMap
    (·.diagnostic? text)

/-- Adds what a call found to the errors found since the last handler was registered, which stand
first. -/
def note (a : Automaton) (text : Text) (found : List (List Diagnostic)) (e : LexEvent) :
    List (List Diagnostic) :=
  match e.call with
  | .registerHandler => [] :: found
  | _ => found.modifyHead (· ++ e.found a text)

end LexEvent

/-- The errors found before there was a handler, and then those found while each handler was the
latest one, in the order in which the handlers were registered. -/
def foundInTurn (a : Automaton) (text : Text) (events : List LexEvent) : List (List Diagnostic) :=
  (events.foldl (LexEvent.note a text) [[]]).reverse

variable {terminals : TerminalTable}

namespace Lexer

def call (l : Lexer terminals) : LexCall → Except Violation (LexAnswer × Lexer terminals)
  | .next => l.next.map fun (token, l) => (.token (some token), l)
  | .sourceNext => (TokenSource.next l).map fun (token, l) => (.token (some token), l)
  | .iterNext => l.next?.map fun (token, l) => (.token token, l)
  | .tokenize => l.tokenize.map fun l => (.done, l)
  | .takeErrors => .ok (.errors l.takeErrors.1, l.takeErrors.2)
  | .registerHandler => .ok (.done, l.registerHandler)

def run (l : Lexer terminals) : List LexCall → Except Violation (List LexEvent × Lexer terminals)
  | [] => .ok ([], l)
  | call :: rest => do
    let (answer, l') ← l.call call
    let (events, last) ← l'.run rest
    return (⟨call, answer, l.cursor, l'.cursor⟩ :: events, last)

end Lexer

/-! ### Errors and where they go -/

namespace Reports

/-- What was taken, and what each handler has received, the handler registered last first. -/
def stacked (r : Reports) (taken : List Diagnostic) : List (List Diagnostic) :=
  r.handlers.map Array.toList ++ [taken ++ r.uncollected.toList]

theorem stacked_add (r : Reports) (e : Diagnostic) (taken : List Diagnostic) :
    (r.add e).stacked taken = (r.stacked taken).modifyHead (· ++ [e]) := by
  cases handlers : r.handlers with
  | nil => simp [add, stacked, handlers]
  | cons latest earlier => simp [add, stacked, handlers]

theorem stacked_foldl_add (r : Reports) (errors taken : List Diagnostic) :
    (errors.foldl add r).stacked taken = (r.stacked taken).modifyHead (· ++ errors) := by
  induction errors generalizing r with
  | nil => cases stacked : r.stacked taken <;> simp [stacked]
  | cons e rest ih =>
    rw [List.foldl_cons, ih, stacked_add, List.modifyHead_modifyHead]
    simp [Function.comp_def]

theorem stacked_register (r : Reports) (taken : List Diagnostic) :
    r.register.stacked taken = [] :: r.stacked taken := rfl

theorem stacked_take (r : Reports) (taken : List Diagnostic) :
    r.take.2.stacked (taken ++ r.take.1) = r.stacked taken := by
  simp [take, stacked]

end Reports

namespace LexEvent

variable {a : Automaton} {text : Text} {e : LexEvent}

theorem found_of_still (still : e.start = e.stop) : e.found a text = [] := by
  have none : (segmentsFrom a 0 text.chars).filter
      (fun s => e.start ≤ s.start && s.start < e.stop) = [] := by
    rw [List.filter_eq_nil_iff]
    intro s _
    simp only [Bool.and_eq_true, decide_eq_true_eq]
    omega
  rw [found, none, List.filterMap_nil]

theorem note_of_still (still : e.start = e.stop) (pulls : e.call ≠ .registerHandler)
    (found : List (List Diagnostic)) : e.note a text found = found := by
  unfold note
  split
  · next registers => exact absurd registers pulls
  · rw [found_of_still still]
    cases found <;> simp

theorem flatten_note {found : List (List Diagnostic)} (begun : found ≠ [])
    (silent : e.call = .registerHandler → e.found a text = []) :
    (e.note a text found).reverse.flatten = found.reverse.flatten ++ e.found a text ∧
      e.note a text found ≠ [] := by
  obtain ⟨latest, earlier, rfl⟩ := List.exists_cons_of_ne_nil begun
  unfold note
  split
  · next call => simp [silent call]
  · simp

theorem flatten_foldl_note {found : List (List Diagnostic)} (begun : found ≠ [])
    {events : List LexEvent}
    (silent : ∀ e ∈ events, e.call = .registerHandler → e.found a text = []) :
    (events.foldl (note a text) found).reverse.flatten =
      found.reverse.flatten ++ events.flatMap (LexEvent.found a text) := by
  induction events generalizing found with
  | nil => simp
  | cons e rest ih =>
    obtain ⟨flatten, begun⟩ := flatten_note begun (silent e List.mem_cons_self)
    rw [List.foldl_cons, ih begun fun e member => silent e (List.mem_cons_of_mem _ member), flatten,
      List.flatMap_cons, List.append_assoc]

end LexEvent

namespace Lexer

variable {a : Automaton} {separator : UInt32} {text : Text} {l l' : Lexer terminals}
  {passed more : List Segment}

/-! ### One call -/

/-- The errors found between two states of a reading are those of the segments in between. -/
theorem found_of_hasRead (read : l.HasRead a separator text passed)
    (read' : l'.HasRead a separator text (passed ++ more)) {e : LexEvent} (start : e.start = l.cursor)
    (stop : e.stop = l'.cursor) : e.found a text = more.filterMap (·.diagnostic? text) := by
  have whole := read'.segments_eq
  have ahead : l.segments = more ++ l'.segments := by
    rw [read.segments_eq, List.append_assoc] at whole
    exact List.append_cancel_left whole
  have before : passed.filter (fun s => l.cursor ≤ s.start && s.start < l'.cursor) = [] := by
    rw [List.filter_eq_nil_iff]
    intro s member
    have := read.behind s member
    simp only [Bool.and_eq_true, decide_eq_true_eq]
    omega
  have during : more.filter (fun s => l.cursor ≤ s.start && s.start < l'.cursor) = more := by
    rw [List.filter_eq_self]
    intro s member
    have low := l.cursor_le_of_segments s (ahead ▸ List.mem_append_left _ member)
    have high := read'.behind s (List.mem_append_right _ member)
    simp [low, high]
  have after : l'.segments.filter (fun s => l.cursor ≤ s.start && s.start < l'.cursor) = [] := by
    rw [List.filter_eq_nil_iff]
    intro s member
    have := l'.cursor_le_of_segments s member
    simp only [Bool.and_eq_true, decide_eq_true_eq]
    omega
  rw [LexEvent.found, start, stop, whole, List.filter_append, List.filter_append, before, during,
    after, List.nil_append, List.append_nil]

/-- The call that `e` records takes the lexer from `l` to `l'`: over some segments, whose errors go
where errors go at that time. -/
structure Accounts (a : Automaton) (separator : UInt32) (text : Text) (passed more : List Segment)
    (l : Lexer terminals) (e : LexEvent) (l' : Lexer terminals) : Prop where
  read : l'.HasRead a separator text (passed ++ more)
  found : e.found a text = more.filterMap (·.diagnostic? text)
  silent : e.call = .registerHandler → e.found a text = []
  stacked : ∀ taken, l'.reports.stacked (taken ++ e.taken) = e.note a text (l.reports.stacked taken)

theorem accounts_of_advances (read : l.HasRead a separator text passed)
    (advances : Advances a separator text l l') {call : LexCall} {answer : LexAnswer}
    (pulls : call ≠ .registerHandler) (keeps : ∀ errors, answer ≠ .errors errors) :
    ∃ more, Accounts a separator text passed more l ⟨call, answer, l.cursor, l'.cursor⟩ l' := by
  obtain ⟨more, read', reports⟩ := advances passed read
  have found := found_of_hasRead read read' (e := ⟨call, answer, l.cursor, l'.cursor⟩) rfl rfl
  refine ⟨more, read', found, fun registers => absurd registers pulls, fun taken => ?_⟩
  have nothing : (LexEvent.mk call answer l.cursor l'.cursor).taken = [] := by
    unfold LexEvent.taken
    split
    · next errors same => exact absurd same (keeps errors)
    · rfl
  rw [nothing, List.append_nil, reports, Reports.stacked_foldl_add, LexEvent.note, found]
  split
  · next registers => exact absurd registers pulls
  · rfl

/-- Calls that only move errors or handlers leave the reading where it is. -/
theorem accounts_of_still (read : l.HasRead a separator text passed) {reports : Reports}
    {call : LexCall} {answer : LexAnswer}
    (stacked : ∀ taken, reports.stacked
        (taken ++ (LexEvent.mk call answer l.cursor l.cursor).taken) =
      (LexEvent.mk call answer l.cursor l.cursor).note a text (l.reports.stacked taken)) :
    ∃ more, Accounts a separator text passed more l ⟨call, answer, l.cursor, l.cursor⟩
      { l with reports } := by
  have none : (LexEvent.mk call answer l.cursor l.cursor).found a text = [] :=
    LexEvent.found_of_still rfl
  refine ⟨[], ?_, none, fun _ => none, stacked⟩
  rw [List.append_nil]
  exact ⟨read.automaton_eq, read.separator_eq, read.text_eq, read.segments_eq, read.behind,
    read.marks_eq, read.ended⟩

theorem call_accounts (covers : terminals.Covers a) (read : l.HasRead a separator text passed)
    (call : LexCall) :
    ∃ answer l', l.call call = .ok (answer, l') ∧
      ∃ more, Accounts a separator text passed more l ⟨call, answer, l.cursor, l'.cursor⟩ l' := by
  have known : terminals.Covers l.automaton := by rwa [read.automaton_eq]
  have next : ∃ token l', l.next = .ok (token, l') ∧ Advances a separator text l l' := by
    cases finished : l.finished with
    | true =>
      refine ⟨.epsilon, l, ?_, advances_refl l⟩
      rw [Lexer.next, if_pos finished]
    | false =>
      obtain ⟨token, l', next, -, advances⟩ := next_advances finished known
      exact ⟨token, l', next, advances⟩
  cases call with
  | next =>
    obtain ⟨token, l', next, advances⟩ := next
    refine ⟨.token (some token), l', by rw [Lexer.call, next]; rfl, ?_⟩
    exact accounts_of_advances read advances (by simp) (by simp)
  | sourceNext =>
    obtain ⟨token, l', next, advances⟩ := next
    refine ⟨.token (some token), l', ?_, accounts_of_advances read advances (by simp) (by simp)⟩
    change l.next.map _ = _
    rw [next]
    rfl
  | iterNext =>
    cases finished : l.finished with
    | true =>
      refine ⟨.token none, l, ?_,
        accounts_of_advances read (advances_refl l) (by simp) (by simp)⟩
      rw [Lexer.call, next?, if_pos finished]
      rfl
    | false =>
      obtain ⟨token, l', next, advances⟩ := next
      refine ⟨.token (some token), l', ?_, accounts_of_advances read advances (by simp) (by simp)⟩
      rw [Lexer.call, next?, if_neg (by simp [finished]), next]
      rfl
  | tokenize =>
    obtain ⟨l', tokenized, -, advances⟩ := tokenize_advances known
    refine ⟨.done, l', by rw [Lexer.call, tokenized]; rfl, ?_⟩
    exact accounts_of_advances read advances (by simp) (by simp)
  | takeErrors =>
    refine ⟨.errors l.takeErrors.1, l.takeErrors.2, rfl, accounts_of_still read fun taken => ?_⟩
    rw [LexEvent.note_of_still rfl (by simp)]
    exact l.reports.stacked_take taken
  | registerHandler =>
    refine ⟨.done, l.registerHandler, rfl, accounts_of_still read fun taken => ?_⟩
    simp only [LexEvent.taken, List.append_nil]
    exact l.reports.stacked_register taken

/-! ### Call after call -/

theorem run_accounts (covers : terminals.Covers a) (read : l.HasRead a separator text passed)
    (calls : List LexCall) :
    ∃ events last more, l.run calls = .ok (events, last) ∧
      last.HasRead a separator text (passed ++ more) ∧
      events.flatMap (LexEvent.found a text) = more.filterMap (·.diagnostic? text) ∧
      (∀ e ∈ events, e.call = .registerHandler → e.found a text = []) ∧
      ∀ taken, last.reports.stacked (taken ++ events.flatMap LexEvent.taken) =
        events.foldl (LexEvent.note a text) (l.reports.stacked taken) := by
  induction calls generalizing l passed with
  | nil =>
    exact ⟨[], l, [], rfl, by rwa [List.append_nil], rfl, by simp, by simp⟩
  | cons call rest ih =>
    obtain ⟨answer, l', called, more, accounts⟩ := call_accounts covers read call
    obtain ⟨events, last, later, run, read', found, silent, stacked⟩ := ih accounts.read
    refine ⟨⟨call, answer, l.cursor, l'.cursor⟩ :: events, last, more ++ later, ?_, ?_, ?_, ?_, ?_⟩
    · rw [Lexer.run, called, ok_bind]
      show (l'.run rest >>= _) = _
      rw [run]
      rfl
    · rwa [← List.append_assoc]
    · rw [List.flatMap_cons, accounts.found, found, List.filterMap_append]
    · exact List.forall_mem_cons.mpr ⟨accounts.silent, silent⟩
    · intro taken
      rw [List.flatMap_cons, ← List.append_assoc, stacked, accounts.stacked, List.foldl_cons]

/-- Whatever the calls that bring a lexer to the end of a text, it has found the tokens that it finds
at one go. The errors that it finds at one go are those of all calls together: those from before
there was a handler were taken or are left, and every other one went to the handler that was the
latest at that time. -/
theorem schedules_agree (a : Automaton) (terminals : TerminalTable) (separator : UInt32) (text : Text)
    (covers : terminals.Covers a) (calls : List LexCall) :
    ∃ whole events last, (ofText a terminals separator text).tokenize = .ok whole ∧
      (ofText a terminals separator text).run calls = .ok (events, last) ∧
      (last.finished = true →
        last.output = whole.output ∧
        whole.takeErrors.1 = (foundInTurn a text events).flatten ∧
        (events.flatMap LexEvent.taken ++ last.takeErrors.1) ::
            last.reports.handlers.reverse.map Array.toList = foundInTurn a text events) := by
  have fresh := hasRead_ofText a terminals separator text
  obtain ⟨whole, tokenized, finished, advances⟩ :=
    @tokenize_advances terminals a separator text (ofText a terminals separator text) covers
  obtain ⟨all, read, reports⟩ := advances [] fresh
  obtain ⟨events, last, more, run, read', found, silent, stacked⟩ := run_accounts covers fresh calls
  refine ⟨whole, events, last, tokenized, run, fun ended => ⟨?_, ?_, ?_⟩⟩
  · exact output_unique read' read ended finished
  · have same : all = more :=
      (passed_of_finished read finished).trans (passed_of_finished read' ended).symm
    rw [foundInTurn, LexEvent.flatten_foldl_note (by simp) silent, found, takeErrors]
    simp only [reports, Reports.foldl_add (r := (ofText a terminals separator text).reports) rfl, same]
    rfl
  · rw [foundInTurn, ← List.reverse_eq_iff]
    refine Eq.trans ?_ (stacked [])
    simp [Reports.stacked, takeErrors, Reports.take]

theorem schedules_agree_latin :
    let text := Text.ofString "∃a∀∀b∀c∃"
    let l := ofText .latin .latin 0 text
    let calls : List LexCall := [.next, .takeErrors, .sourceNext, .registerHandler, .iterNext,
      .registerHandler, .takeErrors, .tokenize]
    ∃ whole events last, l.tokenize = .ok whole ∧ l.run calls = .ok (events, last) ∧
      last.finished = true ∧ last.output = whole.output ∧
      events.flatMap LexEvent.taken = [.unexpectedChar '∃' ⟨1, 1⟩, .unexpectedChar '∀' ⟨1, 3⟩,
        .unexpectedChar '∀' ⟨1, 4⟩] ∧
      last.reports.handlers.reverse.map Array.toList =
        [[.unexpectedChar '∀' ⟨1, 6⟩], [.unexpectedChar '∃' ⟨1, 8⟩]] := by
  intro text l calls
  obtain ⟨whole, events, last, tokenized, run, agree⟩ :=
    schedules_agree .latin .latin 0 text TerminalTable.covers_latin calls
  have ended : (l.run calls).map (fun (_, last) => last.finished) = .ok true := by decide +kernel
  have found : (l.run calls).map (fun (events, last) =>
      (foundInTurn .latin text events, last.takeErrors.1)) =
      .ok ([[.unexpectedChar '∃' ⟨1, 1⟩, .unexpectedChar '∀' ⟨1, 3⟩, .unexpectedChar '∀' ⟨1, 4⟩],
        [.unexpectedChar '∀' ⟨1, 6⟩], [.unexpectedChar '∃' ⟨1, 8⟩]], []) := by decide +kernel
  rw [run] at ended found
  obtain ⟨output, -, places⟩ := agree (Except.ok.inj ended)
  obtain ⟨turns, left⟩ := Prod.mk.inj (Except.ok.inj found)
  rw [turns, left, List.append_nil] at places
  obtain ⟨taken, handled⟩ := List.cons.inj places
  exact ⟨whole, events, last, tokenized, run, Except.ok.inj ended, output, taken, handled⟩

end Lexer

end ParseKit
