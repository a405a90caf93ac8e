import Mathlib.Data.List.Basic
import ParseKit.Proofs.Lexer.Segments
import ParseKit.Proofs.Text.Positions

/-!
# Reading a text to its end

The tokens and errors of a whole text are those of its segments, in order: `tokenize_tiles`.
-/

namespace ParseKit

namespace Segment

def diagnostic? (text : Text) (s : Segment) : Option Diagnostic :=
  s.stray?.map fun (start, c) => .unexpectedChar c (text.positionAt start)

end Segment

theorem stop_le_of_tiles {a : Automaton} {start : Nat} {rest : List Char} {segments : List Segment}
    (tiles : Tiles a start rest segments) :
    ∀ s ∈ segments, start ≤ s.start ∧ s.start + s.length ≤ start + rest.length := by
  induction segments generalizing start rest with
  | nil => simp
  | cons s more ih =>
    obtain ⟨place, heads, tiles⟩ := tiles
    have fits : s.length ≤ rest.length := by
      cases s with
      | hit _ m => exact heads.length_le
      | stray _ c =>
        obtain ⟨tail, rfl⟩ := List.head?_eq_some_iff.mp heads.1
        exact Nat.succ_le_succ (Nat.zero_le _)
    intro s' member
    rcases List.mem_cons.mp member with rfl | later
    · omega
    · have bounds := ih tiles s' later
      rw [List.length_drop] at bounds
      omega

/-! ### Errors without a handler -/

theorem Reports.foldl_add {r : Reports} (unhandled : r.handlers = []) (errors : List Diagnostic) :
    (errors.foldl Reports.add r).take.1 = r.take.1 ++ errors := by
  induction errors generalizing r with
  | nil => simp
  | cons e rest ih =>
    have added : r.add e = ⟨r.uncollected.push e, []⟩ := by
      cases r
      obtain rfl : _ = [] := unhandled
      rfl
    rw [List.foldl_cons, ih (by rw [added]), added]
    simp [Reports.take]

namespace Lexer

variable {terminals : TerminalTable} {l l' : Lexer terminals} {s : Segment}

/-! ### One segment -/

theorem marks_absorb (place : s.start = l.cursor) :
    (l.absorb s).output.marks.toList =
      l.output.marks.toList ++ (s.mark? terminals l.separator).toList := by
  cases s with
  | hit start m =>
    obtain rfl : start = l.cursor := place
    unfold absorb
    cases loud : (Segment.hit l.cursor m).row? terminals l.separator with
    | none => simp [Segment.mark?, loud, skip]
    | some row => simp [Segment.mark?, loud, emit, skip, Lexed.push, Segment.start, Segment.length]
  | stray start c => simp [Segment.mark?, Segment.row?, absorb, skip, report]

theorem reports_absorb (place : s.start = l.cursor) :
    (l.absorb s).reports =
      (s.diagnostic? l.output.text).toList.foldl Reports.add l.reports := by
  cases s with
  | hit start m =>
    unfold absorb
    cases (Segment.hit start m).row? terminals l.separator <;> rfl
  | stray start c =>
    obtain rfl : start = l.cursor := place
    rfl

/-! ### All segments -/

def absorbAll (l : Lexer terminals) (segments : List Segment) : Lexer terminals :=
  segments.foldl absorb l

theorem absorbAll_frame (l : Lexer terminals) (segments : List Segment) :
    (l.absorbAll segments).separator = l.separator ∧
      (l.absorbAll segments).output.text = l.output.text := by
  induction segments generalizing l with
  | nil => exact ⟨rfl, rfl⟩
  | cons s more ih =>
    obtain ⟨-, separator, -, text, -⟩ := l.absorb_frame s
    obtain ⟨separator', text'⟩ := ih (l.absorb s)
    exact ⟨separator'.trans separator, text'.trans text⟩

theorem output_absorbAll {segments : List Segment}
    (tiles : Tiles l.automaton l.cursor l.rest segments) :
    (l.absorbAll segments).output.marks.toList =
      l.output.marks.toList ++ segments.filterMap (·.mark? terminals l.separator) ∧
    (l.absorbAll segments).reports =
      (segments.filterMap (·.diagnostic? l.output.text)).foldl Reports.add l.reports := by
  induction segments generalizing l with
  | nil => simp [absorbAll]
  | cons s more ih =>
    obtain ⟨place, -, tiles⟩ := tiles
    obtain ⟨automaton, separator, -, text, cursor, rest⟩ := l.absorb_frame s
    obtain ⟨marks, reports⟩ := ih (l := l.absorb s) (by rwa [automaton, cursor, rest])
    rw [marks_absorb place, separator] at marks
    rw [reports_absorb place, text] at reports
    constructor
    · refine marks.trans ?_
      cases mark : s.mark? terminals l.separator <;> simp [mark]
    · refine reports.trans ?_
      cases error : s.diagnostic? l.output.text <;> simp [error]

/-! ### To the end -/

theorem collect_of_finished (finished : l.finished = true) : l.collect = .ok ([], l) := by
  rw [collect, dif_pos finished]

theorem collect_of_unfinished (unfinished : l.finished = false) :
    l.collect = l.next.bind fun (token, l') =>
      l'.collect.map fun (tokens, last) => (token :: tokens, last) := by
  rw [collect, dif_neg (by simp [unfinished])]
  split <;> next step => rw [step]; rfl

theorem collect_segments (unfinished : l.finished = false) (covers : terminals.Covers l.automaton) :
    ∃ tokens, l.collect = .ok (tokens, (l.absorbAll l.segments).finish) := by
  induction h : l.segments generalizing l with
  | nil =>
    refine ⟨[l.tokenOf terminals.dollar], ?_⟩
    rw [collect_of_unfinished unfinished, next_of_end unfinished h]
    change l.finish.collect.map _ = _
    rw [collect_of_finished rfl]
    rfl
  | cons s more ih =>
    obtain ⟨automaton, -, finished, -⟩ := l.absorb_frame s
    have unfinished' : (l.absorb s).finished = false := by rw [finished, unfinished]
    obtain ⟨tokens, rest⟩ := ih unfinished' (by rwa [automaton]) (segments_absorb h)
    cases loud : s.row? terminals l.separator with
    | none =>
      refine ⟨tokens, ?_⟩
      rw [collect_of_unfinished unfinished, next_of_silent unfinished covers h loud,
        ← collect_of_unfinished unfinished', rest]
      rfl
    | some row =>
      refine ⟨l.tokenOf row :: tokens, ?_⟩
      rw [collect_of_unfinished unfinished, next_of_token unfinished h loud]
      change (l.absorb s).collect.map _ = _
      rw [rest]
      rfl

/-- Read to its end, a text gives the tokens and the errors of its segments. -/
theorem tokenize_tiles (a : Automaton) (terminals : TerminalTable) (separator : UInt32) (text : Text)
    (covers : terminals.Covers a) (short : text.size < UInt32.size - 1) :
    ∃ segments l, (∀ other, Tiles a 0 text.chars other ↔ other = segments) ∧
      (ofText a terminals separator text).tokenize = .ok l ∧ l.finished = true ∧
      l.output.marks.toList =
        segments.filterMap (·.mark? terminals separator) ++ [⟨terminals.dollar, ⟨text.size, 0⟩⟩] ∧
      l.takeErrors.1.map some = (segments.filterMap Segment.stray?).map fun (index, c) =>
        (text.locate? index).map (.unexpectedChar c) := by
  let l := ofText a terminals separator text
  obtain ⟨tokens, collected⟩ := collect_segments (l := l) rfl covers
  have tiles := l.tiles_segments
  obtain ⟨marks, reports⟩ := output_absorbAll tiles
  obtain ⟨-, sameText⟩ := l.absorbAll_frame l.segments
  refine ⟨l.segments, (l.absorbAll l.segments).finish, fun other => tiles_iff, ?_, rfl, ?_, ?_⟩
  · rw [tokenize, collected]
    rfl
  · simp only [finish, Lexed.push, Array.toList_push, marks, sameText]
    rfl
  · have errors : (l.absorbAll l.segments).finish.takeErrors.1 =
        l.segments.filterMap (·.diagnostic? text) := by
      rw [takeErrors]
      change (l.absorbAll l.segments).reports.take.1 = _
      rw [reports, Reports.foldl_add rfl]
      rfl
    rw [errors, List.map_filterMap, List.map_filterMap]
    apply List.filterMap_congr
    intro s member
    obtain ⟨-, stop⟩ := stop_le_of_tiles tiles s member
    cases s with
    | hit => rfl
    | stray start c =>
      have inside : start + 1 ≤ text.size := by
        simpa [Segment.start, Segment.length, l, ofText, Text.length_chars] using stop
      have located : text.locate? start = some (text.positionAt start) :=
        Text.locate?_eq (by simp only [wordLimit, UInt64.size, UInt32.size] at short ⊢; omega)
      simp [Segment.diagnostic?, Segment.stray?, located]

end Lexer

/-! ### A text with both kinds of segments -/

def CellTable.latin : CellTable := ⟨Array.replicate 3 0, Array.replicate 265 2⟩

theorem CellTable.cell_latin (i : Nat) : CellTable.latin.cell i = if i < 265 then 2 else 0 := by
  rw [cell, latin, Array.getD_eq_getD_getElem?, Array.getElem?_replicate]
  split <;> rfl

theorem CellTable.offset_latin (s : Fin CellTable.latin.stateCount) :
    CellTable.latin.offset s = 0 :=
  Array.getElem_replicate _

def Automaton.latin : Automaton where
  table := .latin
  nonempty := by decide
  fits := by
    intro s
    rw [CellTable.offset_latin]
    decide +kernel
  closed := by
    intro s target member _
    have small (i : Nat) : (CellTable.latin.cell i).toNat < CellTable.latin.stateCount := by
      rw [CellTable.cell_latin]
      split <;> decide
    rcases List.mem_append.mp member with direct | range
    · obtain ⟨_, -, rfl⟩ := List.mem_map.mp direct
      exact small _
    · obtain ⟨_, -, rfl⟩ := List.mem_map.mp range
      exact small _

def TerminalTable.latin : TerminalTable := ⟨#[⟨1, "ε"⟩, ⟨2, "$"⟩, ⟨9, "run"⟩], by decide⟩

theorem TerminalTable.covers_latin : TerminalTable.latin.Covers Automaton.latin := by
  intro s number recognized
  have cell : Automaton.latin.terminal? s = some 2 := by
    have front : Automaton.latin.start s = 0 := congrArg UInt32.toNat (CellTable.offset_latin s)
    rw [Automaton.terminal?, Automaton.fixedCell_eq_cell, front]
    decide +kernel
  rw [cell] at recognized
  cases recognized
  decide

namespace Lexer

theorem tokenize_tiles_latin :
    let text := Text.ofString "aa∀a"
    let segments : List Segment :=
      [.hit 0 ⟨2, 2, by decide⟩, .stray 2 '∀', .hit 3 ⟨2, 1, by decide⟩]
    Tiles .latin 0 text.chars segments ∧
      ∃ l : Lexer .latin, (ofText .latin .latin 0 text).tokenize = .ok l ∧
        l.output.marks.toList =
          [⟨⟨2, by decide⟩, ⟨0, 2⟩⟩, ⟨⟨2, by decide⟩, ⟨3, 1⟩⟩, ⟨⟨1, by decide⟩, ⟨4, 0⟩⟩] ∧
        l.takeErrors.1.map some = [(text.locate? 2).map (.unexpectedChar '∀')] := by
  intro text segments
  have tiles : Tiles .latin 0 text.chars segments := by
    refine ⟨rfl, Automaton.matchFrom_eq_some_iff.mp (by decide +kernel), rfl,
      ⟨rfl, Automaton.matchFrom_eq_none_iff.mp (by decide +kernel)⟩, rfl,
      Automaton.matchFrom_eq_some_iff.mp (by decide +kernel), rfl⟩
  obtain ⟨_, l, only, lexed, -, marks, errors⟩ :=
    tokenize_tiles .latin .latin 0 text TerminalTable.covers_latin (by decide)
  obtain rfl := (only _).mp tiles
  exact ⟨tiles, l, lexed, marks, errors⟩

end Lexer

end ParseKit
