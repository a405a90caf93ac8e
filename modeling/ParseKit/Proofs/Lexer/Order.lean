import ParseKit.Proofs.Lexer.Progress

/-!
# Tokens one behind the other

A token begins where an earlier one is over, or behind that, and none goes beyond the end of the text:
`precedes_of_hasRead`, `stop_le_of_mark`.
-/

namespace ParseKit

/-- The one span starts before the other and is over when the other starts. -/
structure Span.Precedes (span later : Span) : Prop where
  starts : span.index < later.index
  stops : span.stop ≤ later.index

theorem length_le_of_tiles {a : Automaton} {start : Nat} {rest : List Char} {segments : List Segment}
    (tiles : Tiles a start rest segments) : segments.length ≤ rest.length := by
  induction segments generalizing start rest with
  | nil => exact Nat.zero_le _
  | cons s more ih =>
    have fits := (stop_le_of_tiles tiles s List.mem_cons_self).2
    have pos := s.length_pos
    have later := ih tiles.2.2
    rw [tiles.1] at fits
    rw [List.length_drop] at later
    rw [List.length_cons]
    omega

theorem precedes_of_tiles {a : Automaton} {start : Nat} {rest : List Char} {segments : List Segment}
    (tiles : Tiles a start rest segments) :
    segments.Pairwise fun s later =>
      Span.Precedes ⟨s.start, s.length⟩ ⟨later.start, later.length⟩ := by
  induction segments generalizing start rest with
  | nil => exact .nil
  | cons s more ih =>
    obtain ⟨place, -, tiles⟩ := tiles
    refine .cons (fun later member => ?_) (ih tiles)
    have behind := (stop_le_of_tiles tiles later member).1
    have pos := s.length_pos
    rw [← place] at behind
    exact ⟨Nat.lt_of_lt_of_le (Nat.lt_add_of_pos_right pos) behind, behind⟩

variable {terminals : TerminalTable}

namespace Lexer

variable {a : Automaton} {separator : UInt32} {text : Text} {l : Lexer terminals}
  {passed : List Segment}

theorem stop_le_of_hasRead (read : l.HasRead a separator text passed) :
    ∀ s ∈ passed, s.start + s.length ≤ text.size := by
  intro s member
  have whole := tiles_segmentsFrom a 0 text.chars
  have bounds := stop_le_of_tiles whole s (read.segments_eq ▸ List.mem_append_left _ member)
  rw [text.length_chars] at bounds
  omega

theorem stop_le_of_mark (read : l.HasRead a separator text passed) :
    ∀ mark ∈ l.output.marks.toList, mark.span.stop ≤ text.size := by
  intro mark member
  rw [read.marks_eq, List.mem_append] at member
  rcases member with token | last
  · obtain ⟨s, member, found⟩ := List.mem_filterMap.mp token
    obtain ⟨row, -, rfl⟩ := Option.map_eq_some_iff.mp found
    exact stop_le_of_hasRead read s member
  · split at last
    · obtain rfl := List.mem_singleton.mp last
      exact Nat.le_refl _
    · exact absurd last List.not_mem_nil

/-- The tokens found so far lie one behind the other, the end of the text after all others. -/
theorem precedes_of_hasRead (read : l.HasRead a separator text passed) :
    l.output.marks.toList.Pairwise fun mark later => mark.span.Precedes later.span := by
  have tiles := tiles_segmentsFrom a 0 text.chars
  rw [read.segments_eq] at tiles
  have ordered := (List.pairwise_append.mp (precedes_of_tiles tiles)).1
  rw [read.marks_eq, List.pairwise_append]
  refine ⟨?_, ?_, ?_⟩
  · refine ordered.filterMap _ fun s later precedes mark found mark' found' => ?_
    obtain ⟨row, -, rfl⟩ := Option.map_eq_some_iff.mp found
    obtain ⟨row', -, rfl⟩ := Option.map_eq_some_iff.mp found'
    exact precedes
  · split
    · exact List.pairwise_singleton _ _
    · exact .nil
  · intro mark token mark' last
    split at last
    · obtain rfl := List.mem_singleton.mp last
      obtain ⟨s, member, found⟩ := List.mem_filterMap.mp token
      obtain ⟨row, -, rfl⟩ := Option.map_eq_some_iff.mp found
      have fits := stop_le_of_hasRead read s member
      exact ⟨Nat.lt_of_lt_of_le (Nat.lt_add_of_pos_right s.length_pos) fits, fits⟩
    · exact absurd last List.not_mem_nil

theorem span_precedes (read : l.HasRead a separator text passed) {i j : Nat} (less : i < j)
    {span later : Span} (first : l.output.span? i = some span)
    (second : l.output.span? j = some later) : span.Precedes later := by
  have ordered := List.pairwise_iff_getElem.mp (precedes_of_hasRead read)
  obtain ⟨mark, found, rfl⟩ := Option.map_eq_some_iff.mp first
  obtain ⟨mark', found', rfl⟩ := Option.map_eq_some_iff.mp second
  rw [← Array.getElem?_toList, List.getElem?_eq_some_iff] at found found'
  obtain ⟨inside, rfl⟩ := found
  obtain ⟨inside', rfl⟩ := found'
  exact ordered i j inside inside' less

end Lexer

end ParseKit
