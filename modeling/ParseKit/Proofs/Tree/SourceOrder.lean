import ParseKit.Proofs.Lexer.Order
import ParseKit.Proofs.Lexer.Schedules
import ParseKit.Proofs.Text.Positions
import ParseKit.Proofs.Tree.Preorder
import ParseKit.Tree.View

/-!
# Trees in the order of their text

The tokens of a text lie one behind the other. If a block stages them in this order, a walk through
the committed block meets them as they stand in the text: `commit_follows_text`. In a graph that is
full, the walk goes astray: `commit_strays_from_text`.
-/

namespace ParseKit

/-- The token that a label points to. -/
def Label.token? (label : Label) : Option Nat :=
  if label.kind = .token then some label.index else none

/-- The tokens that a block points to, as they are staged. -/
def Block.tokens (block : Block) : List Nat :=
  block.listing.filterMap fun entry => entry.label.token?

variable {terminals : TerminalTable}

/-- The nodes are listed as the text goes: each token node has a lexeme, which holds the characters of
its span, and the next token node lies behind it. -/
structure View.FollowsText (v : View terminals) (text : Text) (ids : List NodeId) : Prop where
  tokens : ∀ id ∈ ids, ∃ label, v.tree.label id = .ok label ∧ (label.kind = .token →
    ∃ lexeme span position, v.symbol id = .ok (some (.token lexeme)) ∧
      v.span id = .ok (some span) ∧ v.position id = .ok (some position) ∧
      span.stop ≤ text.size ∧
      lexeme.value.toList = (text.chars.drop span.index).take span.length)
  spans : ids.Pairwise fun id later => ∀ span span', v.span id = .ok (some span) →
    v.span later = .ok (some span') → span.Precedes span'
  positions : ids.Pairwise fun id later => ∀ position position',
    v.position id = .ok (some position) → v.position later = .ok (some position') →
      position < position'

/-! ### Tokens of a text -/

theorem Text.valueOf?_eq (t : Text) {span : Span} (fits : span.stop ≤ t.size) :
    t.valueOf? span = some (.ofList ((t.chars.drop span.index).take span.length)) := by
  rw [Span.stop] at fits
  rw [valueOf?, value?, t.slice?_eq fits, Option.map_some]

namespace Lexer

variable {a : Automaton} {separator : UInt32} {text : Text} {l : Lexer terminals}
  {passed : List Segment}

theorem position_lt (read : l.HasRead a separator text passed) {i j : Nat} (less : i < j)
    {position later : Position} (first : l.output.position? i = some position)
    (second : l.output.position? j = some later) : position < later := by
  obtain ⟨span, found, rfl⟩ := Option.map_eq_some_iff.mp first
  obtain ⟨span', found', rfl⟩ := Option.map_eq_some_iff.mp second
  exact l.output.text.positionAt_lt (span_precedes read less found found').starts

theorem exists_lexeme (read : l.HasRead a separator text passed) {i : Nat}
    (known : i < l.output.tokenCount) :
    ∃ lexeme span, l.output.lexeme? i = some lexeme ∧ l.output.span? i = some span ∧
      span.stop ≤ text.size ∧
      lexeme.value.toList = (text.chars.drop span.index).take span.length := by
  have found : l.output.marks[i]? = some l.output.marks[i] := Array.getElem?_eq_getElem known
  have fits := stop_le_of_mark read _ (Array.getElem_mem_toList known)
  have value := l.output.text.valueOf?_eq (read.text_eq ▸ fits)
  have span : l.output.span? i = some l.output.marks[i].span := by
    rw [Lexed.span?, found, Option.map_some]
  have terminal : l.output.terminal? i = some l.output.marks[i].symbol := by
    rw [Lexed.terminal?, found, Option.map_some]
  have lexeme : l.output.lexeme? i = some ⟨l.output.marks[i].symbol, .ofList
      ((l.output.text.chars.drop l.output.marks[i].span.index).take
        l.output.marks[i].span.length)⟩ := by
    simp [Lexed.lexeme?, terminal, span, value]
  refine ⟨_, _, lexeme, span, fits, ?_⟩
  rw [String.toList_ofList, read.text_eq]

end Lexer

/-! ### Token nodes -/

namespace View

variable {v : View terminals} {id : NodeId} {label : Label}

theorem ofToken_eq_some {α : Type} {read : Nat → Option α} {x : α} :
    v.ofToken id read = .ok (some x) ↔
      ∃ label index, v.tree.label id = .ok label ∧ label.token? = some index ∧
        read index = some x := by
  simp only [ofToken, bind_eq_ok, Label.token?]
  refine exists_congr fun label => ?_
  by_cases token : label.kind = .token
  · simp only [if_pos token, bind_eq_ok, inBounds_eq_ok, pure_eq_ok, Option.some.injEq]
    simp
  · simp [token, pure_eq_ok]

theorem symbol_of_token (labelled : v.tree.label id = .ok label) (token : label.kind = .token)
    {lexeme : Lexeme} (found : v.text.lexeme? label.index = some lexeme) :
    v.symbol id = .ok (some (.token lexeme)) := by
  simp only [symbol, labelled, ok_bind, token, found, inBounds_some]
  rfl

end View

/-! ### Listed nodes -/

section

variable {α β : Type} {f : α → Except Violation β} {xs : List α} {ys : List β}

theorem map_eq_of_mapM (read : xs.mapM f = .ok ys) : xs.map f = ys.map .ok := by
  rw [← List.forall₂_eq_eq_eq, List.forall₂_map_left_iff, List.forall₂_map_right_iff]
  exact SyntaxTree.mapM_eq_ok.mp read

theorem pairwise_of_mapM (read : xs.mapM f = .ok ys) {R : β → β → Prop} (related : ys.Pairwise R) :
    xs.Pairwise fun x x' => ∀ y y', f x = .ok y → f x' = .ok y' → R y y' := by
  have results : (xs.map f).Pairwise fun z z' => ∀ y y', z = .ok y → z' = .ok y' → R y y' := by
    rw [map_eq_of_mapM read, List.pairwise_map]
    refine related.imp fun both y y' same same' => ?_
    rwa [← Except.ok.inj same, ← Except.ok.inj same']
  exact List.pairwise_map.mp results

end

namespace Block

theorem tokens_eq (block : Block) :
    block.tokens = (block.listing.map Entry.label).filterMap Label.token? := by
  rw [List.filterMap_map]
  rfl

theorem inserted_sublist (block : Block) :
    List.Sublist block.inserted (block.listing.map Entry.label) :=
  List.filter_sublist.map _

theorem mem_tokens_of_inserted {block : Block} {label : Label} (member : label ∈ block.inserted)
    {index : Nat} (token : label.token? = some index) : index ∈ block.tokens := by
  rw [tokens_eq, List.mem_filterMap]
  exact ⟨label, block.inserted_sublist.subset member, token⟩

theorem inserted_ordered {block : Block} (ordered : block.tokens.Pairwise (· < ·)) :
    block.inserted.Pairwise fun label later => ∀ i, label.token? = some i →
      ∀ j, later.token? = some j → i < j := by
  rw [tokens_eq, List.pairwise_filterMap] at ordered
  exact ordered.sublist block.inserted_sublist

end Block

namespace View

variable {a : Automaton} {separator : UInt32} {text : Text} {l : Lexer terminals}
  {passed : List Segment}

theorem followsText_of_labels (read : l.HasRead a separator text passed) (grammar : Grammar)
    {t : SyntaxTree} {ids : List NodeId} {labels : List Label}
    (labelled : ids.mapM t.label = .ok labels)
    (known : ∀ label ∈ labels, ∀ i, label.token? = some i → i < l.output.tokenCount)
    (ordered : labels.Pairwise fun label later => ∀ i, label.token? = some i →
      ∀ j, later.token? = some j → i < j) :
    FollowsText ⟨grammar, l.output, t⟩ text ids := by
  have pairs := pairwise_of_mapM labelled ordered
  constructor
  · intro id member
    have result : t.label id ∈ labels.map .ok := by
      rw [← map_eq_of_mapM labelled]
      exact List.mem_map_of_mem member
    obtain ⟨label, member, same⟩ := List.mem_map.mp result
    refine ⟨label, same.symm, fun token => ?_⟩
    have index : label.token? = some label.index := if_pos token
    obtain ⟨lexeme, span, found, place, fits, value⟩ :=
      Lexer.exists_lexeme read (known label member _ index)
    refine ⟨lexeme, span, l.output.text.positionAt span.index,
      symbol_of_token same.symm token found, ?_, ?_, fits, value⟩
    · exact ofToken_eq_some.mpr ⟨label, _, same.symm, index, place⟩
    · refine ofToken_eq_some.mpr ⟨label, _, same.symm, index, ?_⟩
      rw [Lexed.position?, place, Option.map_some]
  · refine pairs.imp fun less span span' first second => ?_
    obtain ⟨label, i, labelled, token, found⟩ := ofToken_eq_some.mp first
    obtain ⟨label', j, labelled', token', found'⟩ := ofToken_eq_some.mp second
    exact Lexer.span_precedes read (less _ _ labelled labelled' i token j token') found found'
  · refine pairs.imp fun less position position' first second => ?_
    obtain ⟨label, i, labelled, token, found⟩ := ofToken_eq_some.mp first
    obtain ⟨label', j, labelled', token', found'⟩ := ofToken_eq_some.mp second
    exact Lexer.position_lt read (less _ _ labelled labelled' i token j token') found found'

end View

/-! ### Committing -/

namespace Staging

/-- Whatever the calls by which a text was read: if a block stages some of the tokens found so far, in
their order, the walk through the committed block follows the text. -/
theorem commit_follows_text (a : Automaton) (terminals : TerminalTable) (separator : UInt32)
    (text : Text) (covers : terminals.Covers a) (calls : List LexCall) :
    ∃ events l, (Lexer.ofText a terminals separator text).run calls = .ok (events, l) ∧
      ∀ label children, (Block.node label .insert children).Narrow →
        (∀ index ∈ (Block.node label .insert children).tokens, index < l.output.tokenCount) →
        (Block.node label .insert children).tokens.Pairwise (· < ·) →
        ∀ (t : SyntaxTree) (grammar : Grammar), ∃ id t',
          (ofBlock (.node label .insert children)).commit t = .ok (id, t') ∧ t'.root = some id ∧
          (t'.Numbered → ∃ ids, (∀ other, t'.Preorder id other ↔ other = ids) ∧
            ids.mapM t'.label = .ok (Block.node label .insert children).inserted ∧
            View.FollowsText ⟨grammar, l.output, t'⟩ text ids) := by
  have fresh := Lexer.hasRead_ofText a terminals separator text
  obtain ⟨events, l, _, run, read, -⟩ := Lexer.run_accounts covers fresh calls
  refine ⟨events, l, run, fun label children narrow known ordered t grammar => ?_⟩
  obtain ⟨id, t', committed, root, walk⟩ := commit_preorder narrow t
  refine ⟨id, t', committed, root, fun numbered => ?_⟩
  obtain ⟨ids, only, labelled⟩ := walk numbered
  refine ⟨ids, only, labelled, View.followsText_of_labels read grammar labelled ?_ ?_⟩
  · exact fun label member i token => known i (Block.mem_tokens_of_inserted member token)
  · exact Block.inserted_ordered ordered

theorem commit_follows_text_latin :
    let text := Text.ofString "aa∀a"
    let l := Lexer.ofText .latin .latin 0 text
    let block := Block.node ⟨0x80000000⟩ .insert
      [.node ⟨0x40000000⟩ .insert [], .node ⟨0xC0000000⟩ .replace
        [.node ⟨0x40000001⟩ .insert [], .node ⟨0xC0000001⟩ .insert []],
        .node ⟨0x40000002⟩ .insert []]
    let grammar : Grammar := ⟨#[⟨5, "list"⟩], #[⟨6, "glue"⟩, ⟨7, "mark"⟩]⟩
    ∃ events last id t' ids, l.run [.next, .takeErrors, .tokenize] = .ok (events, last) ∧
      (ofBlock block).commit .emptyGraph = .ok (id, t') ∧ t'.Preorder id ids ∧
      ids.mapM t'.label =
        .ok [⟨0x80000000⟩, ⟨0x40000000⟩, ⟨0x40000001⟩, ⟨0xC0000001⟩, ⟨0x40000002⟩] ∧
      View.FollowsText ⟨grammar, last.output, t'⟩ text ids := by
  intro text l block grammar
  obtain ⟨events, last, run, follows⟩ := commit_follows_text .latin .latin 0 text
    TerminalTable.covers_latin [.next, .takeErrors, .tokenize]
  have count : (l.run [.next, .takeErrors, .tokenize]).map
      (fun (_, last) => last.output.tokenCount) = .ok 3 := by decide +kernel
  rw [run] at count
  have found : last.output.tokenCount = 3 := Except.ok.inj count
  obtain ⟨id, t', committed, -, walk⟩ := follows _ _ (Block.narrow_of_size block (by decide))
    (by rw [found]; decide) (by decide) .emptyGraph grammar
  have numbered : t'.Numbered := by
    obtain rfl := congrArg Prod.snd (Except.ok.inj committed)
    decide
  obtain ⟨ids, only, labels, follows⟩ := walk numbered
  exact ⟨events, last, id, t', ids, run, committed, (only ids).mpr rfl, labels, follows⟩

/-- In a graph whose list of children has 2^32 entries, all for the node of the first token, a new parent
finds this node in the places of both its children, and the second token is not met at all. -/
theorem commit_strays_from_text :
    let text := Text.ofString "aa"
    let block := Block.node ⟨0x80000000⟩ .insert [.leaf ⟨0x40000000⟩, .leaf ⟨0x40000001⟩]
    let grammar : Grammar := ⟨#[⟨5, "list"⟩], #[]⟩
    let full : SyntaxTree := ⟨.graph (.replicate UInt32.size ⟨0⟩), #[.leaf ⟨0x40000000⟩], none⟩
    TerminalTable.latin.Covers .latin ∧ block.tokens = [0, 1] ∧
      ∃ events l id t', (Lexer.ofText .latin .latin 0 text).run [.tokenize] = .ok (events, l) ∧
        l.output.tokenCount = 2 ∧ (ofBlock block).commit full = .ok (id, t') ∧
        t'.root = some id ∧ t'.nodeCount = 4 ∧ t'.Preorder id [id, ⟨0⟩, ⟨0⟩] ∧
        ¬ View.FollowsText ⟨grammar, l.output, t'⟩ text [id, ⟨0⟩, ⟨0⟩] := by
  intro text block grammar full
  obtain ⟨events, l, _, run, -⟩ := Lexer.run_accounts TerminalTable.covers_latin
    (Lexer.hasRead_ofText .latin .latin 0 text) [.tokenize]
  have count : ((Lexer.ofText .latin .latin 0 text).run [.tokenize]).map
      (fun (_, last) => last.output.tokenCount) = .ok 2 := by decide +kernel
  rw [run] at count
  obtain ⟨id, t', committed, root, total, -, grown, children⟩ :=
    commit_of_full (t := full) rfl Array.size_replicate ⟨0x80000000⟩
      [⟨0x40000000⟩, ⟨0x40000001⟩] (by decide)
  rw [Array.toList_replicate, List.take_replicate] at children
  have stored : t'.cell ⟨0⟩ = .ok (.leaf ⟨0x40000000⟩) :=
    SyntaxTree.cell_of_extends grown rfl
  have walk : t'.Preorder id [id, ⟨0⟩, ⟨0⟩] := by
    refine SyntaxTree.preorder_of_leaves children fun child member => ?_
    obtain rfl : child = ⟨0⟩ := by simpa using member
    exact SyntaxTree.children_eq_ok.mpr ⟨_, stored, rfl, fun _ h => absurd h (Nat.not_lt_zero _)⟩
  refine ⟨TerminalTable.covers_latin, by decide, events, l, id, t', run, Except.ok.inj count,
    committed, root, total, walk, fun follows => ?_⟩
  obtain ⟨label, labelled, tokens⟩ := follows.tokens ⟨0⟩ (by simp)
  obtain rfl : ⟨0x40000000⟩ = label := by
    rw [SyntaxTree.label, stored] at labelled
    exact Except.ok.inj labelled
  obtain ⟨_, span, _, -, found, -⟩ := tokens (by decide)
  -- The two places of the node would have to follow one another.
  have twice := (List.pairwise_cons.mp (List.pairwise_cons.mp follows.spans).2).1 ⟨0⟩ (by simp)
  exact absurd (twice span span found found).starts (Nat.lt_irrefl _)

end Staging

end ParseKit
