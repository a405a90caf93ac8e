import ParseKit.Automaton.Decode
import ParseKit.Automaton.Draft
import ParseKit.Datum
import ParseKit.Lexer.Source
import ParseKit.Outcome
import ParseKit.Proofs.Automaton.Bare
import ParseKit.Proofs.Automaton.Format
import ParseKit.Proofs.Automaton.Realization
import ParseKit.Proofs.Lexer.Tiling
import ParseKit.Proofs.Stream.Tape
import ParseKit.Proofs.Tree.Graph
import ParseKit.Proofs.Tree.Layouts
import ParseKit.Proofs.Tree.Splicing
import ParseKit.Resource.Loader
import ParseKit.Tree.Staging
import ParseKit.Proofs.Lexer.Progress
import ParseKit.Proofs.Lexer.Schedules
import ParseKit.Proofs.Automaton.CodeUnits
import ParseKit.Proofs.Text.Excerpts
import ParseKit.Proofs.Tree.Preorder
import ParseKit.Proofs.Tree.Accounting
import ParseKit.Proofs.Tree.SourceOrder
import ParseKit.Proofs.Tree.Strides
import ParseKit.Proofs.Automaton.Journal
import ParseKit.Proofs.Automaton.Precedence
import ParseKit.Proofs.Tree.FirstBlock
import ParseKit.Proofs.Lexer.Recording
import ParseKit.Proofs.Tree.Labels
import ParseKit.Proofs.Tree.Assembly
import ParseKit.Proofs.Automaton.Lookahead
import ParseKit.Proofs.Text.Decoding
