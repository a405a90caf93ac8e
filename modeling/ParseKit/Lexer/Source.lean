import ParseKit.Lexer.Basic
import ParseKit.Stream

/-!
A lexer as a source of tokens for a stream.
-/

namespace ParseKit

instance {terminals : TerminalTable} : TokenSource (Lexer terminals) := ⟨Lexer.next⟩

end ParseKit
