import Braced.Target.OfTree
import Braced.Token.Scan
import Braced.Tree.OfTokens

/-!
# Braced.Compile

From the bytes of a source to a tree that is fit to be written out.

A source with a lexical fault is not read any further, so that fault is alone.
Of the other faults all are found. Only a tree without any is handed on.
-/

namespace Braced.Tree

/-- The tree of a list of tokens, or else all that is wrong with them. -/
def ofTokens? (tokens : List Token) : Except (List Diagnostic) Tree :=
  match ofTokens tokens with
  | (tree, []) => .ok tree
  | (_, diagnostics) => .error diagnostics

/-- The tree of a source, or else all that is wrong with it. -/
def ofSource (lx : Lexicon) (source : List UInt8) : Except (List Diagnostic) Tree :=
  match Token.ofSource lx source with
  | .ok tokens => ofTokens? tokens
  | .error d => .error [d]

end Braced.Tree
