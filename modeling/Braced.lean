import Braced.Position
import Braced.Text.Utf8
import Braced.Text.Blank
import Braced.Text.Escape
import Braced.Binary64.Shortest
import Braced.Lexicon
import Braced.Diagnostic
import Braced.Cursor
import Braced.Token.Scan
import Braced.Diagnostic.Snippet
import Braced.Scope
import Braced.Tree.RuleBook
import Braced.Tree.OfTokens
import Braced.Compile
import Braced.Command.Run
import Braced.Main
import Braced.Proofs.Parse.Ensures
import Braced.Proofs.Parse.Keeps
import Braced.Proofs.Parse.Extends
import Braced.Proofs.Parse.Upcoming
import Braced.Proofs.Parse.Enough
import Braced.Proofs.Parse.Stays
import Braced.Proofs.Scope.Chain
import Braced.Proofs.Scope.Resolve
import Braced.Proofs.Parse.Reads
import Braced.Proofs.Parse.Expression
import Braced.Proofs.Parse.Statement
import Braced.Proofs.Parse.Program
import Braced.Proofs.Parse.Places
import Braced.Proofs.Parse.Owns
import Braced.Proofs.Target.Emits
import Braced.Proofs.Tree.Write
import Braced.Proofs.Tree.Owned
import Braced.Proofs.Token.Fits
import Braced.Proofs.Tree.RoundTrip
import Braced.Proofs.Grammar
import Braced.Proofs.Grammar.Rules
import Braced.Proofs.Grammar.Sound
import Braced.Proofs.Grammar.Takes
import Braced.Proofs.Grammar.Expression
import Braced.Proofs.Grammar.Statement
import Braced.Proofs.Grammar.Exact
import Braced.Proofs.Token.Munch
import Braced.Proofs.Token.Longest
import Braced.Proofs.Token.Resume
import Braced.Proofs.Token.Literal
import Braced.Proofs.Token.Runs
import Braced.Proofs.Position
import Braced.Proofs.Token.Scan
import Braced.Proofs.Scope.Surroundings
import Braced.Proofs.Scope.Around
import Braced.Proofs.Tree.Uses
import Braced.Proofs.Parse.Binds
import Braced.Proofs.Parse.Resolves
import Braced.Proofs.Target.Occurrences
import Braced.Proofs.Target.Binding
import Braced.Proofs.Token.Places
import Braced.Proofs.Token.LineEnds
import Braced.Proofs.Token.Comments
import Braced.Proofs.Token.Reread
import Braced.Proofs.Parse.Below
import Braced.Proofs.Parse.Progress
import Braced.Proofs.Tree.Tables
import Braced.Proofs.Parse.Shows
import Braced.Proofs.Parse.Tables
import Braced.Proofs.Compile
import Braced.Proofs.Target.FileScope
import Braced.Proofs.Parse.Directives
import Braced.Proofs.Target.Layout
import Braced.Proofs.Parse.Follows
import Braced.Proofs.Parse.Named
import Braced.Proofs.Parse.Undeclared
import Braced.Proofs.Parse.Callees
import Braced.Proofs.Text.Lines
import Braced.Proofs.Diagnostic
import Braced.Proofs.Parse.Spares
import Braced.Proofs.Parse.Size
import Braced.Proofs.Tree.Denotes
import Braced.Proofs.Parse.Forms
import Braced.Proofs.Parse.Depth
import Braced.Proofs.Parse.Abandons
import Braced.Proofs.Tree.Jumps
import Braced.Proofs.Parse.Loops
import Braced.Proofs.Parse.Local
import Braced.Proofs.Parse.Spans
import Braced.Proofs.Parse.Unclosed
import Braced.Proofs.Parse.Closes
import Braced.Proofs.Target.Literal
import Braced.Proofs.Target.Shape
import Braced.Proofs.Target.ReadBack
import Braced.Proofs.Target.Fraction
import Braced.Proofs.Target.Structure
import Braced.Proofs.Target.Names
import Braced.Proofs.Target.Unambiguous
import Braced.Proofs.Command.Run
import Braced.Proofs.Scope.Table
import Braced.Proofs.Scope.Walk
import Braced.Proofs.Text.Utf8
import Braced.Proofs.Lexicon
import Braced.Proofs.Diagnostic.Mark
