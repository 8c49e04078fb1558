import Little.Command
import Little.Main
import Little.Parsing
import Little.Proofs.Lexing.Spans
import Little.Proofs.Parsing.Exact
import Little.Proofs.Parsing.Faults
import Little.Proofs.Parsing.Trail
import Little.Proofs.Program.Agreement
import Little.Proofs.Program.Layout
import Little.Proofs.Scope.Listing
import Little.Proofs.Scope.Returning
import Little.Proofs.Scope.Safety
import Little.Proofs.Scope.Sections
import Little.Scope.Trace
import Little.SourceFile
import Little.Tree.Access
import Little.Tree.Occurrence
import Little.Workbench
import Little.Proofs.Grammar.Viable
import Little.Proofs.Parsing.Order
import Little.Proofs.Parsing.Viable
import Little.Proofs.Parsing.Passing
import Little.Proofs.Parsing.DeadEnd
import Little.Proofs.Workbench.History
import Little.Proofs.Scope.Gains
import Little.Proofs.Lexing.Munching
import Little.Proofs.Parsing.Ending
import Little.Proofs.Scope.Blame
import Little.Proofs.Command.Endings
import Little.Proofs.Scope.Covering
import Little.Proofs.Scope.Handles
import Little.Proofs.Workbench.Loading
