import Calx.Main
import Calx.Diagnostic.Message
import Calx.Proofs.Grammar.Reparse
import Calx.Proofs.Eval.BigStep
import Calx.Proofs.Token.Slice
import Calx.Proofs.Token.Cursor
import Calx.Proofs.Grammar.Coverage
import Calx.Proofs.Grammar.Ending
import Calx.Proofs.Diagnostic.Message
import Calx.Proofs.Grammar.Blame
import Calx.Proofs.Session.Line
import Calx.Proofs.Session.Transcript
import Calx.Proofs.Eval.Locality
import Calx.Proofs.Eval.Origin
import Calx.Proofs.Session.Limit
import Calx.Proofs.Session.Mode
import Calx.Proofs.Session.Origin
import Calx.Proofs.Grammar.Join
import Calx.Proofs.Session.Join
import Calx.Proofs.Grammar.Flat
import Calx.Proofs.Text.Utf8
import Calx.Proofs.CommandLine.Show
import Calx.Proofs.CommandLine.Source
import Calx.Proofs.Number.Spelled
import Calx.Proofs.Token.Lexeme
import Calx.Proofs.Session.Quoted
import Calx.Proofs.Grammar.Balance
import Calx.Proofs.Diagnostic.Found
import Calx.Proofs.Diagnostic.Hint
import Calx.Proofs.Grammar.Whole
import Calx.Proofs.Grammar.Ordered
import Calx.Proofs.Number.Sign
import Calx.Proofs.Grammar.Enclosed
import Calx.Proofs.Session.Printed
import Calx.Proofs.Session.Shown
import Calx.Proofs.Eval.Preorder
import Calx.Proofs.Environment.Answers
import Calx.Proofs.Environment.History
