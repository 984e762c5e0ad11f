import DeskCalc.Grammar
import DeskCalc.Main
import DeskCalc.Proofs.Grammar.Completeness
import DeskCalc.Proofs.Grammar.Soundness
import DeskCalc.Proofs.Expr.Rebuild
import DeskCalc.Proofs.Grammar.Agreement
import DeskCalc.Proofs.Canonical.Passes
import DeskCalc.Proofs.Canonical.Idempotence
import DeskCalc.Proofs.Number.Bits
import DeskCalc.Proofs.Number.Nearest
import DeskCalc.Proofs.Number.Stability
import DeskCalc.Proofs.Session.Run
import DeskCalc.Proofs.Number.Finite
import DeskCalc.Proofs.Number.ReadBack
import DeskCalc.Proofs.Token.Literal
import DeskCalc.Proofs.Answer.Substitution
import DeskCalc.Proofs.Expr.Atoms
import DeskCalc.Proofs.Expr.Printing
import DeskCalc.Proofs.Admission.Words
import DeskCalc.Proofs.Answer.Typed
import DeskCalc.Proofs.Answer.Insertion
import DeskCalc.Proofs.Answer.Composition
import DeskCalc.Proofs.Session.Firewall
import DeskCalc.Proofs.Session.Replay
import DeskCalc.Proofs.Session.Recall
import DeskCalc.Proofs.Expr.Finite
import DeskCalc.Proofs.Session.Finite
import DeskCalc.Proofs.Canonical.Marks
import DeskCalc.Proofs.Session.Marks
import DeskCalc.Proofs.Session.Limits
import DeskCalc.Proofs.CommandLine.Conversation
import DeskCalc.Proofs.Session.Insertion
import DeskCalc.Proofs.Session.LetterCase
import DeskCalc.Proofs.Grammar.Prefix
import DeskCalc.Proofs.Token.Spelling
import DeskCalc.Proofs.Canonical.Percentage
import DeskCalc.Proofs.Number.Faithful
import DeskCalc.Proofs.Expr.Faults
import DeskCalc.Proofs.Postfix.GuardedStack
import DeskCalc.Proofs.Canonical.NormalForm
import DeskCalc.Proofs.Number.Elementary
