import Linewise.Grammar.Comments
import Linewise.Grammar.Heredoc
import Linewise.Grammar.Spaces
import Linewise.Grammar.Words
import Linewise.Proofs.Document.Aligned
import Linewise.Proofs.Document.Convergence
import Linewise.Proofs.Document.Coverage
import Linewise.Proofs.Document.EmptyLines
import Linewise.Proofs.Document.Moving
import Linewise.Proofs.Document.Ranges
import Linewise.Proofs.Document.Tokens
import Linewise.Proofs.Document.Widths
import Linewise.Proofs.Session.Handles
import Linewise.Proofs.Session.Naming
import Linewise.Proofs.Session.Registrations
import Linewise.Proofs.Session.Telling
import Linewise.Proofs.Text.Canonical
import Linewise.Proofs.Text.Subviews
import Linewise.Proofs.Tokenizer.Emitting
