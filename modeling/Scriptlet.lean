import Scriptlet.Main
import Scriptlet.Proofs.Session.Rejected
import Scriptlet.Proofs.Session.Rename
import Scriptlet.Proofs.Session.Numbers
import Scriptlet.Proofs.Session.Echo
import Scriptlet.Proofs.Grammar.Reread
import Scriptlet.Proofs.Grammar.Outline
import Scriptlet.Proofs.Heap.Bisimilar
import Scriptlet.Proofs.Command.Outline
import Scriptlet.Proofs.Grammar.Chunks
import Scriptlet.Proofs.Grammar.Progress
import Scriptlet.Proofs.Eval.ForLoop
import Scriptlet.Proofs.Session.Construct
import Scriptlet.Proofs.Scan.Division
import Scriptlet.Proofs.Eval.Lookup
import Scriptlet.Proofs.Session.Resolution
