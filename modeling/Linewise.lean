import Linewise.FileTree
import Linewise.Main
import Linewise.Proofs.BlockAgreement
import Linewise.Proofs.BlockTree
import Linewise.Proofs.LexicalScoping
import Linewise.Proofs.OuterScopes
import Linewise.Proofs.RunComparison
import Linewise.Proofs.ScopeComparison
import Linewise.Proofs.CheckComparison
import Linewise.Proofs.Session
import Linewise.Proofs.StoredValues
import Linewise.Proofs.Monotonicity
import Linewise.Proofs.ArgumentCount
import Linewise.Proofs.AcceptedBody
import Linewise.Proofs.GlobalScope
import Linewise.Proofs.AcceptedProgram
import Linewise.Proofs.Lockstep
import Linewise.Proofs.MethodOrder
import Linewise.Proofs.LineWords
import Linewise.Proofs.MentionedNames
import Linewise.Proofs.ScopeChanges
import Linewise.Proofs.BindingHistory
import Linewise.Proofs.StoredLiterals
import Linewise.Proofs.OutlineFaults
import Linewise.Proofs.FailFast
import Linewise.Proofs.OutlineRecovery
import Linewise.Proofs.QuoteScan
import Linewise.Proofs.GivenValues
import Linewise.Proofs.SingleStatement
import Linewise.Proofs.TextSqueeze
import Linewise.Proofs.SqueezedCuts
import Linewise.Proofs.SqueezedStatements
import Linewise.Proofs.RunAgreement
import Linewise.Proofs.SqueezedValues
import Linewise.Proofs.SqueezedChecks
import Linewise.Proofs.CollapsedBodies
import Linewise.Proofs.CollapsedOutline
import Linewise.Proofs.CollapsedProgram
import Linewise.Proofs.RenderedOutline
import Linewise.Proofs.ToldLines
import Linewise.Proofs.SingleFragments
import Linewise.Proofs.SpelledStatements
import Linewise.Proofs.ConditionBytes
import Linewise.Proofs.WrittenLiterals
import Linewise.Proofs.WrittenConditions
import Linewise.Proofs.StatementKinds
import Linewise.Proofs.CollapsedLines
import Linewise.Proofs.StatementReaders
import Linewise.Proofs.FrontEffects
import Linewise.Proofs.WrittenHeaders
import Linewise.Proofs.MisplacedComments
import Linewise.Proofs.NormalLines
import Linewise.Proofs.ScopeSessions
import Linewise.Proofs.MethodHistory
import Linewise.Proofs.ExactCuts
