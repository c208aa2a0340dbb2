import Cascades.Forest.Text
import Cascades.Json.Text
import Cascades.Memo.Text
import Cascades.Proofs.Forest.Insertions
import Cascades.Proofs.Forest.Questions
import Cascades.Proofs.JoinGraph.Evaluation
import Cascades.Proofs.JoinGraph.Refusals
import Cascades.Proofs.Keys.Searches
import Cascades.Proofs.Meaning.Rewrites
import Cascades.Proofs.Memo.Index
import Cascades.Proofs.Memo.Reach
import Cascades.Proofs.PlanSpace.Distinct
import Cascades.Proofs.RuleSet.Members
import Cascades.Proofs.Rulebook.Calls
import Cascades.Proofs.Rules.Sight
import Cascades.Proofs.Scalar.Conjuncts
import Cascades.Proofs.Scalar.Verdicts
import Cascades.Proofs.Search.Accounting
import Cascades.Proofs.Search.Budget
import Cascades.Proofs.Search.Choices
import Cascades.Proofs.Search.Closing
import Cascades.Proofs.Search.Conservation
import Cascades.Proofs.Search.Phases
import Cascades.Proofs.Search.Refusals
import Cascades.Proofs.Search.Strays
import Cascades.Proofs.Selections
import Cascades.Rule.Template
import Cascades.Rules.Standard
import Cascades.Service.Json
import Cascades.Proofs.Search.Inputs
import Cascades.Proofs.Search.Unfolding
