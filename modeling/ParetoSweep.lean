import ParetoSweep.Number.Integral
import ParetoSweep.Number.Numeral
import ParetoSweep.Number.Order
import ParetoSweep.Number.Remainder
import ParetoSweep.Number.Shortest
import ParetoSweep.Number.Text
import ParetoSweep.Number.Word
import ParetoSweep.Random.Cipher
import ParetoSweep.Random.Stream
import ParetoSweep.Decision.Value
import ParetoSweep.Decision.Variable
import ParetoSweep.Decision.Walk
import ParetoSweep.Problem.Basic
import ParetoSweep.Problem.Defect
import ParetoSweep.Problem.Relation
import ParetoSweep.Formula.Basic
import ParetoSweep.Formula.Builtin
import ParetoSweep.Formula.Fault
import ParetoSweep.Formula.Grammar
import ParetoSweep.Formula.Operator
import ParetoSweep.Formula.Term
import ParetoSweep.Formula.Token
import ParetoSweep.Candidate.Basic
import ParetoSweep.Candidate.Scorer
import ParetoSweep.Front.Basic
import ParetoSweep.Front.Dominance
import ParetoSweep.Search.Config
import ParetoSweep.Search.Cube
import ParetoSweep.Search.Descent
import ParetoSweep.Search.Failure
import ParetoSweep.Search.Grid
import ParetoSweep.Search.Host
import ParetoSweep.Search.Journal
import ParetoSweep.Search.Run
import ParetoSweep.Search.Splitter
import ParetoSweep.Search.Strategy
import ParetoSweep.Search.Workers
import ParetoSweep.Proofs.Bind
import ParetoSweep.Proofs.Number.Arithmetic
import ParetoSweep.Proofs.Number.Dyadic
import ParetoSweep.Proofs.Number.Error
import ParetoSweep.Proofs.Number.Exact
import ParetoSweep.Proofs.Number.Integers
import ParetoSweep.Proofs.Number.Numeral
import ParetoSweep.Proofs.Number.Order
import ParetoSweep.Proofs.Number.Quotient
import ParetoSweep.Proofs.Number.Rounding
import ParetoSweep.Proofs.Number.Spacing
import ParetoSweep.Proofs.Number.Zero
import ParetoSweep.Proofs.Decision.Count
import ParetoSweep.Proofs.Decision.Dyadic
import ParetoSweep.Proofs.Decision.Empty
import ParetoSweep.Proofs.Decision.Index
import ParetoSweep.Proofs.Decision.Loop
import ParetoSweep.Proofs.Decision.Stall
import ParetoSweep.Proofs.Decision.Visits
import ParetoSweep.Proofs.Decision.Walk
import ParetoSweep.Proofs.Problem.Defect
import ParetoSweep.Proofs.Formula.Check
import ParetoSweep.Proofs.Formula.Completeness
import ParetoSweep.Proofs.Formula.Depth
import ParetoSweep.Proofs.Formula.Derivation
import ParetoSweep.Proofs.Formula.Draws
import ParetoSweep.Proofs.Formula.Filling
import ParetoSweep.Proofs.Formula.Height
import ParetoSweep.Proofs.Formula.Lexeme
import ParetoSweep.Proofs.Formula.Location
import ParetoSweep.Proofs.Formula.Marks
import ParetoSweep.Proofs.Formula.Octets
import ParetoSweep.Proofs.Formula.Opposite
import ParetoSweep.Proofs.Formula.Outcome
import ParetoSweep.Proofs.Formula.Outline
import ParetoSweep.Proofs.Formula.Soundness
import ParetoSweep.Proofs.Formula.Text
import ParetoSweep.Proofs.Candidate.Appraisal
import ParetoSweep.Proofs.Candidate.Names
import ParetoSweep.Proofs.Candidate.Randomness
import ParetoSweep.Proofs.Candidate.Scorer
import ParetoSweep.Proofs.Candidate.Undefined
import ParetoSweep.Proofs.Front.Antichain
import ParetoSweep.Proofs.Front.Dominance
import ParetoSweep.Proofs.Front.Optimal
import ParetoSweep.Proofs.Front.Precedence
import ParetoSweep.Proofs.Front.Unscored
import ParetoSweep.Proofs.Search.Blocked
import ParetoSweep.Proofs.Search.Cube
import ParetoSweep.Proofs.Search.Descent
import ParetoSweep.Proofs.Search.Empty
import ParetoSweep.Proofs.Search.Grid
import ParetoSweep.Proofs.Search.Opposite
import ParetoSweep.Proofs.Search.Product
import ParetoSweep.Proofs.Search.Run
import ParetoSweep.Proofs.Search.Size
import ParetoSweep.Proofs.Search.Splitter
import ParetoSweep.Proofs.Search.Stall
import ParetoSweep.Proofs.Search.Strategy
import ParetoSweep.Proofs.Search.Unscored
import ParetoSweep.Proofs.Search.Workers
