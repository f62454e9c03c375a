import Lifespan.AbstractState
import Lifespan.Analysis
import Lifespan.Class
import Lifespan.Code.Basic
import Lifespan.Code.Decode
import Lifespan.Code.Text
import Lifespan.CommandLine
import Lifespan.Condition
import Lifespan.Dataflow
import Lifespan.Double
import Lifespan.Environment
import Lifespan.Error
import Lifespan.FinMap
import Lifespan.Graph
import Lifespan.Initializer
import Lifespan.Json.Basic
import Lifespan.Json.Reader
import Lifespan.Json.View
import Lifespan.Log
import Lifespan.Machine
import Lifespan.Main
import Lifespan.Octagon.Basic
import Lifespan.Octagon.Bound
import Lifespan.Octagon.Closure
import Lifespan.Octagon.Interval
import Lifespan.Octagon.Linear
import Lifespan.Octagon.Matrix
import Lifespan.Octagon.Text
import Lifespan.Octagon.Traced
import Lifespan.PointsTo
import Lifespan.Property
import Lifespan.Resolver
import Lifespan.Settings
import Lifespan.Term
import Lifespan.Traced
import Lifespan.Verifier
import Lifespan.Proofs.Iteration
import Lifespan.Proofs.FinMap
import Lifespan.Proofs.Semilattice
import Lifespan.Proofs.PostFixedPoint
import Lifespan.Proofs.Paths
import Lifespan.Proofs.Settling
import Lifespan.Proofs.Octagon.Cells
import Lifespan.Proofs.Octagon.Widening
import Lifespan.Proofs.Numeric.Termination
import Lifespan.Proofs.Octagon.Closure
import Lifespan.Proofs.Octagon.Linear
import Lifespan.Proofs.Octagon.Ranges
import Lifespan.Proofs.Octagon.Transfer
import Lifespan.Proofs.AbstractState
import Lifespan.Proofs.Execution
import Lifespan.Proofs.ControlFlow
import Lifespan.Proofs.Cycles
import Lifespan.Proofs.Condition
import Lifespan.Proofs.Comparisons
import Lifespan.Proofs.Resolver
import Lifespan.Proofs.Numeric.Coverage
import Lifespan.Proofs.Numeric.Soundness
import Lifespan.Proofs.Numeric.Successors
import Lifespan.Proofs.Numeric.Support
import Lifespan.Proofs.Lockstep
import Lifespan.Proofs.PointsTo
import Lifespan.Proofs.Verifier
import Lifespan.Proofs.Safety
import Lifespan.Proofs.Octagon.ShortestPaths
import Lifespan.Proofs.Octagon.Tight
import Lifespan.Proofs.Octagon.Order
import Lifespan.Proofs.Octagon.Exactness
import Lifespan.Proofs.Octagon.Representation
import Lifespan.Proofs.Octagon.Canonical
import Lifespan.Proofs.Growth
import Lifespan.Proofs.CopyChains
import Lifespan.Proofs.Initializers
import Lifespan.Proofs.Requests
import Lifespan.Proofs.Failures
import Lifespan.Proofs.Octagon.Evaluation
import Lifespan.Proofs.Octagon.Pinned
import Lifespan.Proofs.StraightLine
import Lifespan.Proofs.Numeric.Tracking
import Lifespan.Proofs.ExactVerdicts
import Lifespan.Proofs.Erasure
import Lifespan.Proofs.Acceptance
import Lifespan.Proofs.Operations
import Lifespan.Proofs.Environments
import Lifespan.Proofs.Octagon.Entailment
import Lifespan.Proofs.Octagon.Assignment
import Lifespan.Proofs.Octagon.Frame
import Lifespan.Proofs.Octagon.Join
import Lifespan.Proofs.Octagon.Text
import Lifespan.Proofs.Octagon.InPlace
import Lifespan.Proofs.Octagon.WideningChain
import Lifespan.Proofs.PointStates
import Lifespan.Proofs.Numeric.Unreached
import Lifespan.Proofs.ConstantFolding
import Lifespan.Proofs.Octagon.Arithmetic
import Lifespan.Proofs.Linearization
import Lifespan.Proofs.Traced
import Lifespan.Proofs.Octagon.Traced
import Lifespan.Proofs.Machine
import Lifespan.Proofs.Octagon.PinnedArithmetic
