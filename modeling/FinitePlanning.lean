import FinitePlanning.Files.Tree
import FinitePlanning.Main
import FinitePlanning.Proofs.Compile.Coherence
import FinitePlanning.Proofs.Compile.Plans
import FinitePlanning.Proofs.Compile.Variants
import FinitePlanning.Proofs.Condition.Constants
import FinitePlanning.Proofs.Condition.Disjunctive
import FinitePlanning.Proofs.Condition.Meaning
import FinitePlanning.Proofs.Condition.Recursion
import FinitePlanning.Proofs.Condition.Scope
import FinitePlanning.Proofs.Condition.Simplify
import FinitePlanning.Proofs.Condition.Traversal
import FinitePlanning.Proofs.Datalog.Bounded
import FinitePlanning.Proofs.Datalog.Components
import FinitePlanning.Proofs.Datalog.Firing
import FinitePlanning.Proofs.Datalog.Found
import FinitePlanning.Proofs.Datalog.Model
import FinitePlanning.Proofs.Datalog.Repetition
import FinitePlanning.Proofs.Datalog.SplitModel
import FinitePlanning.Proofs.Datalog.Splitting
import FinitePlanning.Proofs.Datalog.Typing
import FinitePlanning.Proofs.Elaboration.Declarations
import FinitePlanning.Proofs.Elaboration.Effects
import FinitePlanning.Proofs.Elaboration.Flattening
import FinitePlanning.Proofs.Elaboration.Formula
import FinitePlanning.Proofs.Elaboration.Meaning
import FinitePlanning.Proofs.Elaboration.Sorts
import FinitePlanning.Proofs.Elaboration.Task
import FinitePlanning.Proofs.Encoding.Exclusion
import FinitePlanning.Proofs.Encoding.Facts
import FinitePlanning.Proofs.Encoding.Fitting
import FinitePlanning.Proofs.Encoding.Products
import FinitePlanning.Proofs.Encoding.Simulation
import FinitePlanning.Proofs.Encoding.WellFormed
import FinitePlanning.Proofs.Exploration.Explored
import FinitePlanning.Proofs.Exploration.Normalization
import FinitePlanning.Proofs.Exploration.Relaxation
import FinitePlanning.Proofs.Exploration.Rules
import FinitePlanning.Proofs.Exploration.Schemas
import FinitePlanning.Proofs.Exploration.TypeMembership
import FinitePlanning.Proofs.Exploration.Typing
import FinitePlanning.Proofs.FiniteDomain.Arrangement
import FinitePlanning.Proofs.FiniteDomain.Evaluation
import FinitePlanning.Proofs.FiniteDomain.GoalsLast
import FinitePlanning.Proofs.FiniteDomain.Renumbering
import FinitePlanning.Proofs.FiniteDomain.Text
import FinitePlanning.Proofs.Graph.ComponentOrder
import FinitePlanning.Proofs.Graph.Components
import FinitePlanning.Proofs.Graph.Connectivity
import FinitePlanning.Proofs.Graph.Seniority
import FinitePlanning.Proofs.Invariant.Cover
import FinitePlanning.Proofs.Invariant.Groups
import FinitePlanning.Proofs.Invariant.Search
import FinitePlanning.Proofs.Invariant.Solvability
import FinitePlanning.Proofs.IterationOrder
import FinitePlanning.Proofs.NormalForm.Extension
import FinitePlanning.Proofs.NormalForm.Normalize
import FinitePlanning.Proofs.NormalForm.Removal
import FinitePlanning.Proofs.NormalForm.Rewriting
import FinitePlanning.Proofs.NormalForm.Scope
import FinitePlanning.Proofs.NormalForm.Shape
import FinitePlanning.Proofs.NormalForm.Transitions
import FinitePlanning.Proofs.NormalForm.Universal
import FinitePlanning.Proofs.Pddl.TypedSymbol
import FinitePlanning.Proofs.Pruning.Bisimulation
import FinitePlanning.Proofs.Pruning.Images
import FinitePlanning.Proofs.Pruning.WellFormed
import FinitePlanning.Proofs.Semantics.FiniteDomain
import FinitePlanning.Proofs.Sexpr.Display
import FinitePlanning.Proofs.Sexpr.Reader
import FinitePlanning.Proofs.Stratification.Antichain
import FinitePlanning.Proofs.Stratification.Layers
import FinitePlanning.Proofs.Stratification.LeastLayers
import FinitePlanning.Proofs.Stratification.Reduction
import FinitePlanning.Proofs.TypeHierarchy
