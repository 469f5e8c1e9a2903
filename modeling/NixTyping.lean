import NixTyping.Main
import NixTyping.Proofs.Substitution
import NixTyping.Proofs.Fits
import NixTyping.Proofs.Unification
import NixTyping.Proofs.UnifierCalls
import NixTyping.Proofs.UnifierAnswers
import NixTyping.Proofs.CoreWalk
import NixTyping.Proofs.DepthFirst
import NixTyping.Proofs.Generalization
import NixTyping.Proofs.Layout
import NixTyping.Proofs.MostGeneral
import NixTyping.Proofs.Overloading
import NixTyping.Proofs.PrincipalSolution
import NixTyping.Proofs.PrincipalTyping
import NixTyping.Proofs.SolvedForm
import NixTyping.Proofs.EquationOrder
import NixTyping.Proofs.Renaming
import NixTyping.Proofs.Ambiguity
import NixTyping.Proofs.Chart
import NixTyping.Proofs.ChartedJudgment
import NixTyping.Proofs.ChartedState
import NixTyping.Proofs.ChartedWalk
import NixTyping.Proofs.Lowered
import NixTyping.Proofs.NeverStuck
import NixTyping.Proofs.RelatedJudgments
import NixTyping.Proofs.JudgmentRules
import NixTyping.Proofs.ForcingStack
import NixTyping.Proofs.WalkInvariant
import NixTyping.Proofs.TotalWalk
import NixTyping.Proofs.TotalJudgment
import NixTyping.Proofs.Cycles
import NixTyping.Proofs.JudgedOnce
import NixTyping.Proofs.UnboundNames
import NixTyping.Proofs.Explained
import NixTyping.Proofs.OperatorTypes
import NixTyping.Proofs.VariableRenaming
import NixTyping.Proofs.IssuedTypes
import NixTyping.Proofs.AmbientLabels
import NixTyping.Proofs.Comparison
import NixTyping.Proofs.ComparedStates
import NixTyping.Proofs.ComparedWalks
import NixTyping.Proofs.RenamedParameter
import NixTyping.Proofs.MentionedNames
import NixTyping.Proofs.ResolvedOverloads
import NixTyping.Proofs.ConstraintRenaming
import NixTyping.Proofs.ParallelSearch
import NixTyping.Proofs.Wrappers
import NixTyping.Proofs.RecursiveSearch
import NixTyping.Proofs.SolutionLimit
import NixTyping.Proofs.SlotHistory
import NixTyping.Proofs.Termination
import NixTyping.Proofs.SubstitutionLaws
import NixTyping.Proofs.ClosedSchemes
import NixTyping.Proofs.Occurrence
import NixTyping.Proofs.SwappedSides
import NixTyping.Proofs.PrintedTypes
import NixTyping.Proofs.SyntaxParts
import NixTyping.Proofs.Builds
import NixTyping.Proofs.Drafts
import NixTyping.Proofs.ModuleTree
import NixTyping.Proofs.ReportedDeclarations
import NixTyping.Proofs.KeptPaths
import NixTyping.Proofs.Arena
import NixTyping.Proofs.SpreadSets
import NixTyping.Proofs.MergedPaths
import NixTyping.Proofs.KnownKeys
import NixTyping.Proofs.IssuedVariables
