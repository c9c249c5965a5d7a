import CpsatBindings.Machine
import CpsatBindings.ModelBuilder
import CpsatBindings.ClampedIntervals
import CpsatBindings.WireMessages
import CpsatBindings.ModelChecker
import CpsatBindings.DomainShift
import CpsatBindings.SolutionHint
import CpsatBindings.StreamQueue
import CpsatBindings.StreamWakeups
import CpsatBindings.StreamDelivery
import CpsatBindings.ExactDelivery
import CpsatBindings.ShimState
import CpsatBindings.ShimSteps
import CpsatBindings.Lifetimes
import CpsatBindings.StopHistory
import CpsatBindings.LostStops
import CpsatBindings.UnaskedStops
import CpsatBindings.EnvHistory
import CpsatBindings.Isolation
import CpsatBindings.Agreement
import CpsatBindings.TokenContract
import CpsatBindings.TokenCounts
import CpsatBindings.LiveTokens
import CpsatBindings.AccumulatingLoops
import CpsatBindings.MeaningPreserved
import CpsatBindings.IntervalUnion
import CpsatBindings.SortedIntervalList
import CpsatBindings.ModelValidator
import CpsatBindings.OverflowCheck
import CpsatBindings.AcceptedExpressions
import CpsatBindings.AcceptedProducts
import CpsatBindings.AcceptedModels
import CpsatBindings.Optimum
import CpsatBindings.SolutionStream
import CpsatBindings.ModelExtension
import CpsatBindings.ScriptMeaning
import CpsatBindings.DomainAlgebra
import CpsatBindings.FlatDomains
import CpsatBindings.LinearEncodings
import CpsatBindings.DomainProducts
import CpsatBindings.DomainQuotients
import CpsatBindings.DomainDivisors
import CpsatBindings.References
import CpsatBindings.AddedVariables
import CpsatBindings.ProductExpansion
import CpsatBindings.ExpandedModels
