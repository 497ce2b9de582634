import ReactiveMarkup.Compilation
import ReactiveMarkup.Config
import ReactiveMarkup.Counting
import ReactiveMarkup.Document
import ReactiveMarkup.Entries
import ReactiveMarkup.Evaluator
import ReactiveMarkup.Expression.Basic
import ReactiveMarkup.Expression.Parser
import ReactiveMarkup.Expression.Printer
import ReactiveMarkup.Expression.Token
import ReactiveMarkup.Interpreter
import ReactiveMarkup.Json.Basic
import ReactiveMarkup.Json.Reader
import ReactiveMarkup.Loading.Error
import ReactiveMarkup.Loading.Module
import ReactiveMarkup.Loading.Planner
import ReactiveMarkup.Loading.Registry
import ReactiveMarkup.Machine.Basic
import ReactiveMarkup.Machine.Evaluation
import ReactiveMarkup.Machine.Plan
import ReactiveMarkup.Machine.Reactive
import ReactiveMarkup.Machine.Retention
import ReactiveMarkup.Markup.Basic
import ReactiveMarkup.Markup.Parser
import ReactiveMarkup.Markup.Printer
import ReactiveMarkup.Name
import ReactiveMarkup.Number.Binary
import ReactiveMarkup.Number.Decimal
import ReactiveMarkup.Panic
import ReactiveMarkup.Path
import ReactiveMarkup.Program.Basic
import ReactiveMarkup.Program.Constructor
import ReactiveMarkup.Program.Layout
import ReactiveMarkup.Program.Lowering
import ReactiveMarkup.Program.Printer
import ReactiveMarkup.Reactive.Graph
import ReactiveMarkup.Render.Anchor
import ReactiveMarkup.Render.Conditional
import ReactiveMarkup.Render.Construct
import ReactiveMarkup.Render.Element
import ReactiveMarkup.Render.List
import ReactiveMarkup.Render.Mount
import ReactiveMarkup.Scenario.Basic
import ReactiveMarkup.Scenario.Controller
import ReactiveMarkup.Scenario.Perform
import ReactiveMarkup.Scenario.Scope
import ReactiveMarkup.Scenario.Session
import ReactiveMarkup.Scenario.Tree
import ReactiveMarkup.Scenario.World
import ReactiveMarkup.Step
import ReactiveMarkup.Text.Class
import ReactiveMarkup.Text.Problem
import ReactiveMarkup.Text.Quoted
import ReactiveMarkup.Text.Source
import ReactiveMarkup.Text.Space
import ReactiveMarkup.Text.Upper
import ReactiveMarkup.Text.Word
import ReactiveMarkup.Value.Basic
import ReactiveMarkup.Value.Datum
import ReactiveMarkup.Proofs.GentleChanges
import ReactiveMarkup.Proofs.GraphLaws
import ReactiveMarkup.Proofs.Propagation
import ReactiveMarkup.Proofs.StepLogic
import ReactiveMarkup.Proofs.Query
import ReactiveMarkup.Proofs.NoLostUpdate
import ReactiveMarkup.Proofs.SteadyEffects
import ReactiveMarkup.Proofs.PanicRecovery
import ReactiveMarkup.Proofs.SubscriptionSymmetry
import ReactiveMarkup.Proofs.ExactlyOnce
import ReactiveMarkup.Proofs.Batching
import ReactiveMarkup.Proofs.Disposal
import ReactiveMarkup.Proofs.DocumentLaws
import ReactiveMarkup.Proofs.Journals
import ReactiveMarkup.Proofs.KeyedLists
import ReactiveMarkup.Proofs.FloatBits
import ReactiveMarkup.Proofs.Lexing
import ReactiveMarkup.Proofs.AcceptedTexts
import ReactiveMarkup.Proofs.ComponentNumbers
import ReactiveMarkup.Proofs.LoadableModules
import ReactiveMarkup.Proofs.LoadedModules
import ReactiveMarkup.Proofs.MarkupMeaning
import ReactiveMarkup.Proofs.ParsedMarkup
import ReactiveMarkup.Proofs.BoundNames
import ReactiveMarkup.Proofs.ParsingSafety
import ReactiveMarkup.Proofs.SchedulerRecovery
import ReactiveMarkup.Proofs.DocumentForest
import ReactiveMarkup.Proofs.ImportGraphs
import ReactiveMarkup.Proofs.RejectedPasses
import ReactiveMarkup.Proofs.CleanupLedgers
import ReactiveMarkup.Proofs.Cleanups
import ReactiveMarkup.Proofs.ConditionalRecovery
import ReactiveMarkup.Proofs.ModulePaths
import ReactiveMarkup.Proofs.Replacement
import ReactiveMarkup.Proofs.EmittedThunks
import ReactiveMarkup.Proofs.WrittenExpressions
import ReactiveMarkup.Proofs.IntegralNumbers
import ReactiveMarkup.Proofs.LoweringFlaws
import ReactiveMarkup.Proofs.WriteBack
import ReactiveMarkup.Proofs.ShownBranches
import ReactiveMarkup.Proofs.LocalCompilation
import ReactiveMarkup.Proofs.OptionalChains
import ReactiveMarkup.Proofs.ParsedShapes
import ReactiveMarkup.Proofs.RelativePaths
import ReactiveMarkup.Proofs.HoistedVariables
import ReactiveMarkup.Proofs.QuotedStrings
import ReactiveMarkup.Proofs.TokenTiling
import ReactiveMarkup.Proofs.ReleasedTrees
