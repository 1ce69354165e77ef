import TagCompiler.Content.Json
import TagCompiler.Content.OutputPath
import TagCompiler.Content.Store
import TagCompiler.Json.Writer
import TagCompiler.Node.Cursor
import TagCompiler.Pipeline.Compiler
import TagCompiler.Proofs.CarriedStrings
import TagCompiler.Proofs.CompleteInlining
import TagCompiler.Proofs.Effects
import TagCompiler.Proofs.ErrorPlace
import TagCompiler.Proofs.ExternalMacros
import TagCompiler.Proofs.FoundDefinitions
import TagCompiler.Proofs.InliningMeaning
import TagCompiler.Proofs.LiveText
import TagCompiler.Proofs.LoadedData
import TagCompiler.Proofs.NormalForm
import TagCompiler.Proofs.PassSafety
import TagCompiler.Proofs.Rebuilding
import TagCompiler.Proofs.RenderingFailures
import TagCompiler.Proofs.RoundTrip
import TagCompiler.Proofs.SerializedTrees
import TagCompiler.Proofs.Sessions
import TagCompiler.Proofs.SiteMacros
import TagCompiler.Proofs.StaticModels
import TagCompiler.Proofs.StringBuildingMeaning
import TagCompiler.Proofs.TagFileExpressions
import TagCompiler.Proofs.TemplateBodies
import TagCompiler.Proofs.TotalInlining
import TagCompiler.Proofs.TotalReading
import TagCompiler.Proofs.SiteIsolation
import TagCompiler.Proofs.AssignedVariables
import TagCompiler.Proofs.InliningSteps
import TagCompiler.Proofs.FilledPlaces
import TagCompiler.Proofs.InjectedBlocks
import TagCompiler.Proofs.SurplusArguments
import TagCompiler.Proofs.SettledStrings
import TagCompiler.Proofs.MixedChains
import TagCompiler.Proofs.ConditionTruth
import TagCompiler.Proofs.BooleanPositions
import TagCompiler.Proofs.SettledConditions
import TagCompiler.Proofs.ResolvedModels
import TagCompiler.Proofs.LoopScope
import TagCompiler.Proofs.LoopBindings
import TagCompiler.Proofs.DroppedComments
import TagCompiler.Proofs.PathTexts
import TagCompiler.Proofs.DocumentedMacros
import TagCompiler.Proofs.TrimmedText
import TagCompiler.Proofs.FoundCalls
import TagCompiler.Proofs.AttributeStrings
import TagCompiler.Proofs.CursorMoves
import TagCompiler.Proofs.OutputPaths
import TagCompiler.Proofs.WrittenConfigurations
import TagCompiler.Proofs.IntegerLiterals
