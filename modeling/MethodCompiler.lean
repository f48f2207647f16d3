import MethodCompiler.Code.Arity
import MethodCompiler.Code.Placement
import MethodCompiler.Code.Printer
import MethodCompiler.CommandLine.Run
import MethodCompiler.Config
import MethodCompiler.Diagnostic
import MethodCompiler.Error
import MethodCompiler.Flow.Printer
import MethodCompiler.Frame.Packing
import MethodCompiler.Json.Decoder
import MethodCompiler.Json.Parser
import MethodCompiler.Json.Printer
import MethodCompiler.Main
import MethodCompiler.Module.Unit
import MethodCompiler.Region.Leave
import MethodCompiler.Tree.Builder
import MethodCompiler.Tree.Reader
import MethodCompiler.Tree.Writer
import MethodCompiler.Proofs.BlockCover
import MethodCompiler.Proofs.FlowEdges
import MethodCompiler.Proofs.BlockBoundaries
import MethodCompiler.Proofs.LiveSets
import MethodCompiler.Proofs.SharedSlots
import MethodCompiler.Proofs.DefUse
import MethodCompiler.Proofs.Machine
import MethodCompiler.Proofs.EmittedCode
import MethodCompiler.Proofs.SourceTrees
import MethodCompiler.Proofs.Layout
import MethodCompiler.Proofs.SoundCode
import MethodCompiler.Proofs.AccessedRegisters
import MethodCompiler.Proofs.ExpressionSteps
import MethodCompiler.Proofs.ExpressionRuns
import MethodCompiler.Proofs.LexicalScopes
import MethodCompiler.Proofs.StatementSteps
import MethodCompiler.Proofs.StatementRuns
import MethodCompiler.Proofs.TwinRuns
import MethodCompiler.Proofs.Evaluation
import MethodCompiler.Proofs.Correspondence
import MethodCompiler.Proofs.OperandCode
import MethodCompiler.Proofs.ExpressionCode
import MethodCompiler.Proofs.AssignmentCode
import MethodCompiler.Proofs.Words
import MethodCompiler.Proofs.EvaluationOrder
import MethodCompiler.Proofs.Execution
import MethodCompiler.Proofs.StatementCode
import MethodCompiler.Proofs.ControlCode
import MethodCompiler.Proofs.JumpCode
import MethodCompiler.Proofs.ControlFlow
import MethodCompiler.Proofs.InsertedLeaves
import MethodCompiler.Proofs.Landing
import MethodCompiler.Proofs.MergedRanges
import MethodCompiler.Proofs.PlacedRuns
import MethodCompiler.Proofs.CompileOrder
import MethodCompiler.Proofs.FormedCode
import MethodCompiler.Proofs.Executable
import MethodCompiler.Proofs.ExitChains
import MethodCompiler.Proofs.LeaveScan
import MethodCompiler.Proofs.RegionBalance
import MethodCompiler.Proofs.RegionProgress
import MethodCompiler.Proofs.GraphProgress
import MethodCompiler.Proofs.PlacementProgress
import MethodCompiler.Proofs.PathLiveness
import MethodCompiler.Proofs.HandlerEdges
import MethodCompiler.Proofs.JsonText
import MethodCompiler.Proofs.JsonDecoding
import MethodCompiler.Proofs.UnitRoundTrip
import MethodCompiler.Proofs.FrameLimit
import MethodCompiler.Proofs.FrameDepth
import MethodCompiler.Proofs.KeptFlow
import MethodCompiler.Proofs.Repacking
import MethodCompiler.Proofs.NeededLeaves
import MethodCompiler.Proofs.SettledLeaves
import MethodCompiler.Proofs.RegionSpans
import MethodCompiler.Proofs.BranchTargets
import MethodCompiler.Proofs.OwnRegisters
import MethodCompiler.Proofs.ThrownValues
import MethodCompiler.Proofs.ClearedRegisters
import MethodCompiler.Proofs.ResolvedLabels
import MethodCompiler.Proofs.LinkedReferences
import MethodCompiler.Proofs.DefinedLabels
import MethodCompiler.Proofs.RoundedIntegers
import MethodCompiler.Proofs.LiteralValues
import MethodCompiler.Proofs.HandlerPhases
import MethodCompiler.Proofs.ErasedComments
import MethodCompiler.Proofs.ScopeExits
import MethodCompiler.Proofs.EnclosedLocals
import MethodCompiler.Proofs.ClearedLocals
import MethodCompiler.Proofs.LabelInsertions
import MethodCompiler.Proofs.RegionSnapshots
import MethodCompiler.Proofs.LeaveTargets
import MethodCompiler.Proofs.SignedZeros
import MethodCompiler.Proofs.PooledLiterals
