import StackCompiler.CommandLine.Directory
import StackCompiler.Json.Writer
import StackCompiler.Main
import StackCompiler.SourceUnit.Writer
import StackCompiler.Proofs.Bisimulation
import StackCompiler.Proofs.ModuleRuns
import StackCompiler.Proofs.Discipline
import StackCompiler.Proofs.StackShape
import StackCompiler.Proofs.LoweringChanges
import StackCompiler.Proofs.LoweringCases
import StackCompiler.Proofs.LoweredDiscipline
import StackCompiler.Proofs.Frames
import StackCompiler.Proofs.OperandTypes
import StackCompiler.Proofs.LoweredTypes
import StackCompiler.Proofs.Assembly
import StackCompiler.Proofs.Names
import StackCompiler.Proofs.Links
import StackCompiler.Proofs.Bodies
import StackCompiler.Proofs.Contexts
import StackCompiler.Proofs.LoweredRoutines
import StackCompiler.Proofs.Heights
import StackCompiler.Proofs.LiveSlots
import StackCompiler.Proofs.Renaming
import StackCompiler.Proofs.Intervals
import StackCompiler.Proofs.Patches
import StackCompiler.Proofs.SharedSlots
import StackCompiler.Proofs.Windows
import StackCompiler.Proofs.ValueKeys
import StackCompiler.Proofs.KnownValues
import StackCompiler.Proofs.ReusedValues
import StackCompiler.Proofs.Optimization
import StackCompiler.Proofs.Evaluation
import StackCompiler.Proofs.Segments
import StackCompiler.Proofs.ExpressionRuns
import StackCompiler.Proofs.BranchTargets
import StackCompiler.Proofs.Completion
import StackCompiler.Proofs.References
import StackCompiler.Proofs.WellFormed
import StackCompiler.Proofs.CallLinks
import StackCompiler.Proofs.SlotTypes
import StackCompiler.Proofs.TypedRoutines
import StackCompiler.Proofs.TypeSoundness
import StackCompiler.Proofs.ReturnValues
import StackCompiler.Proofs.ControlFlow
import StackCompiler.Proofs.EvaluatedBodies
import StackCompiler.Proofs.MeaningKept
import StackCompiler.Proofs.AccessNotes
import StackCompiler.Proofs.ArrayRuns
import StackCompiler.Proofs.Encapsulation
import StackCompiler.Proofs.ScopeHandles
import StackCompiler.Proofs.SubscriptSafety
import StackCompiler.Proofs.SourceLines
import StackCompiler.Proofs.AlikeScopes
import StackCompiler.Proofs.CaseBlindness
import StackCompiler.Proofs.RoutineOrder
import StackCompiler.Proofs.JsonText
import StackCompiler.Proofs.LeftOutMembers
import StackCompiler.Proofs.UnitReading
import StackCompiler.Proofs.UnitRoundTrip
import StackCompiler.Proofs.WatchedRuns
import StackCompiler.Proofs.PassRuns
import StackCompiler.Proofs.CachedLoads
import StackCompiler.Proofs.KeptEffects
import StackCompiler.Proofs.NormalForm
import StackCompiler.Proofs.LivePaths
import StackCompiler.Proofs.SlotOpenings
import StackCompiler.Proofs.FewestSlots
import StackCompiler.Proofs.StableSlots
import StackCompiler.Proofs.CodeLength
import StackCompiler.Proofs.ImportedNames
import StackCompiler.Proofs.FixedExtents
import StackCompiler.Proofs.CountingLoops
import StackCompiler.Proofs.DeclarationOrder
