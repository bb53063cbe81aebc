import GotoFree.Flow.Sketch
import GotoFree.Main
import GotoFree.Program.Encode
import GotoFree.Proofs.Walk
import GotoFree.Proofs.Graph
import GotoFree.Proofs.Formation
import GotoFree.Proofs.Dominance
import GotoFree.Proofs.Loops
import GotoFree.Proofs.Forest
import GotoFree.Proofs.Region
import GotoFree.Proofs.Ways
import GotoFree.Proofs.Parts
import GotoFree.Proofs.Placement
import GotoFree.Proofs.Assembly
import GotoFree.Proofs.Structure
import GotoFree.Proofs.Nesting
import GotoFree.Proofs.Gates
import GotoFree.Proofs.Marking
import GotoFree.Proofs.ExactGates
import GotoFree.Proofs.WaysOut
import GotoFree.Proofs.Safety
import GotoFree.Proofs.Running
import GotoFree.Proofs.Simulation
import GotoFree.Proofs.LoopExits
import GotoFree.Proofs.Visits
import GotoFree.Proofs.Limits
import GotoFree.Proofs.Scalars
import GotoFree.Proofs.Answers
import GotoFree.Proofs.Scripts
import GotoFree.Proofs.Cells
import GotoFree.Proofs.ScalarCode
import GotoFree.Proofs.Waiting
import GotoFree.Proofs.Accepted
import GotoFree.Proofs.PartCode
import GotoFree.Proofs.Plans
import GotoFree.Proofs.LoopCode
import GotoFree.Proofs.Names
import GotoFree.Proofs.Faithful
import GotoFree.Proofs.Aliases
import GotoFree.Proofs.Arguments
import GotoFree.Proofs.Agenda
import GotoFree.Proofs.CallSites
import GotoFree.Proofs.Callees
import GotoFree.Proofs.FunctionNames
import GotoFree.Proofs.Reached
import GotoFree.Target.Scoping
import GotoFree.Target.Calls
import GotoFree.Proofs.ScopedScripts
import GotoFree.Proofs.ScopedNames
import GotoFree.Proofs.ScopedInstrs
import GotoFree.Proofs.ScopedCalls
import GotoFree.Proofs.ScopedBlocks
import GotoFree.Proofs.ScopedTrees
import GotoFree.Proofs.ScopedPrograms
import GotoFree.Proofs.CallFree
import GotoFree.Proofs.CallArity
import GotoFree.Proofs.ProperLoops
import GotoFree.Proofs.Cycles
import GotoFree.Proofs.JumpSites
import GotoFree.Proofs.Recording
import GotoFree.Proofs.Families
import GotoFree.Proofs.FieldSlots
import GotoFree.Proofs.JsonText
import GotoFree.Proofs.JsonShapes
import GotoFree.Proofs.Containers
import GotoFree.Proofs.RoundTrip
import GotoFree.Proofs.Reordering
import GotoFree.Proofs.AlikeJobs
import GotoFree.Proofs.ListingOrder
import GotoFree.Proofs.Recast
import GotoFree.Proofs.RecastSteps
import GotoFree.Proofs.RecastJobs
import GotoFree.Proofs.ObjectModels
import GotoFree.Proofs.ArgumentVector
import GotoFree.Proofs.Standing
import GotoFree.Proofs.CallTies
import GotoFree.Proofs.Devirtualization
import GotoFree.Target.Uses
import GotoFree.Proofs.SparedCell
import GotoFree.Proofs.StoredFlags
import GotoFree.Proofs.FlaggedCode
import GotoFree.Proofs.FlagTable
import GotoFree.Proofs.ExprText
import GotoFree.Proofs.ExprReading
import GotoFree.Proofs.StmtText
import GotoFree.Proofs.StmtReading
import GotoFree.Proofs.BoundNames
import GotoFree.Proofs.NamesInSight
import GotoFree.Proofs.UnshadowedTrees
import GotoFree.Proofs.UnshadowedPrograms
import GotoFree.Proofs.Evaluation
import GotoFree.Proofs.Records
import GotoFree.Proofs.ObjectShapes
import GotoFree.Proofs.ReturnedValues
import GotoFree.Proofs.LoopFunctions
import GotoFree.Proofs.PlanlessMethods
import GotoFree.Target.Draft
import GotoFree.Proofs.Resolution
import GotoFree.Proofs.Drafts
import GotoFree.Proofs.FunctionEnds
import GotoFree.Proofs.Sequencing
import GotoFree.Proofs.NameRequests
import GotoFree.Proofs.TableReading
import GotoFree.Proofs.SavedFiles
import GotoFree.Proofs.Leftovers
import GotoFree.Proofs.AlikeReaders
import GotoFree.Proofs.MarkedPlaces
import GotoFree.Proofs.MethodKeys
import GotoFree.Proofs.Indentation
import GotoFree.Proofs.Positions
import GotoFree.Proofs.HiddenCells
import GotoFree.Proofs.ConfinedCode
import GotoFree.Proofs.Places
import GotoFree.Proofs.ReservedLocals
import GotoFree.Proofs.ReservedTrees
import GotoFree.Proofs.ArgumentRuns
