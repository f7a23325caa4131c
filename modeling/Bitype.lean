import Bitype.Foundations.Execution
import Bitype.Runtime.Shadow
import Bitype.Runtime.GranuleMap
import Bitype.Runtime.Layout
import Bitype.Runtime.Refinement
import Bitype.Runtime.Check
import Bitype.Runtime.Inline
import Bitype.Runtime.Content
import Bitype.Runtime.ElementLoops
import Bitype.Foundations.WriteLog
import Bitype.Foundations.BitMask
import Bitype.Pass.Mask
import Bitype.Foundations.GraphSearch
import Bitype.Tool.Visit
import Bitype.Tool.Numbering
import Bitype.Tool.Families
import Bitype.Tool.DepthFirst
import Bitype.Tool.Actions
import Bitype.Tool.Accesses
import Bitype.Tool.Bijection
import Bitype.Tool.Containment
import Bitype.Tool.Coding
import Bitype.Tool.Output
import Bitype.Foundations.Closure
import Bitype.Foundations.Worklist
import Bitype.Foundations.Unmarked
import Bitype.Foundations.Flowchart
import Bitype.Foundations.Expansion
import Bitype.Foundations.Semantics
import Bitype.Foundations.Builder
import Bitype.Foundations.Ownership
import Bitype.Foundations.Dominance
import Bitype.Foundations.Text
import Bitype.Foundations.ClassHierarchy
import Bitype.Tool.Text
import Bitype.Tool.Relations
import Bitype.Pass.Types
import Bitype.Pass.Files
import Bitype.Pass.Numbers
import Bitype.Pass.Readers
import Bitype.Pass.RoundTrip
import Bitype.Pass.DownCastLoc
import Bitype.Pass.DebugIndex
import Bitype.Pass.Removal
import Bitype.Pass.TypeNames
import Bitype.Pass.SafeStack
import Bitype.Pass.Inheritance
import Bitype.Pass.Alignment
import Bitype.Pass.TypeRelations
import Bitype.Pass.TypeClosure
import Bitype.Pass.SafeTable
import Bitype.Pass.Bounds
import Bitype.Pass.CrossFamily
import Bitype.Pass.Detection
import Bitype.Pass.StructLayout
import Bitype.Pass.Subobjects
import Bitype.Pass.Trace
import Bitype.Pass.Downcast
import Bitype.Pass.Heap
import Bitype.Pass.HeapLifeCycle
import Bitype.Pass.TraceLog
import Bitype.Pass.Coverage
import Bitype.Pass.ArrayCoverage
import Bitype.Pass.PlacementNew
import Bitype.Pass.PlacementCoverage
import Bitype.Pass.ReinterpretMarks
import Bitype.Pass.Realloc
import Bitype.Pass.TableKeys
import Bitype.Pass.ClassTables
import Bitype.Pass.MemoryBuiltins
import Bitype.Pass.AllocCalls
import Bitype.Pass.DynamicCast
import Bitype.Pass.ReinterpretChecks
import Bitype.Pass.StackObject
import Bitype.Pass.StackInverse
import Bitype.Pass.Function
import Bitype.Pass.StackPlan
import Bitype.Pass.AllocaSearch
import Bitype.Pass.StackTracing
import Bitype.Pass.SafeSource
import Bitype.Pass.SourceSearch
import Bitype.Pass.CompileTime
import Bitype.Pass.Frees
import Bitype.Pass.Parameters
import Bitype.Pass.Rewriting
import Bitype.Pass.Instructions
import Bitype.Pass.EmittedCode
import Bitype.Pass.Optimised
import Bitype.Pass.ObjectLog
import Bitype.Pass.Globals
import Bitype.Pass.Process
import Bitype.Pass.ProcessInvariant
import Bitype.Pass.TidyRuns
import Bitype.Pass.ProcessChecks
import Bitype.Pass.StackOpt
import Bitype.Tool.CastTargets
import Bitype.Pass.Casts
