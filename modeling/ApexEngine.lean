import ApexEngine.Machine.A64
import ApexEngine.Machine.Run
import ApexEngine.Machine.Layout
import ApexEngine.Core.Registry
import ApexEngine.Jit.IR
import ApexEngine.Jit.Analyzer
import ApexEngine.BitPlane.Arith
import ApexEngine.Jit.Kernel
import ApexEngine.Jit.Comparison
import ApexEngine.Compute.BitSlicer
import ApexEngine.Jit.Assign
import ApexEngine.Jit.Expression
import ApexEngine.Jit.Circuit
import ApexEngine.Jit.ExpressionRun
import ApexEngine.Jit.ExpressionCall
import ApexEngine.Jit.ExpressionMeaning
import ApexEngine.Jit.Scalar
import ApexEngine.Jit.ScalarRun
import ApexEngine.Jit.ScalarMeaning
import ApexEngine.Jit.Builder
import ApexEngine.Jit.Threshold
import ApexEngine.Compute.Gather
import ApexEngine.Machine.Blocks
import ApexEngine.Compute.Columns
import ApexEngine.Compute.ParallelRunner
import ApexEngine.Api.Engine
import ApexEngine.Jit.Compiled
import ApexEngine.Api.Binding
import ApexEngine.Api.Execution
import ApexEngine.Api.RowCount
import ApexEngine.Api.Parallel
import ApexEngine.Api.Threshold
import ApexEngine.Jit.Modes
import ApexEngine.Api.History
import ApexEngine.Api.Modes
import ApexEngine.Api.Latest
import ApexEngine.Api.Slots
import ApexEngine.Api.CApi
import ApexEngine.Api.Coherence
import ApexEngine.Jit.Isolation
import ApexEngine.Api.Noninterference
import ApexEngine.Jit.Sums
import ApexEngine.Jit.Signed
import ApexEngine.Jit.Conjunction
import ApexEngine.Jit.Connectives
import ApexEngine.Core.Ownership
import ApexEngine.Api.Lifetimes
import ApexEngine.Jit.Allocation
import ApexEngine.Jit.BuilderRuns
import ApexEngine.Api.Traversals
import ApexEngine.Jit.ThresholdKernel
import ApexEngine.Machine.Saves
import ApexEngine.Jit.KernelFrame
import ApexEngine.Jit.FrameLaw
import ApexEngine.Api.FieldNames
import ApexEngine.Api.RowReads
import ApexEngine.Jit.Copies
import ApexEngine.Api.Recompilation
import ApexEngine.Jit.CompiledKernel
import ApexEngine.Jit.Trichotomy
import ApexEngine.Jit.StandIns
import ApexEngine.Jit.ScalarConnectives
import ApexEngine.Jit.Shifts
import ApexEngine.Jit.Readings
import ApexEngine.Api.PoolReuse
import ApexEngine.Jit.PoolReuse
import ApexEngine.Machine.Oblivious
import ApexEngine.Jit.Oblivious
import ApexEngine.Core.MainThread
import ApexEngine.Core.ForkJoin
import ApexEngine.Compute.Threads
import ApexEngine.Api.Schedules
import ApexEngine.Core.Matches
import ApexEngine.Api.Pointers
import ApexEngine.Api.Space
import ApexEngine.Machine.WordLoop
import ApexEngine.Compute.Words
import ApexEngine.Api.Words
import ApexEngine.Machine.Encoding
import ApexEngine.Jit.Encoding
import ApexEngine.Core.Stealing
import ApexEngine.Bench.ApexFinal
import ApexEngine.Core.Vectors
import ApexEngine.Api.Clients
import ApexEngine.Jit.Terms
import ApexEngine.Api.Written
import ApexEngine.Api.ThresholdExpressions
