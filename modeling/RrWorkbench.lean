import RrWorkbench.Data.CNumber
import RrWorkbench.Data.Counter
import RrWorkbench.Data.EdgePath
import RrWorkbench.Data.LineInput
import RrWorkbench.Data.PathNumbering
import RrWorkbench.Data.Relocation
import RrWorkbench.Data.Run
import RrWorkbench.Data.SpanningTree
import RrWorkbench.PathLogging.LlvmFunction
import RrWorkbench.PathLogging.Dag
import RrWorkbench.PathLogging.PushMarks
import RrWorkbench.PathLogging.CalculateSpanningTree
import RrWorkbench.PathLogging.ChordIncrements
import RrWorkbench.PathLogging.Instrument
import RrWorkbench.PathLogging.Calls
import RrWorkbench.PathLogging.Execution
import RrWorkbench.PathLogging.EdgeCode
import RrWorkbench.PathLogging.Links
import RrWorkbench.PathLogging.Chains
import RrWorkbench.PathLogging.Layout
import RrWorkbench.PathLogging.PathPHI
import RrWorkbench.PathLogging.EdgeMarks
import RrWorkbench.PathLogging.Liveness
import RrWorkbench.PathLogging.EmissionInvariant
import RrWorkbench.PathLogging.EmissionStep
import RrWorkbench.PathLogging.EmissionEdge
import RrWorkbench.PathLogging.EmissionSource
import RrWorkbench.PathLogging.EmissionOrigin
import RrWorkbench.PathLogging.Steps
import RrWorkbench.PathLogging.EmissionInstrument
import RrWorkbench.PathLogging.EmissionRun
import RrWorkbench.PathLogging.InstrumentedRun
import RrWorkbench.PathLogging.Unlink
import RrWorkbench.PathLogging.Segments
import RrWorkbench.PathLogging.RunOnFunction
import RrWorkbench.PathLogging.EachEdgeOnce
import RrWorkbench.PathLogging.BackEdges
import RrWorkbench.PathLogging.Decode
import RrWorkbench.PathLogging.Module
import RrWorkbench.PathRuntime.Buffer
import RrWorkbench.PathRuntime.World
import RrWorkbench.PathRuntime.Logging
import RrWorkbench.PathRuntime.Exit
import RrWorkbench.PathRuntime.Reentrant
import RrWorkbench.PathProgram.Reader
import RrWorkbench.PathProgram.System
import RrWorkbench.Lcmp
import RrWorkbench.HistogramTrace
import RrWorkbench.CountSyscalls
import RrWorkbench.Strfutexcmd
import RrWorkbench.Regtrace
import RrWorkbench.Status2text
import RrWorkbench.X86.Memory
import RrWorkbench.X86.Assembly
import RrWorkbench.X86.Stack
import RrWorkbench.X86.Decode
import RrWorkbench.VdsoMonkeypatch
import RrWorkbench.VdsoMonkeypatch.Main
import RrWorkbench.Strlen.Code
import RrWorkbench.Strlen.Scan
import RrWorkbench.Strlen.Correct
import RrWorkbench.Strlen.Fputs
import RrWorkbench.Bpf
import RrWorkbench.SeccompBpf
import RrWorkbench.Seccomptrace
import RrWorkbench.RpcSyscall
import RrWorkbench.RpcSyscall.Schedule
import RrWorkbench.RpcSyscall.Served
