import ProteanAmulet.Library.Memory
import ProteanAmulet.Library.Dependency
import ProteanAmulet.Library.Grouping
import ProteanAmulet.Library.Fixpoint
import ProteanAmulet.Library.Liveness
import ProteanAmulet.Library.Random
import ProteanAmulet.Library.Straightline
import ProteanAmulet.Library.Congruential
import ProteanAmulet.Library.Runs
import ProteanAmulet.Library.Graph
import ProteanAmulet.Library.Concatenation
import ProteanAmulet.Library.Text
import ProteanAmulet.Analyser
import ProteanAmulet.Fuzzer
import ProteanAmulet.InputGenerator
import ProteanAmulet.Boosting
import ProteanAmulet.Model.Registers
import ProteanAmulet.Model.Interfaces
import ProteanAmulet.Model.TaintTracker
import ProteanAmulet.Model.Emulator
import ProteanAmulet.Model.Cts
import ProteanAmulet.Cts.Fixpoint
import ProteanAmulet.Cts.Cfg
import ProteanAmulet.Cts.Aliasing
import ProteanAmulet.Model.Tracer
import ProteanAmulet.Model.State
import ProteanAmulet.Model.Hooks
import ProteanAmulet.Model.Execute
import ProteanAmulet.Model.Frame
import ProteanAmulet.Branches
import ProteanAmulet.Rollback
import ProteanAmulet.Model.Asm
import ProteanAmulet.Twin
import ProteanAmulet.Lockstep
import ProteanAmulet.Isolation
import ProteanAmulet.Transparency
import ProteanAmulet.Protection
import ProteanAmulet.Speculation
import ProteanAmulet.Fences
import ProteanAmulet.Taint.Soundness
import ProteanAmulet.Taint.Programs
import ProteanAmulet.Taint.PcOnly
import ProteanAmulet.Taint.Blocks
import ProteanAmulet.Coverage
import ProteanAmulet.Executor
import ProteanAmulet.KernelExecutor
import ProteanAmulet.Library.Pages
import ProteanAmulet.Library.LinkedList
import ProteanAmulet.Library.Toml
import ProteanAmulet.Checkpoint
import ProteanAmulet.KernelProtocol
import ProteanAmulet.KernelPages
import ProteanAmulet.Gem5Ipc
import ProteanAmulet.BasicBlock
import ProteanAmulet.Generator.Interfaces
import ProteanAmulet.Generator.Operands
import ProteanAmulet.Generator.Passes
import ProteanAmulet.Generator.Flags
import ProteanAmulet.Generator.TestCases
import ProteanAmulet.Generator.Blocklist
import ProteanAmulet.Generator.Machine
import ProteanAmulet.Generator.Shape
import ProteanAmulet.Generator.Division
import ProteanAmulet.Generator.Accesses
import ProteanAmulet.Sandbox.Cycles
import ProteanAmulet.Library.Simulation
import ProteanAmulet.Sandbox.Divisions
import ProteanAmulet.Sandbox.Masking
import ProteanAmulet.Sandbox.Traps
import ProteanAmulet.Sandbox.Dominance
import ProteanAmulet.Sandbox.SsaForm
import ProteanAmulet.Faults
import ProteanAmulet.Termination
import ProteanAmulet.HardwareTraces
import ProteanAmulet.ContractTraces
import ProteanAmulet.Triage
import ProteanAmulet.Generator.Layout
import ProteanAmulet.Generator.Parser
import ProteanAmulet.Generator.Reading
import ProteanAmulet.Generator.Names
import ProteanAmulet.Generator.Printer
import ProteanAmulet.Library.Buckets
import ProteanAmulet.Generator.Addresses
import ProteanAmulet.Postprocessor
import ProteanAmulet.FenceInsertion
import ProteanAmulet.Observations
import ProteanAmulet.Library.Programs
import ProteanAmulet.Library.SelfDelimiting
import ProteanAmulet.Gem5Logs
import ProteanAmulet.Gem5Campaign
import ProteanAmulet.KernelMeasurement
import ProteanAmulet.Sandbox.Accesses
import ProteanAmulet.Sandbox.Confinement
import ProteanAmulet.Sandbox.Completion
