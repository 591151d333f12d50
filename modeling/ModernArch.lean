import ModernArch.Framework.Footprint
import ModernArch.Framework.Word
import ModernArch.Vdev.Memory
import ModernArch.Framework.Argmax
import ModernArch.SimpleCNN.Core
import ModernArch.SimpleCNN.Effects
import ModernArch.SimpleCNN.Conv
import ModernArch.SimpleCNN.Dense
import ModernArch.SimpleCNN.Staging
import ModernArch.SimpleCNN.Network
import ModernArch.SimpleCNN.AIChip
import ModernArch.SimpleCNN.Views
import ModernArch.SimpleCNN.Stages
import ModernArch.SimpleCNN.Pipeline
import ModernArch.SimpleCNN.Session
import ModernArch.Framework.Binary32
import ModernArch.SimpleCNN.Correctness
import ModernArch.SimpleCNN.Sparse
import ModernArch.BinNet.RramArray
import ModernArch.BinNet.Layer
import ModernArch.BinNet.Loading
import ModernArch.BinNet.Agreement
import ModernArch.BinNet.Core
import ModernArch.BinNet.Driver
import ModernArch.BinNet.Views
import ModernArch.BinNet.Pipeline
import ModernArch.BinNet.Session
import ModernArch.BinNet.Correctness
import ModernArch.Framework.Transition
import ModernArch.Vdev.Device
import ModernArch.Vdev.Status
import ModernArch.SimpleCNN.Device
import ModernArch.Vdev.Driver
import ModernArch.Vdev.Handshake
import ModernArch.Vdev.Sequential
import ModernArch.BinNet.Main
import ModernArch.Vdev.Layout
import ModernArch.SimpleCNN.Main
import ModernArch.LoadPhase
import ModernArch.Framework.Backtrack
import ModernArch.Queens.Search
import ModernArch.Queens.Correctness
import ModernArch.SimpleCNN.Operations
import ModernArch.SimpleCNN.SameConv
import ModernArch.Engy.EnergyMgmt
import ModernArch.Engy.StateMachines
import ModernArch.Engy.Replay
import ModernArch.Framework.Bins
import ModernArch.Sim.EventList
import ModernArch.Sim.Agenda
import ModernArch.Sim.EventOrder
import ModernArch.Framework.Slots
import ModernArch.Mem.PageTable
import ModernArch.Mem.Lookup
import ModernArch.Sim.Process
import ModernArch.Sim.DeviceMap
import ModernArch.Engy.Levels
import ModernArch.Queens.Ownership
import ModernArch.X86.Microops
import ModernArch.X86.SignExtension
import ModernArch.BinNet.ReadBack
import ModernArch.Buffers
import ModernArch.Cpu.TickEvent
import ModernArch.SimpleCNN.Cycles
import ModernArch.SimpleCNN.Sparsify
import ModernArch.BinNet.Cycles
import ModernArch.Vdev.Delay
import ModernArch.Delay
import ModernArch.Framework.Bits
import ModernArch.Framework.Tenancy
import ModernArch.Mem.Chunks
import ModernArch.Mem.PortProxy
import ModernArch.Sim.LiveProcess
import ModernArch.Sim.Frames
import ModernArch.Sim.AddressSpace
import ModernArch.Sim.Moves
import ModernArch.Sim.SystemCalls
import ModernArch.Sim.Host
import ModernArch.Vdev.Answers
import ModernArch.SimpleCNN.Program
import ModernArch.BinNet.Program
import ModernArch.Framework.HalfProducts
import ModernArch.Framework.LongDivision
import ModernArch.X86.MemoryDivision
import ModernArch.X86.Multiplication
