import DevFuzz.Lib.Bytes
import DevFuzz.Lib.Strings
import DevFuzz.Probe.SolutionLog
import DevFuzz.Probe.Codegen
import DevFuzz.Probe.SolverValues
import DevFuzz.Probe.Model
import DevFuzz.Probe.Replay
import DevFuzz.Probe.Restart
import DevFuzz.Lib.Reading
import DevFuzz.PT.Decoder
import DevFuzz.Lib.Machine
import DevFuzz.PT.Passes
import DevFuzz.PT.Bounds
import DevFuzz.PT.Packets
import DevFuzz.PT.Framing
import DevFuzz.Lib.Run
import DevFuzz.Perf.CheckBuffer
import DevFuzz.Proxy.Handshake
import DevFuzz.Proxy.Situations
import DevFuzz.Proxy.Epochs
import DevFuzz.Proxy.Delivery
import DevFuzz.Lib.Logged
import DevFuzz.Stage2.HWInput
import DevFuzz.Stage2.DMA
import DevFuzz.Stage2.DMABounds
import DevFuzz.Stage2.QEMUBuffer
import DevFuzz.Stage2.Models
import DevFuzz.Lib.Patch
import DevFuzz.Stage2.Feed
import DevFuzz.Aplib.FuzzData
import DevFuzz.Aplib.Ends
import DevFuzz.Aplib.Determined
import DevFuzz.Aplib.MappedFile
import DevFuzz.PeX.ConfigSpace
import DevFuzz.PeX.Isolation
import DevFuzz.PeX.Lanes
import DevFuzz.Lib.Collections
import DevFuzz.Stage2.Dictionary
import DevFuzz.Analysis.Constraints
import DevFuzz.Analysis.BitTests
import DevFuzz.Analysis.Orders
import DevFuzz.Analysis.Predicates
import DevFuzz.Analysis.Chains
import DevFuzz.Lib.Search
import DevFuzz.Wrappers.Model
import DevFuzz.Wrappers.Tables
import DevFuzz.Wrappers.Lossless
import DevFuzz.PT.Parts
import DevFuzz.PT.Resync
import DevFuzz.Lib.Writes
import DevFuzz.Stage2.KeepOriginal
import DevFuzz.Aplib.USBTransfer
import DevFuzz.Analysis.DMALengths
import DevFuzz.Profile.Analyze
import DevFuzz.Profile.Exact
import DevFuzz.Aplib.Resources
import DevFuzz.Lib.Layout
import DevFuzz.Probe.LazyRestart
import DevFuzz.Proxy.PexChannel
import DevFuzz.Analysis.USBReads
import DevFuzz.Analysis.Conditions
import DevFuzz.PT.Segments
import DevFuzz.PT.Realign
import DevFuzz.PT.Records
import DevFuzz.Perf.GetEvent
import DevFuzz.PT.IpStream
import DevFuzz.PT.Progress
import DevFuzz.PT.Truncation
import DevFuzz.Probe.Records
import DevFuzz.Probe.Handover
import DevFuzz.PeX.Windows
import DevFuzz.PeX.Sizing
import DevFuzz.Aplib.USBProbe
import DevFuzz.Perf.AuxBuffer
import DevFuzz.Stage2.BulkWindows
import DevFuzz.Stage2.USBModel
import DevFuzz.Analysis.Emitted
import DevFuzz.Stage2.Bookkeeping
import DevFuzz.Aplib.Registers
import DevFuzz.Analysis.MemberOffset
import DevFuzz.Lib.Depth
import DevFuzz.Analysis.BaseArguments
import DevFuzz.Analysis.Displacements
import DevFuzz.Analysis.Subclass
import DevFuzz.Stage2.Combinations
import DevFuzz.Analysis.AllOnes
import DevFuzz.Proxy.AFLClient
import DevFuzz.Aplib.DeviceRam
import DevFuzz.Wrappers.History
import DevFuzz.Analysis.PointerStores
import DevFuzz.Analysis.Balanced
import DevFuzz.Coverage.Gcov
import DevFuzz.Proxy.ForkServer
import DevFuzz.Proxy.Launch
import DevFuzz.Lib.Ring
import DevFuzz.PT.Behind
import DevFuzz.Perf.Pipeline
import DevFuzz.Lib.Paths
import DevFuzz.Analysis.Distance
import DevFuzz.Analysis.SecondaryDMA
import DevFuzz.Analysis.SecondaryInit
import DevFuzz.Lib.Tokens
import DevFuzz.Lib.Readers
import DevFuzz.Analysis.InitCode
import DevFuzz.Lib.Lines
import DevFuzz.Analysis.ModelFile
import DevFuzz.PeX.Exploration
import DevFuzz.Analysis.Tests
import DevFuzz.Analysis.Registers
