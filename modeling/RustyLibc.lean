import RustyLibc.Outcome
import RustyLibc.ByteOrder
import RustyLibc.Errno
import RustyLibc.DnsWire
import RustyLibc.DnsBounds
import RustyLibc.DnsPrefix
import RustyLibc.DnsMessage
import RustyLibc.DnsDecode
import RustyLibc.DnsNames
import RustyLibc.RecordStream
import RustyLibc.FsDirents
import RustyLibc.InotifyEvents
import RustyLibc.RecordQueue
import RustyLibc.FsListing
import RustyLibc.InotifyWatch
import RustyLibc.StepMachine
import RustyLibc.LinuxKernel
import RustyLibc.RedirectPlan
import RustyLibc.X86Machine
import RustyLibc.X86Redirect
import RustyLibc.X86Clobber
import RustyLibc.Aarch64Machine
import RustyLibc.Aarch64Redirect
import RustyLibc.Descriptors
import RustyLibc.HostCalls
import RustyLibc.DnsQuery
import RustyLibc.SlotQueue
import RustyLibc.DnsArrivals
import RustyLibc.DnsEncode
import RustyLibc.DnsSession
import RustyLibc.DnsAccept
import RustyLibc.DnsNetwork
import RustyLibc.FdStreams
import RustyLibc.SyscallReturn
import RustyLibc.ProcessIdentity
import RustyLibc.Privileges
import RustyLibc.ProcessControl
import RustyLibc.TextLines
import RustyLibc.DnsConfig
import RustyLibc.DnsQuad
import RustyLibc.Resources
import RustyLibc.FdTable
import RustyLibc.DnsResolve
import RustyLibc.DecimalText
import RustyLibc.TtyPair
import RustyLibc.TermiosName
import RustyLibc.TimeMillis
import RustyLibc.MemoryReads
import RustyLibc.HeapBlocks
import RustyLibc.ArgVector
import RustyLibc.VdsoLookup
import RustyLibc.VdsoImage
import RustyLibc.VdsoResolve
import RustyLibc.VdsoBase
import RustyLibc.VdsoEntry
import RustyLibc.SharedCell
import RustyLibc.VdsoClock
import RustyLibc.CountedRuns
import RustyLibc.PipeTransfer
import RustyLibc.WaitStatus
import RustyLibc.WaitChildren
import RustyLibc.VforkExec
import RustyLibc.SignalWait
import RustyLibc.StructLayout
import RustyLibc.SignalQueue
import RustyLibc.HostSimulation
import RustyLibc.DnsMachine
import RustyLibc.EpollWait
import RustyLibc.MemorySegments
import RustyLibc.VectoredIo
