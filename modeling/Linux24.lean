import Linux24.Fs.Convert
import Linux24.Fs.Deadlock
import Linux24.Fs.MixedRuns
import Linux24.Fs.PipeRuns
import Linux24.Fs.PosixMap
import Linux24.Ipc.MsgRuns
import Linux24.Ipc.SemWakeups
import Linux24.Jbd.Escape
import Linux24.Jbd.TailRecovery
import Linux24.Kernel.Capability
import Linux24.Kernel.Pid
import Linux24.Kernel.Rwsem
import Linux24.Kernel.TimerRuns
import Linux24.Md.Raid5
import Linux24.Mm.BootmemRuns
import Linux24.Mm.BuddyRuns
import Linux24.Mm.Pages
import Linux24.Mm.SwapList
import Linux24.Mm.Vmalloc
import Linux24.Net.FilterLayout
import Linux24.Net.FilterScratch
import Linux24.Net.IpBuild
import Linux24.Net.IpRoundTrip
import Linux24.Net.IptCheck
import Linux24.Net.PeerRuns
import Linux24.Net.SynCookies
import Linux24.Net.TcpWindow
import Linux24.Net.UnixGc
import Linux24.Rbtree.Correct
