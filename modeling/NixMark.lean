import NixMark.Iproute.Cache
import NixMark.Iproute.Flush
import NixMark.Cons.Readstr
import NixMark.Qio.Flow
import NixMark.Qio.Write
import NixMark.Heap.Locks
import NixMark.Heap.Integrity
import NixMark.Heap.Maxsz
import NixMark.Asm.Owned
import NixMark.Asm.Runs
import NixMark.Seg.Overlap
import NixMark.Ip.Chain
import NixMark.Ip.Input
import NixMark.Ip.RoundTrip
import NixMark.Ip.Forward
import NixMark.Ip6.Input
import NixMark.Ip6.RoundTrip
import NixMark.Rt.Runs
import NixMark.Runq.Runs
import NixMark.Runq.Share
import NixMark.Runq.Order
import NixMark.Rendez.Runs
import NixMark.Rwlock.Runs
import NixMark.Portclock.Delete
import NixMark.Mnt.Union
import NixMark.Devmnt.Hostile
import NixMark.Mntalloc.Runs
import NixMark.Tcp.LimboRuns
import NixMark.Demux.Runs
import NixMark.Cache.Runs
import NixMark.Env.Runs
import NixMark.Sem.Units
import NixMark.Fd.Runs
import NixMark.Rendezvous.Pairs
import NixMark.Wait.Runs
import NixMark.Ares.Account
import NixMark.Nif.Runs
import NixMark.Nif.Opens
import NixMark.Note.Privilege
import NixMark.Sd.Outside
import NixMark.Lib.Prog
import NixMark.Tls.Blocks
import NixMark.Tls.Final
import NixMark.Tls.RoundTrip
import NixMark.Sd.Runs
import NixMark.Fpu.Isolated
import NixMark.Asm.Free
import NixMark.Lib.Round
import NixMark.Lib.Insertion
import NixMark.Seg.Free
import NixMark.Seg.Fork
import NixMark.Seg.Flush
import NixMark.Seg.Okaddr
import NixMark.Seg.Memchr
import NixMark.Namec.Path
import NixMark.Namec.Clean
import NixMark.Namec.Create
import NixMark.Stat.Setname
import NixMark.Sysfile.Offset
import NixMark.Sysfile.Union
import NixMark.Devmnt.Write
import NixMark.Cache.Mcread
import NixMark.Tcp.Trim
import NixMark.Exec.Header
import NixMark.Alarms.Fires
import NixMark.Ipifc.Aside
import NixMark.Lib.Wound
import NixMark.Alog.Runs
import NixMark.Scsi.Inside
import NixMark.Lib.Dlist
import NixMark.Seg.Victim
import NixMark.Sd.Table
import NixMark.Sd.Versions
import NixMark.Qlock.Handoff
