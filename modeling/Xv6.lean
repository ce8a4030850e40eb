import Xv6.Starvation
import Xv6.RoundRobin
import Xv6.Recovery
import Xv6.GroupCommit
import Xv6.WriteBound
import Xv6.ShortWrite
import Xv6.Bracketing
import Xv6.Rollback
import Xv6.Reclaim
import Xv6.MkfsContent
import Xv6.ExitWait
import Xv6.Ownership
import Xv6.Nesting
import Xv6.ConsoleRead
import Xv6.PipeStream
import Xv6.VirtioRings
import Xv6.Fork
import Xv6.FileRead
import Xv6.PriorityInversion
import Xv6.Memmove
import Xv6.Grep
import Xv6.Printint
