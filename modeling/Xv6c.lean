import Xv6c.Log.Reservation
import Xv6c.Bio.Commit
import Xv6c.User.Numerals
import Xv6c.Kernel.Strings
import Xv6c.Grep.Lines
import Xv6c.Kernel.Fetch
import Xv6c.Fs.Paths
import Xv6c.Mkfs.Boot
import Xv6c.Kernel.Kill
import Xv6c.Kernel.Listing
import Xv6c.Kernel.Cids
import Xv6c.Kernel.Roots
import Xv6c.Mem.Leaks
import Xv6c.Kernel.AllOrNothing
import Xv6c.Kernel.Sizes
import Xv6c.Kernel.PipeHomes
import Xv6c.Kernel.Charges
import Xv6c.Kernel.Sharing
import Xv6c.Ide.Refine
import Xv6c.Console.Wakeup
import Xv6c.Pipes.Fifo
import Xv6c.Pipes.Page
import Xv6c.Kernel.Sleeplock
import Xv6c.Log.Waiting
