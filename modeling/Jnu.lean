import Jnu.Rbtree.Theorems
import Jnu.Pmm.Theorems
import Jnu.Pmm.ZeroOnFree
import Jnu.Paging.Destroy
import Jnu.Mm.VmaMap
import Jnu.Mm.Mprotect
import Jnu.Mm.Clone
import Jnu.Mm.Fault
import Jnu.Exec.Image
import Jnu.User.Copy
import Jnu.System.Ownership
import Jnu.System.Memory
import Jnu.System.Frames
import Jnu.System.Faults
import Jnu.System.Transparency
import Jnu.System.Threads
import Jnu.Proc.Lifetime
import Jnu.System.Images
import Jnu.Minix.Refine
import Jnu.Minix.Exposed
import Jnu.Minix.Growth
import Jnu.Minix.Listing
import Jnu.Minix.Limits
import Jnu.Minix.Sizes
import Jnu.Arch.Gs
import Jnu.System.Return
import Jnu.User.Append
import Jnu.User.Access
import Jnu.User.Files
import Jnu.Buffer.Refine
import Jnu.Buffer.Waiting
import Jnu.Vfs.Refcount
import Jnu.Minix.Coherence
import Jnu.Vfs.Names
import Jnu.Vfs.Resolve
import Jnu.Vfs.Mounts
import Jnu.Vfs.Opens
import Jnu.Proc.Group
import Jnu.Proc.GroupExit
import Jnu.Proc.GroupReap
import Jnu.Proc.Sleep
import Jnu.Proc.Mutex
import Jnu.Arch.Context
import Jnu.User.Klog
import Jnu.Drivers.Ahci
import Jnu.Fat32.Geometry
