import Saynaa.Lib.Loop
import Saynaa.Lib.Bits
import Saynaa.Lib.Linked
import Saynaa.Libc.Math
import Saynaa.Proof.Pmm
import Saynaa.Proof.Accounting
import Saynaa.Lib.Writes
import Saynaa.Proof.Compose
import Saynaa.Proof.Buffers
import Saynaa.Proof.AddressSpace
import Saynaa.Proof.SbrkRefused
import Saynaa.Proof.KernelHeap
import Saynaa.Proof.Sched
import Saynaa.Proof.Fair
import Saynaa.Proof.Sleep
import Saynaa.Proof.WmServer
import Saynaa.Proof.Malloc
import Saynaa.Proof.UserSizes
import Saynaa.Proof.Stdout
import Saynaa.Proof.Vfs
import Saynaa.Proof.ShmTable
import Saynaa.Proof.Fpu
import Saynaa.Proof.Exec
import Saynaa.Proof.Focus
import Saynaa.Proof.PtyLines
import Saynaa.Proof.PtyEdit
import Saynaa.Proof.Ext2Read
import Saynaa.Proof.Ext2Safe
import Saynaa.Proof.Damage
import Saynaa.Proof.Events
import Saynaa.Proof.Election
import Saynaa.Proof.Ext2Bytes
import Saynaa.Proof.Ext2Dir
import Saynaa.Proof.PathNormal
import Saynaa.Proof.ShmCreate
import Saynaa.Proof.ShmMap
import Saynaa.Proof.Div64
import Saynaa.Proof.Args
import Saynaa.Proof.Vsnprintf
import Saynaa.Proof.PfCount
import Saynaa.Proof.PfPlain
import Saynaa.Proof.AbsPath
import Saynaa.Proof.Cwd
import Saynaa.Libc.Scanf
import Saynaa.Proof.PfInteger
import Saynaa.Proof.Scanf
import Saynaa.Spec.Printf
import Saynaa.Proof.PfParse
import Saynaa.Proof.PfLayout
import Saynaa.Proof.PfC11
import Saynaa.Proof.Raise
import Saynaa.Proof.Click
import Saynaa.Dev.Pts
import Saynaa.Proof.Pts
import Saynaa.User.Terminal
import Saynaa.Lib.Wrap
import Saynaa.Proof.Terminal
import Saynaa.Proof.TermLines
import Saynaa.Sys.Kprintf
import Saynaa.Proof.Kprintf
import Saynaa.Sys.Mouse
import Saynaa.Proof.Mouse
import Saynaa.Sys.Keyboard
import Saynaa.Proof.Keyboard
import Saynaa.User.Graphics
import Saynaa.Proof.Graphics
import Saynaa.Lib.Slope
import Saynaa.Proof.Line
import Saynaa.Proof.UserSpace
import Saynaa.Proof.Arguments
import Saynaa.Proof.FirstFit
import Saynaa.Proof.Fb
import Saynaa.Proof.Prune
import Saynaa.Proof.LinkedList
import Saynaa.Proof.Capture
import Saynaa.Proof.ElfImage
import Saynaa.Proof.ElfReads
import Saynaa.Proof.ExecClean
import Saynaa.Proof.Acts
import Saynaa.Proof.ExecActs
import Saynaa.Proof.Isolation
import Saynaa.Lib.Client
import Saynaa.Sys.Files
import Saynaa.Proof.Files
import Saynaa.User.Cat
import Saynaa.Proof.Cat
import Saynaa.Proof.Started
import Saynaa.Sys.ExecPath
import Saynaa.Proof.ExecPath
import Saynaa.User.Shell
import Saynaa.Proof.Typed
