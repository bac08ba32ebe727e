import BulbOS.Heap.Regions
import BulbOS.Heap.Neighbours
import BulbOS.Heap.Pages
import BulbOS.Table.Resize
import BulbOS.Pmm.Alloc
import BulbOS.Pipe.Fifo
import BulbOS.Task.Conserve
import BulbOS.Sem.Safety
import BulbOS.Task.Frame
import BulbOS.Bio.Coherence
import BulbOS.Bio.Room
import BulbOS.Ide.Exclusive
import BulbOS.Ide.Sectors
import BulbOS.Ext2.Content
import BulbOS.Ext2.Init
import BulbOS.Ext2.Truncate
import BulbOS.Ext2.Location
import BulbOS.Ext2.Mapping
import BulbOS.Switch.Straight
import BulbOS.Dir.Locks
import BulbOS.Dir.Names
import BulbOS.Dir.Stored
import BulbOS.Dir.Walks
import BulbOS.File.Safety
import BulbOS.File.Lists
import BulbOS.File.Offset
import BulbOS.Block.Named
import BulbOS.Cond.Wakeup
import BulbOS.Dentry.Files
import BulbOS.Inode.Delete
import BulbOS.Pipe.Access
import BulbOS.Pipe.Close
import BulbOS.Pipe.Locks
import BulbOS.Pipe.Readers
import BulbOS.Pipe.Free
import BulbOS.Pipe.Blocks
import BulbOS.Dentry.Parent
import BulbOS.Dentry.Children
import BulbOS.Task.Wake
import BulbOS.Task.Sleep
import BulbOS.Pmm.Boot
import BulbOS.Heap.Sizes
import BulbOS.Page.Model
import BulbOS.Page.Tables
import BulbOS.Page.Identity
import BulbOS.Page.Neighbours
import BulbOS.Page.Translate
import BulbOS.Page.Frames
import BulbOS.Lib.Circular
import BulbOS.Lib.Resend
import BulbOS.Keyboard.Model
import BulbOS.Keyboard.Protocol
import BulbOS.Task.Away
import BulbOS.Stdin.Model
import BulbOS.Stdin.Keys
import BulbOS.Keyboard.Scancode
import BulbOS.Keyboard.Decode
import BulbOS.Keyboard.Flags
import BulbOS.Tty.Model
import BulbOS.Tty.Paint
import BulbOS.Tty.Layout
import BulbOS.Tty.Cursor
import BulbOS.Shell.Input
import BulbOS.Dir.Readdir
import BulbOS.Ide.Fill
import BulbOS.Rtc.Epoch
import BulbOS.Apic.Madt
import BulbOS.Lib.Strings
import BulbOS.Lib.Numeral
import BulbOS.Libc.Memmove
import BulbOS.Libc.Itoa
import BulbOS.Libc.Printf
import BulbOS.Rsdt.Checksum
import BulbOS.Lib.Stride
import BulbOS.Pmm.Search
import BulbOS.Table.Counts
import BulbOS.Queue.Model
import BulbOS.Queue.Blocks
import BulbOS.Lib.Forest
import BulbOS.Pci.Model
import BulbOS.Pci.Scan
import BulbOS.Pci.Exact
import BulbOS.Queue.Fifo
import BulbOS.Inode.Lru
import BulbOS.Dentry.Balance
import BulbOS.Lib.X86
import BulbOS.Switch.Context
import BulbOS.Switch.Create
import BulbOS.Switch.Resume
import BulbOS.Syscall.Entry
import BulbOS.Shell.Typing
import BulbOS.Libc.Compare
import BulbOS.Shell.Commands
import BulbOS.Shell.Session
import BulbOS.Stdout.Model
import BulbOS.Tty.Editing
import BulbOS.Pipe.Writers
import BulbOS.Stdout.Order
import BulbOS.Shell.Screen
import BulbOS.Page.Aliasing
import BulbOS.Page.Boot
