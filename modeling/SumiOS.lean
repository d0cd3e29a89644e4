import SumiOS.Lib.Ring
import SumiOS.Lib.Run
import SumiOS.Lib.Simulation
import SumiOS.Lib.Block
import SumiOS.Lib.Counter
import SumiOS.Types
import SumiOS.List
import SumiOS.PageAlloc
import SumiOS.Proofs.List.Sequences
import SumiOS.Proofs.Buddy.Spec
import SumiOS.Proofs.Buddy.Run
import SumiOS.Proofs.Buddy.Free
import SumiOS.Proofs.Buddy.Ascending
import SumiOS.Proofs.Buddy.Counter
import SumiOS.Proofs.Buddy.Probes
import SumiOS.Proofs.Buddy.Exclusive
import SumiOS.Proofs.Buddy.Lossless
import SumiOS.Proofs.Buddy.FreeLists
import SumiOS.Proofs.Buddy.RefCount
import SumiOS.Proofs.Buddy.Exact
import SumiOS.Proofs.Buddy.Sized
import SumiOS.Lib.Buddies
import SumiOS.Proofs.Buddy.Coalesce
import SumiOS.Lib.ByteMem
import SumiOS.Lib.Trie
import SumiOS.PageTable
import SumiOS.MmInit
import SumiOS.Multiboot
import SumiOS.Boot
import SumiOS.Lib.Chain
import SumiOS.Slub
import SumiOS.Proofs.Slub.Pool
import SumiOS.Proofs.Slub.Spec
import SumiOS.Proofs.Slub.Chunks
import SumiOS.Proofs.Slub.Invariant
import SumiOS.Proofs.Slub.Kmalloc
import SumiOS.Proofs.Slub.Objects
import SumiOS.Proofs.Slub.Exhausted
import SumiOS.Lib.Terminal
import SumiOS.Tty
import SumiOS.Proofs.Tty.Refinement
import SumiOS.Print
import SumiOS.Lib.Numeral
import SumiOS.Lib.Sink
import SumiOS.Proofs.Print.Digits
import SumiOS.Proofs.Print.Format
import SumiOS.Proofs.Print.Numbers
import SumiOS.Proofs.PageTable.Spec
import SumiOS.Proofs.PageTable.Map
import SumiOS.Proofs.PageTable.Lookup
import SumiOS.Proofs.PageTable.Writable
import SumiOS.Proofs.PageTable.Exhausted
import SumiOS.Proofs.PageTable.Count
import SumiOS.Proofs.PageTable.Derefs
import SumiOS.Proofs.PageTable.Installs
import SumiOS.Proofs.Boot.Alloc
import SumiOS.Proofs.Boot.Image
import SumiOS.Proofs.Boot.Permissions
import SumiOS.Proofs.Boot.Translation
import SumiOS.Proofs.Boot.Demand
import SumiOS.Proofs.Boot.Layout
import SumiOS.Proofs.Init.Linear
import SumiOS.Proofs.Init.Frames
import SumiOS.Proofs.Init.Setup
import SumiOS.Proofs.Init.Pages
import SumiOS.Proofs.Init.Owned
import SumiOS.Proofs.Init.Mapping
import SumiOS.Proofs.Init.Written
import SumiOS.Proofs.Init.Usable
import SumiOS.Proofs.Init.Direct
import SumiOS.Proofs.Init.Supply
import SumiOS.Proofs.Init.Demand
import SumiOS.Proofs.Init.Leftover
import SumiOS.Proofs.Init.Multiboot
import SumiOS.Proofs.Init.Reached
import SumiOS.Proofs.Init.Loops
import SumiOS.Proofs.Init.AreaEnds
import SumiOS.Proofs.Init.WholeFrames
import SumiOS.Proofs.Init.Stranded
import SumiOS.Proofs.Init.TablesApart
import SumiOS.Proofs.Init.Tags
import SumiOS.Proofs.Init.Decode
import SumiOS.Proofs.Init.Walkers
import SumiOS.Lib.Bitfield
import SumiOS.Lib.ByteRun
import SumiOS.Lib.Monitor
import SumiOS.Lib.Cells
import SumiOS.Ports
import SumiOS.Proofs.Tty.Ports
import SumiOS.String
import SumiOS.Interrupt
import SumiOS.Proofs.Interrupt.Memcpy
import SumiOS.Proofs.Interrupt.Delivery
import SumiOS.Lock
import SumiOS.Proofs.Buddy.Cores
import SumiOS.Entry
import SumiOS.Proofs.Boot.Screen
import SumiOS.Proofs.Boot.Entry
import SumiOS.Startup
import SumiOS.Proofs.Boot.Startup
import SumiOS.Kernel
import SumiOS.InitLive
import SumiOS.Proofs.Kernel.Frames
import SumiOS.Proofs.Slub.AtNull
import SumiOS.Proofs.Kernel.Separation
import SumiOS.Proofs.Kernel.Run
import SumiOS.Proofs.Kernel.Kept
import SumiOS.Proofs.Kernel.Loops
import SumiOS.Proofs.Kernel.Start
import SumiOS.Proofs.Kernel.Final
import SumiOS.Proofs.Kernel.Enough
import SumiOS.Proofs.Kernel.Safety
import SumiOS.Proofs.Kernel.Main
import SumiOS.Proofs.Kernel.Image
import SumiOS.Proofs.Kernel.InitLive
