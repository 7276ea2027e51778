import Dryadalis.Returns
import Dryadalis.Heap
import Dryadalis.HeapContents
import Dryadalis.Forwarding
import Dryadalis.BlockEnds
import Dryadalis.NativeSyscalls
import Dryadalis.Switches
import Dryadalis.Isolation
import Dryadalis.Transparency
import Dryadalis.RoundTrip
import Dryadalis.Protections
import Dryadalis.FirstSegment
import Dryadalis.InitialBreak
import Dryadalis.ElfHeader
import Dryadalis.Comparisons
import Dryadalis.RegisterLaws
import Dryadalis.PageDeletion
import Dryadalis.InitialStack
import Dryadalis.Ledger
import Dryadalis.Termination
import Dryadalis.World
import Dryadalis.Refinement
import Dryadalis.PageTable
import Dryadalis.PageLog
import Dryadalis.GuestEntry
import Dryadalis.Startup
import Dryadalis.GuestStart
