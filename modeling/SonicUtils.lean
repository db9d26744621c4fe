import SonicUtils.Lib.Runs
import SonicUtils.ThreadPool.Wakeup
import SonicUtils.Event.Routing
import SonicUtils.Event.Framing
import SonicUtils.Fault
import SonicUtils.Lib.PtrTree
import SonicUtils.LinkedList.Dll
import SonicUtils.Radix.Table
import SonicUtils.Radix.Key
import SonicUtils.Radix.Lookup
import SonicUtils.Radix.Update
import SonicUtils.Lib.BitTrie
import SonicUtils.Radix.Represents
import SonicUtils.Radix.Exact
import SonicUtils.Radix.Best
import SonicUtils.Radix.Memory
import SonicUtils.Radix.Insert
import SonicUtils.Radix.Remove
import SonicUtils.Radix.Runs
import SonicUtils.Lib.TrieOrder
import SonicUtils.Radix.Climb
import SonicUtils.Radix.Next
import SonicUtils.Radix.Successor
import SonicUtils.Radix.Shape
import SonicUtils.Lib.Bytes
import SonicUtils.Tlv.Model
import SonicUtils.Tlv.RoundTrip
import SonicUtils.Tlv.Search
import SonicUtils.Event.SomeData
import SonicUtils.Lib.Loop
import SonicUtils.Radix.Walk
import SonicUtils.Radix.Traverse
import SonicUtils.Radix.Sweep
import SonicUtils.Radix.Footprint
import SonicUtils.Radix.Traversals
import SonicUtils.Radix.Versions
import SonicUtils.Radix.VersionWalk
import SonicUtils.Radix.Deferral
import SonicUtils.Radix.Course
import SonicUtils.Radix.WalkRemoval
import SonicUtils.Lib.Chain
import SonicUtils.LinkedList.Sequence
import SonicUtils.Config.Lines
import SonicUtils.Config.RoundTrip
import SonicUtils.ThreadPool.Deletion
import SonicUtils.Radix.Canonical
import SonicUtils.Radix.Twins
import SonicUtils.Radix.TwinSteps
import SonicUtils.Radix.DebugFlag
import SonicUtils.Radix.Books
import SonicUtils.Radix.Starved
import SonicUtils.Lib.Precedence
import SonicUtils.LinkedList.Members
import SonicUtils.Radical.Members
import SonicUtils.Radical.Steps
import SonicUtils.Radical.Order
import SonicUtils.Radical.Passing
import SonicUtils.Radix.Standing
import SonicUtils.Radical.Acts
import SonicUtils.Radical.Counters
import SonicUtils.Radical.Outlive
import SonicUtils.Config.Comments
import SonicUtils.Lib.Compare
import SonicUtils.Lib.Inorder
import SonicUtils.Lib.RedBlack
import SonicUtils.RbTree.Table
import SonicUtils.RbTree.Memory
import SonicUtils.RbTree.Operations
import SonicUtils.RbTree.Insert
import SonicUtils.Lib.SearchTree
import SonicUtils.RbTree.Search
import SonicUtils.RbTree.Remove
import SonicUtils.RbTree.Update
import SonicUtils.RbTree.Removal
import SonicUtils.RbTree.Runs
import SonicUtils.RbTree.Iteration
import SonicUtils.RbTree.Walk
import SonicUtils.RbTree.Chunks
import SonicUtils.Radix.Chunks
import SonicUtils.Lib.Merge
import SonicUtils.MergeSort.Model
import SonicUtils.MergeSort.Sorting
import SonicUtils.LinkedList.Sorted
import SonicUtils.Radical.Visits
import SonicUtils.Radical.Renumber
import SonicUtils.Tlv.Lookup
import SonicUtils.Tlv.Reads
import SonicUtils.Transfer.Scatter
import SonicUtils.Radical.Walkers
import SonicUtils.Radical.Lookups
import SonicUtils.Radix.Covering
import SonicUtils.Radix.Subtree
import SonicUtils.Radix.Landing
import SonicUtils.Radical.Stops
import SonicUtils.Radix.Refused
import SonicUtils.Radix.Finds
import SonicUtils.Radix.Pending
import SonicUtils.Radical.Deferred
import SonicUtils.Bits.Masks
import SonicUtils.Bits.Searches
import SonicUtils.Bits.Bitmaps
import SonicUtils.Lib.Splitting
import SonicUtils.Strings.Tokens
import SonicUtils.Strings.Trim
import SonicUtils.Strings.Permissions
import SonicUtils.Event.TooBig
import SonicUtils.Transfer.Interrupted
import SonicUtils.Event.RecvMsg
import SonicUtils.SocketService.Model
import SonicUtils.SocketService.Requests
import SonicUtils.Event.Server
import SonicUtils.Event.Belonging
import SonicUtils.MergeSort.Bounds
import SonicUtils.Strings.Grammar
import SonicUtils.Tables
import SonicUtils.Ip.Masks
import SonicUtils.Ip.Prefixes
import SonicUtils.Directory
import SonicUtils.Lib.TreeDrawing
import SonicUtils.RbTree.Print
import SonicUtils.Radix.Nested
import SonicUtils.Radix.Print
import SonicUtils.Printing
import SonicUtils.RbTree.Ascending
import SonicUtils.Crc32
import SonicUtils.Event.ClientCalls
import SonicUtils.Event.Broker
import SonicUtils.Event.EndToEnd
import SonicUtils.Lib.Descriptors
import SonicUtils.Redirect
import SonicUtils.CmdRedir
import SonicUtils.Radical.Consumers
import SonicUtils.ThreadPool.Draining
import SonicUtils.Sorts
import SonicUtils.SocketService.Waking
import SonicUtils.SocketService.Wedging
import SonicUtils.Config.Saving
import SonicUtils.Ip.V4
import SonicUtils.Radical.Upcoming
