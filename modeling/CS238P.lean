import CS238P.Library.SortedCounts
import CS238P.Library.CString
import CS238P.Library.StraightLine
import CS238P.Library.Bytes
import CS238P.Library.Wp
import CS238P.Library.OpenAddressing
import CS238P.Library.Double
import CS238P.Library.Decimal
import CS238P.Library.LogMap
import CS238P.Library.CObject
import CS238P.Library.Sync
import CS238P.Library.Windows
import CS238P.Library.HeightBalanced
import CS238P.Library.RoundRobin
import CS238P.Library.Scan
import CS238P.Library.MiniC
import CS238P.Library.Machine
import CS238P.Library.Terminal
import CS238P.Avl.Model
import CS238P.Avl.Balance
import CS238P.Avl.Multiset
import CS238P.Avl.Errors
import CS238P.Avl.Depth
import CS238P.Avl.Scm
import CS238P.Avl.Heap
import CS238P.Avl.Linked
import CS238P.Avl.Memory
import CS238P.Avl.Region
import CS238P.Avl.Sessions
import CS238P.Avl.Durable
import CS238P.Calc.Parser
import CS238P.Calc.Lexer
import CS238P.Calc.Tokenize
import CS238P.Calc.Grammar
import CS238P.Calc.Run
import CS238P.Calc.Completeness
import CS238P.Calc.Soundness
import CS238P.Calc.Parse
import CS238P.Calc.Operands
import CS238P.Calc.Generate
import CS238P.Calc.Constants
import CS238P.Calc.Emit
import CS238P.Calc.Evaluate
import CS238P.Calc.Ids
import CS238P.Shell.Model
import CS238P.Shell.Trim
import CS238P.Shell.Cell
import CS238P.Shell.Edit
import CS238P.Shell.InSlot
import CS238P.Shell.Slots
import CS238P.Shell.Editor
import CS238P.Shell.Returns
import CS238P.Shell.History
import CS238P.Shell.Desk
import CS238P.Shell.Location
import CS238P.Shell.Display
import CS238P.Shell.Unseen
import CS238P.Words.Model
import CS238P.Words.Replay
import CS238P.Words.Kept
import CS238P.Words.Load
import CS238P.Words.Bag
import CS238P.Words.Process
import CS238P.Sched.Model
import CS238P.Sched.ThreadList
import CS238P.Sched.Candidate
import CS238P.Sched.Turns
import CS238P.Sched.Create
import CS238P.Sched.Dispatch
import CS238P.Sched.Destroy
import CS238P.Store.System
import CS238P.Store.Kvraw
import CS238P.Store.KvrawSpec
import CS238P.Store.Index
import CS238P.Store.IndexSpec
import CS238P.Store.Kvdb
import CS238P.Store.Chain
import CS238P.Store.Memory
import CS238P.Store.IndexMap
import CS238P.Store.Probing
import CS238P.Store.Drift
import CS238P.Store.RoundTrip
import CS238P.Store.History
import CS238P.Store.Invariant
import CS238P.Store.Interface
import CS238P.Store.Refinement
import CS238P.Store.Room
import CS238P.Store.Chains
import CS238P.Store.Search
import CS238P.Store.Counters
import CS238P.Store.Failure
import CS238P.Store.Writes
import CS238P.Store.Buffers
import CS238P.Store.Twins
import CS238P.Store.Sentinel
import CS238P.Store.Assertions
import CS238P.Store.Requests
import CS238P.Store.Tests
import CS238P.Cpu.Model
import CS238P.Cpu.Counters
import CS238P.Cpu.Monitor
