import BiProject.Constant
import BiProject.Lib.Ring
import BiProject.Smr.QscRing
import BiProject.Smr.Quiesce
import BiProject.Smr.FreePath
import BiProject.Smr.System
import BiProject.Smr.Bound
import BiProject.Smr.Reclamation
import BiProject.Smr.Invalidation
import BiProject.Lib.SearchTree
import BiProject.RbTree.Cbtree
import BiProject.RbTree.Repr
import BiProject.RbTree.Evolve
import BiProject.RbTree.Update
import BiProject.RbTree.Operations
import BiProject.RbTree.Balance
import BiProject.RbTree.Cuts
import BiProject.RbTree.Readers
import BiProject.Lib.ListMem
import BiProject.Slab.BiSlab
import BiProject.Slab.SlabAt
import BiProject.Slab.MemMgr
import BiProject.Slab.Calls
import BiProject.Slab.Books
import BiProject.Slab.Allocator
import BiProject.Slab.Runs
import BiProject.Slab.Lists
import BiProject.Slab.Returns
import BiProject.Slab.Reuse
import BiProject.Slab.Sizes
import BiProject.Lib.Regions
import BiProject.Malloc.BiMalloc
import BiProject.Malloc.Runs
import BiProject.Malloc.Requests
import BiProject.Lib.Chains
import BiProject.BiMc.Assoc
import BiProject.BiMc.Writers
import BiProject.BiMc.Readers
import BiProject.BiMc.Memcache
import BiProject.BiMc.Retire
import BiProject.BiMc.Accounting
import BiProject.Rpc.MsgQueue
import BiProject.Rpc.Channel
import BiProject.Rpc.Delivery
import BiProject.Lib.Fairness
import BiProject.Rpc.Answers
import BiProject.Rpc.Progress
import BiProject.McShare.MsgQueue
import BiProject.McShare.Fifo
import BiProject.McServer.Items
import BiProject.McServer.Table
import BiProject.McServer.Values
import BiProject.McServer.Evict
import BiProject.McServer.Cache
import BiProject.Lib.Histories
import BiProject.TwoPc.Aborts
import BiProject.TwoPc.Replicas
import BiProject.Lib.Mailbox
import BiProject.TwoPc.DoubleBuffer
import BiProject.TwoPc.Programs
import BiProject.TwoPc.Course
import BiProject.TwoPc.Scan
import BiProject.TwoPc.Handled
import BiProject.MpMc.Delivery
import BiProject.Lib.WriteBack
import BiProject.RpcCache.Delivery
import BiProject.Hash.Blocks
import BiProject.Layout.Apart
import BiProject.Startup.Finish
import BiProject.TreeService.Linearizable
import BiProject.TreeSmr.System
import BiProject.TreeSmr.Cells
import BiProject.TreeSmr.Finds
import BiProject.AtomicObj.Grace
