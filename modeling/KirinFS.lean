import KirinFS.Foundation.IntrusiveRing
import KirinFS.Foundation.Tiling
import KirinFS.Foundation.WordBits
import KirinFS.Foundation.PrefixTable
import KirinFS.Foundation.RedBlack
import KirinFS.Foundation.Simulation
import KirinFS.Foundation.LinkedChain
import KirinFS.Foundation.CString
import KirinFS.Foundation.Crc
import KirinFS.Foundation.Histories
import KirinFS.Foundation.Holders
import KirinFS.Slab.Pool
import KirinFS.Slab.Alloc
import KirinFS.Slab.Geometry
import KirinFS.Slab.Free
import KirinFS.Slab.Invariant
import KirinFS.Slab.PageLists
import KirinFS.Slab.Surgery
import KirinFS.Slab.TakeRun
import KirinFS.Slab.SlotStep
import KirinFS.Slab.Coalesce
import KirinFS.Slab.GiveRun
import KirinFS.Slab.ChunkMaps
import KirinFS.Slab.Chunks
import KirinFS.Slab.TakeChunk
import KirinFS.Slab.Grants
import KirinFS.Slab.AllocSpec
import KirinFS.Slab.GiveChunk
import KirinFS.Slab.FreeSpec
import KirinFS.Slab.Session
import KirinFS.Slab.Isolation
import KirinFS.Slab.FreeRuns
import KirinFS.Radix.Tree
import KirinFS.Radix.Layout
import KirinFS.Radix.Edits
import KirinFS.Radix.Walks
import KirinFS.Radix.Insert
import KirinFS.Radix.Delete
import KirinFS.Radix.Session
import KirinFS.Radix.Prealloc
import KirinFS.Rbtree.Tree
import KirinFS.Rbtree.Init
import KirinFS.Rbtree.Shape
import KirinFS.Rbtree.Rotate
import KirinFS.Rbtree.Repair
import KirinFS.Rbtree.Insert
import KirinFS.Dict.Table
import KirinFS.Dict.Chains
import KirinFS.Dict.Delete
import KirinFS.Dict.Inserts
import KirinFS.Dict.Addresses
import KirinFS.Dict.Deinit
import KirinFS.Dict.PairCopy
import KirinFS.Ini.Parse
import KirinFS.Ini.Lines
import KirinFS.Ini.Lookup
import KirinFS.Ini.Edit
import KirinFS.ThreadPool.Queue
import KirinFS.ThreadPool.Linked
import KirinFS.ThreadPool.Lane
import KirinFS.RingBuffer.Ring
import KirinFS.Rwlock.Lock
import KirinFS.RingBuffer.Fifo
import KirinFS.RingBuffer.Released
import KirinFS.Base64.Codec
import KirinFS.Base64.RoundTrip
import KirinFS.Base64.Padding
import KirinFS.KvDb.Store
import KirinFS.KvDb.Scan
import KirinFS.Slab.Process
import KirinFS.Slab.Classes
import KirinFS.Slab.DeadFree
import KirinFS.Ini.Readers
import KirinFS.Ini.Stored
import KirinFS.Hash.Crc32
import KirinFS.Epoll.Workers
import KirinFS.Epoll.Counters
import KirinFS.Epoll.Deincr
import KirinFS.Epoll.Dispatch
import KirinFS.Ini.Dump
import KirinFS.Ini.Restore
import KirinFS.Foundation.Tally
import KirinFS.Foundation.Bytes
import KirinFS.ThreadPool.Pool
import KirinFS.ThreadPool.PoolSteps
import KirinFS.ThreadPool.Wait
import KirinFS.ThreadPool.Delivery
import KirinFS.StlString.Split
import KirinFS.StlString.Memory
import KirinFS.Mgmt.Service
import KirinFS.Mgmt.Membership
import KirinFS.Mgmt.HandleIo
import KirinFS.Foundation.Blocks
import KirinFS.Foundation.Digests
import KirinFS.Digest.Stream
import KirinFS.Digest.Md5
import KirinFS.Digest.Sha1
import KirinFS.StlString.Access
import KirinFS.StlString.ShortForm
import KirinFS.StlString.Operations
import KirinFS.StlString.Runs
import KirinFS.Rbtree.Rebalance
import KirinFS.Rbtree.Unlink
import KirinFS.Rbtree.Delete
import KirinFS.Rbtree.Search
import KirinFS.Radix.Removal
import KirinFS.Ini.Comments
import KirinFS.Foundation.Loops
import KirinFS.Socket.Transfer
import KirinFS.Socket.Closed
import KirinFS.StlString.Contents
import KirinFS.StlString.Trim
import KirinFS.StlString.Replace
import KirinFS.Dict.Hits
import KirinFS.Mgmt.NodeCmp
import KirinFS.Mgmt.Client
import KirinFS.Foundation.Signed
import KirinFS.Mgmt.KeepAlive
import KirinFS.Hash.Crc16
import KirinFS.Foundation.Fnv
import KirinFS.Hash.Fnv
import KirinFS.Hash.Jenkins
import KirinFS.Rand.Drand48
import KirinFS.Rand.Strings
import KirinFS.Base64.Lengths
import KirinFS.StlArray.Refinement
import KirinFS.Foundation.Exchange
import KirinFS.StlArray.Bytes
import KirinFS.StlArray.Swap
import KirinFS.Foundation.Consensus.Elections
import KirinFS.Foundation.Consensus.Logs
import KirinFS.Foundation.Consensus.Completeness
import KirinFS.Raft.Node
import KirinFS.Raft.Receive
import KirinFS.Foundation.Shadows
import KirinFS.Raft.Evidence
import KirinFS.Raft.Moves
import KirinFS.Raft.Sends
import KirinFS.Raft.Answers
import KirinFS.Raft.Duties
import KirinFS.Raft.Cluster
import KirinFS.Raft.Portrait
import KirinFS.Raft.Safety
import KirinFS.Raft.Writes
import KirinFS.Raft.Durable
import KirinFS.Raft.Turn
import KirinFS.Raft.InOrder
import KirinFS.Raft.Log
import KirinFS.Raft.OnArray
