import Libnc.Array.Capacity
import Libnc.Array.Contents
import Libnc.Array.Model
import Libnc.Foundation.Blocks
import Libnc.Foundation.CInt
import Libnc.Foundation.FirstFit
import Libnc.Foundation.Listed
import Libnc.Foundation.Records
import Libnc.Foundation.RedBlack
import Libnc.Foundation.Refines
import Libnc.Foundation.Ring
import Libnc.Foundation.Rings
import Libnc.Foundation.Run
import Libnc.Foundation.Segmented
import Libnc.Foundation.Span
import Libnc.Foundation.Splits
import Libnc.Foundation.Stable
import Libnc.Foundation.Zipper
import Libnc.Hashtable.Calls
import Libnc.Hashtable.Chain
import Libnc.Hashtable.Failure
import Libnc.Hashtable.Growth
import Libnc.Hashtable.Invariant
import Libnc.Hashtable.Iterators
import Libnc.Hashtable.Memory
import Libnc.Hashtable.Model
import Libnc.Hashtable.Operations
import Libnc.Hashtable.Overwrite
import Libnc.Hashtable.Ownership
import Libnc.Hashtable.Refinement
import Libnc.Hashtable.Rehash
import Libnc.Hashtable.Session
import Libnc.Hashtable.Skeleton
import Libnc.Hashtable.Traversal
import Libnc.Hashtable.Visits
import Libnc.Hashtable.WellFormed
import Libnc.Pool.Accounting
import Libnc.Pool.Cleanup
import Libnc.Pool.Counters
import Libnc.Pool.Failure
import Libnc.Pool.Fits
import Libnc.Pool.Interface
import Libnc.Pool.Invariant
import Libnc.Pool.Large
import Libnc.Pool.Model
import Libnc.Pool.Pfree
import Libnc.Pool.Refill
import Libnc.Pool.Release
import Libnc.Pool.Separation
import Libnc.Pool.Session
import Libnc.Pool.Small
import Libnc.Queue.Links
import Libnc.Queue.Macros
import Libnc.Queue.Model
import Libnc.Queue.Operations
import Libnc.Queue.Runs
import Libnc.Queue.Steps
import Libnc.Queue.Traversal
import Libnc.Rbtree.Balance
import Libnc.Rbtree.Delete
import Libnc.Rbtree.Guarded
import Libnc.Rbtree.Independence
import Libnc.Rbtree.Insert
import Libnc.Rbtree.Linked
import Libnc.Rbtree.Model
import Libnc.Rbtree.Repair
import Libnc.Rbtree.Rotation
import Libnc.Rbtree.Safety
import Libnc.Rbtree.Sequence
import Libnc.Rbtree.Session
import Libnc.Rbtree.Unlinked
import Libnc.Sds.Arguments
import Libnc.Sds.Decimal
import Libnc.Sds.Grammar
import Libnc.Sds.Growth
import Libnc.Sds.Join
import Libnc.Sds.Model
import Libnc.Sds.Operations
import Libnc.Sds.Printf
import Libnc.Sds.Quoting
import Libnc.Sds.Session
import Libnc.Sds.Split
import Libnc.Sds.Syntax
import Libnc.Sds.Text
import Libnc.Sds.Tokens
