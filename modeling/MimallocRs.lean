import MimallocRs.Page.Exclusion
import MimallocRs.Page.Stranded
import MimallocRs.Page.Rounds
import MimallocRs.Bitmap.Exclusive
import MimallocRs.Bitmap.Chunkmap
import MimallocRs.Bitmap.Search
import MimallocRs.Bitmap.Ranges
import MimallocRs.Os.AllocAligned
import MimallocRs.Deferred.Callback
import MimallocRs.Arena.Zero
import MimallocRs.Arena.Commit
import MimallocRs.Arena.Scheduled
import MimallocRs.Arena.Exclusive
import MimallocRs.Meta.Limit
import MimallocRs.Meta.Contended
import MimallocRs.Options.Shared
import MimallocRs.Stats.Counted
import MimallocRs.Subproc.Owns
import MimallocRs.PageMap.Lookup
import MimallocRs.Client.Zeroed
import MimallocRs.Client.Contents
import MimallocRs.Client.Hardened
import MimallocRs.Client.Dispatch
import MimallocRs.Heap.Lifecycle
import MimallocRs.Process.Requests
import MimallocRs.Process.Released
import MimallocRs.Process.Blocks
import MimallocRs.Process.Accounts
import MimallocRs.Process.NoLeak
import MimallocRs.Process.PageQueue
