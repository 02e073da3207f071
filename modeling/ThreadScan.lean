import ThreadScan.Transition
import ThreadScan.Queue
import ThreadScan.Timestamp
import ThreadScan.Assertion
import ThreadScan.EmptyRound
import ThreadScan.Alloc
import ThreadScan.Capacity
import ThreadScan.FailedCalls
import ThreadScan.LocalBlock
import ThreadScan.Lookup
import ThreadScan.PostSearch
import ThreadScan.StartArgument
import ThreadScan.Storage
import ThreadScan.ThreadLimit
import ThreadScan.Env
import ThreadScan.Procmap
import ThreadScan.Refinement
import ThreadScan.Completion
import ThreadScan.QueueContract
import ThreadScan.Footprint
import ThreadScan.Contention
import ThreadScan.Shuffle
import ThreadScan.Mappings
import ThreadScan.StorageContract
import ThreadScan.Polling
import ThreadScan.Stamps
import ThreadScan.Recovery
