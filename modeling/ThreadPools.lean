import ThreadPools.Interleaving.Machine
import ThreadPools.Interleaving.Totals
import ThreadPools.Accounting.PoolAccounting
import ThreadPools.Accounting.Ledger
import ThreadPools.Accounting.AdmissionWord
import ThreadPools.Interleaving.Fifo
import ThreadPools.Dynamic.State
import ThreadPools.Dynamic.Book
import ThreadPools.Dynamic.BookSteps
import ThreadPools.Dynamic.Effects
import ThreadPools.Dynamic.Invariant
import ThreadPools.Dynamic.Ownership
import ThreadPools.Dynamic.Quiescence
import ThreadPools.Fixed.Book
import ThreadPools.Fixed.Effects
import ThreadPools.Fixed.Simulation
import ThreadPools.Dynamic.Calls
import ThreadPools.Fixed.Calls
import ThreadPools.Fixed.Ownership
import ThreadPools.Fixed.Quiescence
import ThreadPools.Contracts.Accounting
import ThreadPools.Contracts.Notifications
import ThreadPools.Contracts.Rejection
import ThreadPools.Fixed.Reports
import ThreadPools.Dynamic.Stopping
import ThreadPools.Dynamic.Locks
import ThreadPools.Dynamic.Policy
import ThreadPools.Dynamic.Queue
import ThreadPools.Dynamic.Backpressure
import ThreadPools.Contracts.Backpressure
import ThreadPools.Dynamic.Capacity
import ThreadPools.Contracts.Containment
import ThreadPools.Fixed.Rest
import ThreadPools.Dynamic.Rest
import ThreadPools.Construction.Builder
import ThreadPools.Construction.Fixed
import ThreadPools.Construction.Dynamic
