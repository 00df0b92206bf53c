import JaeOS.Capacity
import JaeOS.Devices
import JaeOS.Killing
import JaeOS.Pids
import JaeOS.Placement
import JaeOS.Resumption
import JaeOS.SavedStates
import JaeOS.Wakeups
import JaeOS.Clock
import JaeOS.PseudoClock
import JaeOS.Accounting
import JaeOS.Exclusion
import JaeOS.Deletion
import JaeOS.HeapLists
import JaeOS.Pools
import JaeOS.FamilyTree
import JaeOS.ProcessTree
import JaeOS.Affordable
import JaeOS.Tick
import JaeOS.Overflow
import JaeOS.EvaluationOrder
import JaeOS.Terminals
import JaeOS.Insertion
import JaeOS.Ending
import JaeOS.Decimal
import JaeOS.Bystanders
import JaeOS.Requests
import JaeOS.Contexts
import JaeOS.Recycling
import JaeOS.Fate
import JaeOS.Lineage
import JaeOS.Holdings
import JaeOS.Registrations
import JaeOS.Sleepers
import JaeOS.Manager
import JaeOS.Printing
import JaeOS.Continuations
