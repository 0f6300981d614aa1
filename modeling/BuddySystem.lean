import BuddySystem.Call
import BuddySystem.Registry.StateRuns
import BuddySystem.Proofs.Stock
import BuddySystem.Proofs.Restructuring
import BuddySystem.Proofs.Allocation
import BuddySystem.Proofs.Runs
import BuddySystem.Proofs.Histories
import BuddySystem.Proofs.Orderly
import BuddySystem.Proofs.Custody
import BuddySystem.Proofs.Canonical
import BuddySystem.Proofs.Settling
import BuddySystem.Proofs.Availability
import BuddySystem.Proofs.Lockstep
import BuddySystem.Proofs.Shifting
import BuddySystem.Proofs.TwinCalls
import BuddySystem.Proofs.Twins
import BuddySystem.Proofs.BaseShift
import BuddySystem.Proofs.StaleLinks
import BuddySystem.Proofs.Effects
import BuddySystem.Proofs.Requests
import BuddySystem.Proofs.Cascades
import BuddySystem.Proofs.Accounting
import BuddySystem.Proofs.Footprints
import BuddySystem.Proofs.Rejection
import BuddySystem.Proofs.RoundTrips
import BuddySystem.Proofs.Withdrawals
import BuddySystem.Proofs.Carving
import BuddySystem.Proofs.Aborts
import BuddySystem.Proofs.SortedLists
import BuddySystem.Proofs.Removals
import BuddySystem.Proofs.Capacity
import BuddySystem.Proofs.Reports
import BuddySystem.Proofs.Regions
import BuddySystem.Proofs.Dumps
import BuddySystem.Proofs.Searches
import BuddySystem.Proofs.Ascent
import BuddySystem.Proofs.Buddies
