import Taurus.Outcome
import Taurus.HashMap
import Taurus.Transition
import Taurus.Verdict
import Taurus.Record
import Taurus.Graph
import Taurus.StateMap
import Taurus.Registration
import Taurus.Insertion
import Taurus.Votes
import Taurus.Active
import Taurus.Check
import Taurus.Admission
import Taurus.Preservation
import Taurus.Runs
import Taurus.Recording
import Taurus.Query
import Taurus.Wire
import Taurus.Invariants
import Taurus.Safety
import Taurus.Finality
import Taurus.Inheritance
import Taurus.Punishment
import Taurus.Delivery
import Taurus.Pollster
import Taurus.Reads
import Taurus.Bookkeeping
import Taurus.Counters
import Taurus.Ballots
import Taurus.Streaks
import Taurus.Causes
import Taurus.Deferred
import Taurus.Frontier
import Taurus.Proposal
import Taurus.Founding
import Taurus.Initial
import Taurus.Ancestors
import Taurus.Coherence
import Taurus.Agreement
import Taurus.Confidence
import Taurus.Commitment
import Taurus.Stored
import Taurus.Retrying
import Taurus.Requests
import Taurus.Responses
import Taurus.Protobuf
import Taurus.Messages
import Taurus.RoundTrip
import Taurus.Fetcher
import Taurus.Validity
import Taurus.Fetching
import Taurus.Enumeration
import Taurus.Orientations
import Taurus.Polling
import Taurus.Consensus
import Taurus.Network
import Taurus.CatchUp
import Taurus.Growth
import Taurus.Handling
import Taurus.Interleaving
import Taurus.Simulation
import Taurus.Endorsement
import Taurus.Acceptance
import Taurus.Upheld
import Taurus.Persistence
import Taurus.Standing
import Taurus.Accountability
import Taurus.Sequencing
import Taurus.Quorum
import Taurus.Completion
import Taurus.Dissent
import Taurus.Termination
