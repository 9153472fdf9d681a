import Taurus.Consensus
import Taurus.Polling

namespace Taurus

variable {H P : Type}

/-- The answer as a pollster tells answers apart. -/
def P2p.Response.toAnswer : P2p.Response H → Taurus.Response H
  | .error _ => .error
  | .vertex vx => .vertex vx
  | .preference preferred => .preference preferred

namespace ConsensusApi

/-- Why a call does not return the result of its action. -/
inductive Error (H : Type) where
  | actionSend
  | task (error : Task.Error ⊕ Taurus.Error H)
  | timerElapsed
  | responseRecv

/-- The result of `get_preference`, which leaves out whether the preference is final. -/
def getPreference (result : Except (Error H) (Option (Bool × Bool))) :
    Except (Error H) (Option Bool) :=
  result.map fun preference => preference.map fun (pref, _final) => pref

end ConsensusApi

namespace Handler

/-- The response to a request for a vertex. -/
def respondVertex : Except (ConsensusApi.Error H) (Option (Vertex H)) → P2p.Response H
  | .ok (some vx) => .vertex vx
  | .ok none => .error .notFound
  | .error _ => .error .unknown

/-- The response to a request for a preference. -/
def respondPreference : Except (ConsensusApi.Error H) (Option Bool) → P2p.Response H
  | .ok (some pref) => .preference pref
  | .ok none => .error .notFound
  | .error _ => .error .unknown

end Handler

/-- A node: its consensus task with the actions in its queue, and the poll whose question its
handler is answering. The result of an action goes to the handler for a poll, or to someone
outside. -/
structure Node (H P : Type) where
  task : Task H P
  actions : List (Action H P (Option Nat))
  serving : Option Nat

/-- Puts an action at the end of the queue of the node. -/
def Node.enqueue (node : Node H P) (action : Action H P (Option Nat)) : Node H P :=
  { node with actions := node.actions ++ [action] }

/-- The handler of the node has no poll to answer any more. -/
def Node.release (node : Node H P) : Node H P := { node with serving := none }

/-- A pollster of a node, with what is in the network between it and the peers. -/
structure Poll (H P : Type) where
  owner : P
  polling : Polling H P
  questions : HashSet P
  answers : List (P × P2p.Response H)

def Poll.start (owner : P) (pollster : Pollster H P) : Poll H P where
  owner := owner
  polling := .start pollster
  questions := pollster.peersToPoll
  answers := []

/-- The response of the peer is on its way. -/
def Poll.answer (poll : Poll H P) (peer : P) (response : P2p.Response H) : Poll H P :=
  { poll with answers := poll.answers ++ [(peer, response)] }

/-- All nodes, each under its peer id, and the polls of all of them in the order of their start. -/
structure Network (H P : Type) where
  nodes : P → Node H P
  polls : List (Poll H P)

namespace Network

inductive Event (H P : Type) where
  /-- someone asks the consensus task of a node for an action -/
  | call (n : P) (action : Action H P (Option Nat))
  /-- the consensus task of the node performs its next action -/
  | handle (n : P) (it : HashOrders H) (rng : Rng H)
  /-- the handler of the peer takes up the question of a poll -/
  | ask (i : Nat) (peer : P)
  /-- the handler waits no longer for the consensus task -/
  | timeout (n : P)
  /-- a faulty peer answers what it likes -/
  | forge (i : Nat) (peer : P) (response : P2p.Response H)
  | deliver (i : Nat) (peer : P) (response : P2p.Response H)
  /-- the pollster takes a turn -/
  | turn (i : Nat)

/-- Is the event one that follows from earlier ones? -/
def Event.Internal (event : Event H P) : Prop := ∀ n action, event ≠ .call n action

/-- Actions that others ask for. Results of polls come from pollsters alone, and only the handler
asks on behalf of a poll. -/
def IsCall : Action H P (Option Nat) → Prop
  | .recordPeerPreference _ _ => False
  | .getPreference _ resultCh => resultCh = none
  | _ => True

instance : DecidablePred (IsCall (H := H) (P := P)) := fun action => by
  cases action <;> (unfold IsCall; infer_instance)

variable [DecidableEq P]

def setNode (net : Network H P) (n : P) (node : Node H P) : Network H P :=
  { net with nodes := Function.update net.nodes n node }

def setPoll (net : Network H P) (i : Nat) (poll : Poll H P) : Network H P :=
  { net with polls := net.polls.set i poll }

def enqueue (net : Network H P) (n : P) (action : Action H P (Option Nat)) : Network H P :=
  net.setNode n ((net.nodes n).enqueue action)

/-- The handler of the node responds to the poll, and is free again. -/
def respond (net : Network H P) (n : P) (i : Nat) (response : P2p.Response H) : Network H P where
  nodes := (net.setNode n (net.nodes n).release).nodes
  polls := net.polls.modify i fun poll => poll.answer n response

/-- What an effect of the consensus task of a node changes in the network. -/
def perform (n : P) (net : Network H P) : Effect H P (Option Nat) → Network H P
  | .startPollster pollster => { net with polls := net.polls ++ [.start n pollster] }
  | .sendPreference (some i) preference =>
    -- a result that the handler does not wait for any more is lost
    if (net.nodes n).serving = some i then
      net.respond n i (Handler.respondPreference (ConsensusApi.getPreference (.ok preference)))
    else net
  -- the other results leave the network
  | _ => net

variable [LinearOrder H] (hash : Vertex H → H) (faulty : HashSet P)

def step (net : Network H P) : Event H P → Option (Network H P)
  | .call n action => if IsCall action then some (net.enqueue n action) else none
  | .handle n it rng =>
    match (net.nodes n).actions with
    | [] => none
    | action :: actions => do
      let (task, effects) ← (net.nodes n).task.handle hash it rng action
      let net := net.setNode n { net.nodes n with task := task, actions := actions }
      return effects.foldl (perform n) net
  | .ask i peer => do
    let poll ← net.polls[i]?
    -- the handler takes one event at a time, and waits for the consensus task
    if peer ∈ poll.questions ∧ (net.nodes peer).serving = none then
      return ((net.setPoll i { poll with questions := poll.questions.erase peer }).setNode peer
        { net.nodes peer with serving := some i }).enqueue peer
          (.getPreference poll.polling.pollster.vhash (some i))
    else none
  | .timeout n => do
    let i ← (net.nodes n).serving
    return net.respond n i
      (Handler.respondPreference (ConsensusApi.getPreference (.error .timerElapsed)))
  | .forge i peer response => do
    let poll ← net.polls[i]?
    if peer ∈ faulty ∧ peer ∈ poll.questions then
      return net.setPoll i
        ({ poll with questions := poll.questions.erase peer }.answer peer response)
    else none
  | .deliver i peer response => do
    let poll ← net.polls[i]?
    if (peer, response) ∈ poll.answers then
      return net.setPoll i { poll with
        answers := poll.answers.erase (peer, response)
        polling := poll.polling.deliver peer response.toAnswer }
    else none
  | .turn i => do
    let poll ← net.polls[i]?
    let polling ← poll.polling.turn
    let net := net.setPoll i { poll with polling := polling }
    match polling.phase with
    | .reported preference =>
      return net.enqueue poll.owner (.recordPeerPreference poll.polling.pollster.vhash preference)
    | _ => return net

/-- All runs of nodes that are started with their configurations on one genesis vertex. -/
def system (config : P → Task.Config) (genesis : Vertex H) :
    System (Network H P) (Event H P) where
  init net := genesis.parents = [] ∧ net.polls = [] ∧ ∀ n, ∃ it,
    Task.new hash it (config n) genesis = .ok (net.nodes n).task ∧
      (net.nodes n).actions = [] ∧ (net.nodes n).serving = none
  step := step hash faulty

end Network

end Taurus
