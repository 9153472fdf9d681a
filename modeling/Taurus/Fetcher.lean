import Taurus.Messages
import Taurus.Retrying

namespace Taurus

variable {H Peer : Type} [LinearOrder H]

namespace DAG

variable (hash : Vertex H → H) (it : HashOrders H)

/-- How the consensus task responds to a submitted vertex, after it has retried the vertices that
were waiting for it. -/
def submitVertex (dag : DAG H) (vx : Vertex H) :
    Option (Except (Error H) (HashSet H) × DAG H) := do
  let (resp, dag) ← dag.tryInsert hash it vx
  match resp with
  | .ok waiting =>
    let (_, dag) ← dag.retryPending hash it (it.vertices.order (some (hash vx)) waiting)
    return (resp, dag)
  | .error _ => return (resp, dag)

end DAG

namespace Fetcher

/-- What a fetcher asks of the network. -/
inductive Command (H Peer : Type) where
  | request (request : P2p.Request H) (peer : Peer)
  | blockPeer (peer : Peer)
deriving DecidableEq

/-- The hash of the vertex that is requested. -/
def Command.hash? : Command H Peer → Option H
  | request (.getVertex hash) _ => some hash
  | _ => none

/-- State for a running fetch process. -/
structure Task (H Peer : Type) where
  peer : Peer
  initial : List H
  requested : HashSet H

namespace Task

def new (peer : Peer) (initial : List H) : Task H Peer where
  peer := peer
  initial := initial
  requested := ∅

/-- Requests a batch of hashes, those that have been requested before apart. -/
def requestHashes (task : Task H Peer) : List H → List (Command H Peer) × Task H Peer
  | [] => ([], task)
  | hash :: hashes =>
    if hash ∈ task.requested then task.requestHashes hashes
    else
      let task' := { task with requested := insert hash task.requested }
      let (commands, task'') := task'.requestHashes hashes
      (.request (.getVertex hash) task.peer :: commands, task'')

/-- Each new hash is requested, and once. -/
theorem requestHashes_spec (task : Task H Peer) (hashes : List H) :
    ((task.requestHashes hashes).1.filterMap Command.hash?).Nodup ∧
    (∀ h, h ∈ (task.requestHashes hashes).1.filterMap Command.hash? ↔
      h ∈ hashes ∧ h ∉ task.requested) ∧
    ∀ h, h ∈ (task.requestHashes hashes).2.requested ↔ h ∈ task.requested ∨ h ∈ hashes := by
  induction hashes generalizing task with
  | nil => simp [requestHashes]
  | cons hash hashes ih =>
    by_cases hr : hash ∈ task.requested
    · obtain ⟨hnodup, hsent, hreq⟩ := ih task
      rw [requestHashes, if_pos hr]
      refine ⟨hnodup, fun h => ?_, fun h => ?_⟩
      · rw [hsent, List.mem_cons]
        grind
      · rw [hreq, List.mem_cons]
        grind
    · -- the rest of the batch takes this hash for requested
      obtain ⟨hnodup, hsent, hreq⟩ := ih { task with requested := insert hash task.requested }
      rw [requestHashes, if_neg hr]
      have hnew (commands : List (Command H Peer)) :
          (Command.request (.getVertex hash) task.peer :: commands).filterMap Command.hash? =
            hash :: commands.filterMap Command.hash? := rfl
      simp only [Finset.mem_insert] at hsent hreq
      refine ⟨?_, fun h => ?_, fun h => ?_⟩
      · rw [hnew, List.nodup_cons, hsent]
        exact ⟨fun h => h.2 (Or.inl rfl), hnodup⟩
      · rw [hnew, List.mem_cons, hsent, List.mem_cons]
        grind
      · rw [hreq, List.mem_cons]
        grind

end Task

/-- Where the fetcher is in its loop. -/
inductive Phase (H : Type) where
  | spawned
  | receiving
  /-- waits for the response to the vertex it has submitted -/
  | submitting (resp : Except (Error H) (HashSet H))
  | returned
deriving DecidableEq

/-- A fetcher, the graph of the consensus task, and what is between the fetcher and its peer: all
commands so far, the hashes for which an answer is outstanding, and answers on the channel. -/
structure Node (H Peer : Type) where
  dag : DAG H
  task : Task H Peer
  phase : Phase H
  sent : List (Command H Peer)
  outstanding : List H
  responses : List (P2p.Response H)

inductive Event (H : Type) where
  /-- the fetcher starts to run -/
  | start
  /-- the peer answers the request for the vertex of the hash -/
  | answer (hash : H) (response : P2p.Response H)
  /-- the fetcher takes an answer, and the consensus task handles what it submits -/
  | receive (it : HashOrders H)
  /-- the fetcher takes the response of the consensus task -/
  | resume
  /-- someone else submits a vertex -/
  | submit (vx : Vertex H) (it : HashOrders H)

namespace Node

/-- The hashes that were requested, one for each time. -/
def requestedHashes (node : Node H Peer) : List H := node.sent.filterMap Command.hash?

/-- A fetcher started for the initial hashes. -/
def spawn (dag : DAG H) (peer : Peer) (initial : List H) : Node H Peer where
  dag := dag
  task := .new peer initial
  phase := .spawned
  sent := []
  outstanding := []
  responses := []

/-- Requests a batch of hashes, then waits for answers. -/
def request (node : Node H Peer) (hashes : List H) : Node H Peer :=
  let (commands, task) := node.task.requestHashes hashes
  { node with
    task := task
    phase := .receiving
    sent := node.sent ++ commands
    outstanding := node.outstanding ++ commands.filterMap Command.hash? }

def receive (hash : Vertex H → H) (it : HashOrders H) (node : Node H Peer) :
    P2p.Response H → Option (Node H Peer)
  | .vertex vx => do
    let (resp, dag) ← node.dag.submitVertex hash it vx
    return { node with dag := dag, phase := .submitting resp }
  | .error _ => some node
  -- such a response to our request is illegal
  | .preference _ =>
    some { node with phase := .returned, sent := node.sent ++ [.blockPeer node.task.peer] }

def resume (node : Node H Peer) : Except (Error H) (HashSet H) → Node H Peer
  | .error (.missingParents parents) => node.request parents
  | _ => { node with phase := .receiving }

def step (hash : Vertex H → H) (node : Node H Peer) : Event H → Option (Node H Peer)
  | .start =>
    match node.phase with
    | .spawned => some (node.request node.task.initial)
    | _ => none
  | .answer h response =>
    if node.outstanding.contains h then
      some { node with
        outstanding := node.outstanding.erase h
        responses := node.responses ++ [response] }
    else none
  | .receive it =>
    match node.phase, node.responses with
    | .receiving, response :: responses =>
      { node with responses := responses }.receive hash it response
    | _, _ => none
  | .resume =>
    match node.phase with
    | .submitting resp => some (node.resume resp)
    | _ => none
  | .submit vx it => do
    let (_, dag) ← node.dag.submitVertex hash it vx
    return { node with dag := dag }

end Node

/-- All runs of a fetcher that is started for the initial hashes. -/
def system (hash : Vertex H → H) (dag : DAG H) (peer : Peer) (initial : List H) :
    System (Node H Peer) (Event H) where
  init node := node = .spawn dag peer initial
  step := Node.step hash

end Fetcher

end Taurus
