import Taurus.HashMap
import Taurus.Transition

namespace Taurus

/-- The types that the p2p task takes from its libraries without looking into their values:
peers and ids of requests in the network, messages, and the two kinds of channels. -/
structure Libp2p where
  PeerId : Type
  OutboundRequestId : Type
  InboundRequestId : Type
  Request : Type
  Response : Type
  /-- channel on which a network response is written -/
  ResponseChannel : Type
  /-- channel on which the requester waits for responses -/
  UnboundedSender : Type
  decOutbound : DecidableEq OutboundRequestId
  decInbound : DecidableEq InboundRequestId

namespace P2p

variable {L : Libp2p}

instance : DecidableEq L.OutboundRequestId := L.decOutbound
instance : DecidableEq L.InboundRequestId := L.decInbound

inductive Message (L : Libp2p) where
  | request (requestId : L.InboundRequestId) (request : L.Request) (channel : L.ResponseChannel)
  | response (requestId : L.OutboundRequestId) (response : L.Response)

/-- Events of the request_response protocol. -/
inductive Event (L : Libp2p) where
  | message (message : Message L)
  | outboundFailure (requestId : L.OutboundRequestId)
  | inboundFailure (requestId : L.InboundRequestId)
  | responseSent (requestId : L.InboundRequestId)

/-- What a handler does besides changing the state of the task. -/
inductive Output (L : Libp2p) where
  /-- tells the subscribers of the task about a request -/
  | requestMessage (requestId : L.InboundRequestId) (request : L.Request)
  /-- hands a response to the requester -/
  | send (channel : L.UnboundedSender) (response : L.Response)
  | sendRequest (peer : L.PeerId) (request : L.Request)
  | sendResponse (channel : L.ResponseChannel) (response : L.Response)

structure Task (L : Libp2p) where
  pendingResponses : HashMap L.InboundRequestId L.ResponseChannel
  pendingRequests : HashMap L.OutboundRequestId L.UnboundedSender

namespace Task

def new : Task L where
  pendingResponses := ∅
  pendingRequests := ∅

/-- Handler for events emitted by the request_response protocol. -/
def handleRequestResponse (task : Task L) : Event L → Task L × Option (Output L)
  | .message (.request requestId request channel) =>
    ({ task with pendingResponses := task.pendingResponses.insert requestId channel },
      some (.requestMessage requestId request))
  | .message (.response requestId response) =>
    ({ task with pendingRequests := task.pendingRequests.erase requestId },
      (task.pendingRequests.lookup requestId).map fun channel => .send channel response)
  | _ => (task, none)

/-- Handler for `Action::Request`, where `rid` is the id that `send_request` returns. Panics
without a peer. -/
def handleRequest (task : Task L) (request : L.Request) (optPeer : Option L.PeerId)
    (respCh : L.UnboundedSender) (rid : L.OutboundRequestId) : Option (Task L × Option (Output L)) := do
  let peer ← optPeer
  return ({ task with pendingRequests := task.pendingRequests.insert rid respCh },
    some (.sendRequest peer request))

/-- Handler for `Action::Respond`. -/
def handleRespond (task : Task L) (requestId : L.InboundRequestId) (response : L.Response) :
    Task L × Option (Output L) :=
  ({ task with pendingResponses := task.pendingResponses.erase requestId },
    (task.pendingResponses.lookup requestId).map fun channel => .sendResponse channel response)

end Task

/-- What the task handles: actions, and events of the network. A request comes with the id that
the network gives it. -/
inductive Input (L : Libp2p) where
  | request (request : L.Request) (optPeer : Option L.PeerId) (respCh : L.UnboundedSender)
    (rid : L.OutboundRequestId)
  | respond (requestId : L.InboundRequestId) (response : L.Response)
  | event (event : Event L)

def Task.handle (task : Task L) : Input L → Option (Task L × Option (Output L))
  | .request request optPeer respCh rid => task.handleRequest request optPeer respCh rid
  | .respond requestId response => some (task.handleRespond requestId response)
  | .event event => some (task.handleRequestResponse event)

/-- Any interleaving of actions and events. -/
def system (L : Libp2p) : System (Task L) (Input L) where
  init task := task = Task.new
  step task input := (task.handle input).map Prod.fst

namespace Input

/-- The outbound request that the input starts, with the channel of the requester. -/
def starts : Input L → Option (L.OutboundRequestId × L.UnboundedSender)
  | request _ _ respCh rid => some (rid, respCh)
  | _ => none

/-- The outbound request that the input ends. -/
def ends : Input L → Option L.OutboundRequestId
  | event (.message (.response rid _)) => some rid
  | event (.outboundFailure rid) => some rid
  | _ => none

end Input

variable {history : List (Input L)} {input : Input L} {task task' : Task L}
  {past : List (Task L × Input L)} {rid r : L.OutboundRequestId} {ch c : L.UnboundedSender}

def Started (history : List (Input L)) (rid : L.OutboundRequestId) (ch : L.UnboundedSender) : Prop :=
  ∃ input ∈ history, input.starts = some (rid, ch)

def Ended (history : List (Input L)) (rid : L.OutboundRequestId) : Prop :=
  ∃ input ∈ history, input.ends = some rid

def Failed (history : List (Input L)) (rid : L.OutboundRequestId) : Prop :=
  .event (.outboundFailure rid) ∈ history

/-- The request has been sent for this requester, and has not ended. -/
def Live (history : List (Input L)) (rid : L.OutboundRequestId) (ch : L.UnboundedSender) : Prop :=
  Started history rid ch ∧ ¬ Ended history rid

/-- What the network keeps to, the last input first: it gives each request a fresh id, and ends
only what is live. -/
def Contract : List (Input L) → Prop
  | [] => True
  | input :: history =>
    (∀ rid ch, input.starts = some (rid, ch) → ∀ ch', ¬ Started history rid ch') ∧
      (∀ rid, input.ends = some rid → ∃ ch, Live history rid ch) ∧ Contract history

/-- Does the task hold exactly the live requests, each with the channel of its requester? -/
def TracksLive (history : List (Input L)) (task : Task L) : Prop :=
  ∀ rid ch, task.pendingRequests.lookup rid = some ch ↔ Live history rid ch

theorem started_cons : Started (input :: history) rid ch ↔
    input.starts = some (rid, ch) ∨ Started history rid ch := by
  simp only [Started, List.mem_cons, exists_eq_or_imp]

theorem ended_cons : Ended (input :: history) rid ↔ input.ends = some rid ∨ Ended history rid := by
  simp only [Ended, List.mem_cons, exists_eq_or_imp]

theorem failed_cons : Failed (input :: history) rid ↔
    .event (.outboundFailure rid) = input ∨ Failed history rid := List.mem_cons

theorem Failed.ended (h : Failed history rid) : Ended history rid := ⟨_, h, rfl⟩

namespace Contract

/-- Only requests that have been started end. -/
theorem started_of_ended (hc : Contract history) (h : Ended history rid) :
    ∃ ch, Started history rid ch := by
  induction history with
  | nil =>
    obtain ⟨_, hm, _⟩ := h
    cases hm
  | cons input history ih =>
    rcases ended_cons.mp h with he | he
    · obtain ⟨ch, hlive⟩ := hc.2.1 rid he
      exact ⟨ch, started_cons.mpr (Or.inr hlive.1)⟩
    · obtain ⟨ch, hs⟩ := ih hc.2.2 he
      exact ⟨ch, started_cons.mpr (Or.inr hs)⟩

/-- What ends now has not ended before. -/
theorem open_of_ends (hc : Contract (input :: history)) (he : input.ends = some rid) :
    ¬ Ended history rid := by
  obtain ⟨_, hlive⟩ := hc.2.1 rid he
  exact hlive.2

end Contract

/-- What the map of pending requests holds: what is live, and what has failed. -/
def Holds (history : List (Input L)) (task : Task L) : Prop :=
  ∀ rid ch, task.pendingRequests.lookup rid = some ch ↔
    Started history rid ch ∧ (Ended history rid → Failed history rid)

namespace Holds

variable (h : Holds history task)
include h

/-- An input that neither starts nor ends a request leaves the map of pending requests alone. -/
theorem other (hs : input.starts = none) (he : input.ends = none)
    (ht : task'.pendingRequests = task.pendingRequests) : Holds (input :: history) task' := by
  intro rid ch
  have hne : .event (.outboundFailure rid) ≠ input := by
    rintro rfl
    cases he
  rw [ht, h, started_cons, ended_cons, failed_cons, hs, he]
  simp only [hne, reduceCtorEq, false_or]

theorem request {request : L.Request} {optPeer : Option L.PeerId}
    (hc : Contract (.request request optPeer c r :: history))
    (ht : task'.pendingRequests = task.pendingRequests.insert r c) :
    Holds (.request request optPeer c r :: history) task' := by
  intro rid ch
  have hfresh : ∀ ch', ¬ Started history r ch' := hc.1 r c rfl
  have hopen : ¬ Ended history r := fun he =>
    (hc.2.2.started_of_ended he).elim hfresh
  rw [ht, HashMap.lookup_insert, started_cons, ended_cons, failed_cons]
  simp only [Input.starts, Input.ends, reduceCtorEq, false_or, Option.some.injEq, Prod.mk.injEq]
  by_cases he : rid = r
  · subst he
    simp only [if_pos, true_and, hfresh, or_false, hopen, false_imp_iff, and_true, Option.some.injEq]
  · rw [if_neg he, h]
    simp only [Ne.symm he, false_and, false_or]

/-- A response takes its request out of the map. -/
theorem response {response : L.Response}
    (hc : Contract (.event (.message (.response r response)) :: history))
    (ht : task'.pendingRequests = task.pendingRequests.erase r) :
    Holds (.event (.message (.response r response)) :: history) task' := by
  intro rid ch
  have hopen : ¬ Ended history r := hc.open_of_ends rfl
  rw [ht, started_cons, ended_cons, failed_cons]
  simp only [Input.starts, Input.ends, reduceCtorEq, false_or, Option.some.injEq,
    Input.event.injEq]
  by_cases he : rid = r
  · subst he
    have hnf : ¬ Failed history rid := fun hf => hopen hf.ended
    simp only [Finmap.lookup_erase, reduceCtorEq, true_or, true_imp_iff, hnf, and_false]
  · rw [Finmap.lookup_erase_ne he, h]
    simp only [Ne.symm he, false_or]

/-- A failure leaves its request in the map. -/
theorem failure (hc : Contract (.event (.outboundFailure r) :: history))
    (ht : task'.pendingRequests = task.pendingRequests) :
    Holds (.event (.outboundFailure r) :: history) task' := by
  intro rid ch
  have hopen : ¬ Ended history r := hc.open_of_ends rfl
  rw [ht, h, started_cons, ended_cons, failed_cons]
  simp only [Input.starts, Input.ends, reduceCtorEq, false_or, Option.some.injEq, Input.event.injEq,
    Event.outboundFailure.injEq]
  by_cases he : rid = r
  · subst he
    simp only [true_or, hopen, false_imp_iff, implies_true]
  · simp only [Ne.symm he, he, false_or]

end Holds

theorem holds_of_run (hrun : (system L).Run past task) (hc : Contract (past.map Prod.snd)) :
    Holds (past.map Prod.snd) task := by
  induction hrun with
  | @init s hs =>
    intro rid ch
    have hempty : s.pendingRequests = ∅ := by
      rw [show s = Task.new from hs]
      rfl
    rw [hempty, Finmap.lookup_empty]
    refine iff_of_false (by simp) ?_
    rintro ⟨⟨_, hm, _⟩, _⟩
    cases hm
  | @step past s s' input _ hs ih =>
    have h := ih hc.2.2
    obtain ⟨⟨t, output⟩, hhandle, rfl⟩ := Option.map_eq_some_iff.mp hs
    cases input with
    | request request optPeer respCh rid =>
      rw [Task.handle, Task.handleRequest, Option.bind_eq_bind, Option.bind_eq_some_iff] at hhandle
      obtain ⟨_, _, ht⟩ := hhandle
      cases ht
      exact h.request hc rfl
    | respond requestId response =>
      cases hhandle
      exact h.other rfl rfl rfl
    | event event =>
      have ht : t = (s.handleRequestResponse event).1 :=
        (congrArg Prod.fst (Option.some.inj hhandle)).symm
      rw [ht]
      cases event with
      | message message =>
        cases message with
        | request => exact h.other rfl rfl rfl
        | response => exact h.response hc rfl
      | outboundFailure => exact h.failure hc rfl
      | inboundFailure => exact h.other rfl rfl rfl
      | responseSent => exact h.other rfl rfl rfl

/-- The task tracks the live requests exactly as long as none has failed. -/
theorem tracksLive_iff (hrun : (system L).Run past task) (hc : Contract (past.map Prod.snd)) :
    TracksLive (past.map Prod.snd) task ↔ ∀ rid, ¬ Failed (past.map Prod.snd) rid := by
  have h := holds_of_run hrun hc
  constructor
  · intro htracks rid hf
    obtain ⟨ch, hs⟩ := hc.started_of_ended hf.ended
    have hlive : Live (past.map Prod.snd) rid ch := (htracks rid ch).mp ((h rid ch).mpr ⟨hs, fun _ => hf⟩)
    exact hlive.2 hf.ended
  · intro hnf rid ch
    rw [h, Live]
    simp only [hnf rid, imp_false]

/-- While a request is live, a response to it reaches its requester. -/
theorem response_sent (hrun : (system L).Run past task) (hc : Contract (past.map Prod.snd))
    (hlive : Live (past.map Prod.snd) rid ch) (response : L.Response) :
    (task.handleRequestResponse (.message (.response rid response))).2 = some (.send ch response) := by
  have hlookup := (holds_of_run hrun hc rid ch).mpr ⟨hlive.1, fun he => absurd he hlive.2⟩
  rw [Task.handleRequestResponse, hlookup, Option.map_some]

/-! Peers, messages and channels named by numbers. -/

namespace Numbered

abbrev net : Libp2p := ⟨ℕ, ℕ, ℕ, ℕ, ℕ, ℕ, ℕ, inferInstance, inferInstance⟩

/-- Two requests, of which the first is answered. -/
def answered : List (Input net) :=
  [.event (.message (.response 1 30)), .request 21 (some 7) 12 2, .request 20 (some 7) 11 1]

/-- A request that fails. -/
def failed : List (Input net) := [.event (.outboundFailure 1), .request 20 (some 7) 11 1]

/-- From the start, the inputs of the history lead to the state. -/
theorem run_of_inputs {P : Task L → Prop} (history : List (Input L))
    (h : ∃ task ∈ history.reverse.foldlM (system L).step Task.new, P task) :
    ∃ past task, (system L).Run past task ∧ past.map Prod.snd = history ∧ P task := by
  obtain ⟨task, hrun, hP⟩ := h
  have hstart : (system L).Run [] Task.new := .init rfl
  obtain ⟨past, hpast, hmap⟩ := hstart.extend _ hrun
  rw [List.append_nil] at hpast
  rw [List.reverse_reverse] at hmap
  exact ⟨past, task, hpast, hmap, hP⟩

end Numbered

theorem tracksLive_iff_answered : ∃ task : Task Numbered.net,
    TracksLive Numbered.answered task ∧ task.pendingRequests.lookup 2 = some 12 := by
  obtain ⟨past, task, hrun, hmap, hlookup⟩ := Numbered.run_of_inputs Numbered.answered
    (P := fun task : Task Numbered.net => task.pendingRequests.lookup 2 = some 12) (by decide)
  have hc : Contract (past.map Prod.snd) := by
    rw [hmap]
    simp [Numbered.answered, Contract, Started, Ended, Live, Input.starts, Input.ends]
  have htracks := tracksLive_iff hrun hc
  rw [hmap] at htracks
  exact ⟨task, htracks.mpr (by simp [Numbered.answered, Failed]), hlookup⟩

/-- A request that has failed still holds the channel of its requester. -/
theorem failed_request_held : ∃ past task, (system Numbered.net).Run past task ∧
    past.map Prod.snd = Numbered.failed ∧ Contract Numbered.failed ∧
    (∀ rid ch, ¬ Live Numbered.failed rid ch) ∧ task.pendingRequests.lookup 1 = some 11 := by
  obtain ⟨past, task, hrun, hmap, hlookup⟩ := Numbered.run_of_inputs Numbered.failed
    (P := fun task : Task Numbered.net => task.pendingRequests.lookup 1 = some 11) (by decide)
  refine ⟨past, task, hrun, hmap, ?_, fun rid ch hlive => ?_, hlookup⟩
  · simp [Numbered.failed, Contract, Started, Ended, Live, Input.starts, Input.ends]
  · refine hlive.2 (Failed.ended ?_)
    have hstarted := hlive.1
    simp only [Numbered.failed, Started, List.mem_cons, List.not_mem_nil, or_false,
      exists_eq_or_imp, exists_eq_left, Input.starts, reduceCtorEq, false_or, Option.some.injEq,
      Prod.mk.injEq] at hstarted
    rw [← hstarted.1]
    exact List.mem_cons_self

end P2p

end Taurus
