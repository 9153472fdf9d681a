import Mathlib.Algebra.BigOperators.Group.Finset.Piecewise
import Mathlib.Data.Prod.Lex
import Taurus.Completion

namespace Taurus

variable {H P : Type}

def Action.isSubmission {Ch : Type} : Action H P Ch → Bool
  | .submitVertex _ _ => true
  | _ => false

/-- What is left for a node to do: its actions, and its answer to a poll, which is weighed against
what becomes of it. -/
def Node.load (node : Node H P) : Nat :=
  node.actions.length + if node.serving.isSome then 3 else 0

/-- What is left for a pollster to do: its answers to take, and its result to report. -/
def Polling.load (polling : Polling H P) : Nat :=
  polling.responses.length + if polling.phase = .collecting then 2 else 0

/-- What is left to happen to a poll. -/
def Poll.load (poll : Poll H P) : Nat :=
  5 * poll.questions.card + 2 * poll.answers.length + poll.polling.load

/-- The load of a pollster goes down in a turn, by two where the loop ends. -/
theorem Polling.load_turn {polling polling' : Polling H P} (ht : polling.turn = some polling') :
    polling'.load < polling.load ∧
      ((∃ b, polling'.phase = .reported b) → polling'.load + 2 ≤ polling.load) := by
  obtain ⟨hph, ⟨response, responses, _, hr, rfl⟩ | ⟨_, rfl⟩⟩ := turn_eq_some ht
  · have hrest : (count { polling with responses := responses } response).responses.length =
        responses.length := congrArg List.length (count_frame _ response).2.2
    have hload : polling.load = responses.length + 1 + 2 := by
      rw [Polling.load, hph, hr, if_pos rfl, List.length_cons]
    rw [hload, Polling.load, hrest]
    refine ⟨by split <;> omega, ?_⟩
    rintro ⟨b, hb⟩
    rcases count_phase { polling with responses := responses } response with he | he
    · cases hb.symm.trans (he.trans hph)
    · cases hb.symm.trans he
  · rw [Polling.load, Polling.load, hph, if_pos rfl, if_neg PollPhase.noConfusion]
    exact ⟨Nat.lt_add_of_pos_right Nat.two_pos, fun _ => le_rfl⟩

theorem Node.load_enqueue (node : Node H P) (action : Action H P (Option Nat)) :
    (node.enqueue action).load = node.load + 1 := by
  have hlength : (node.enqueue action).actions.length = node.actions.length + 1 :=
    List.length_append
  have hserving : (node.enqueue action).serving = node.serving := rfl
  rw [Node.load, Node.load, hlength, hserving]
  omega

theorem Node.load_release {node : Node H P} {i : Nat} (hs : node.serving = some i) :
    node.release.load + 3 = node.load := by
  rw [Node.load, Node.load, hs]
  rfl

theorem Poll.load_erase [DecidableEq P] {poll poll' : Poll H P} {peer : P} (hpeer : peer ∈ poll.questions)
    (hquestions : poll'.questions = poll.questions.erase peer)
    (hanswers : poll'.answers = poll.answers) (hpolling : poll'.polling = poll.polling) :
    poll'.load + 5 = poll.load := by
  have hcard := Finset.card_erase_add_one hpeer
  rw [Poll.load, Poll.load, hanswers, hpolling, hquestions]
  omega

theorem Poll.load_answer (poll : Poll H P) (peer : P) (response : P2p.Response H) :
    (poll.answer peer response).load = poll.load + 2 := by
  have hlength : (poll.answer peer response).answers.length = poll.answers.length + 1 :=
    List.length_append
  have hquestions : (poll.answer peer response).questions = poll.questions := rfl
  have hpolling : (poll.answer peer response).polling = poll.polling := rfl
  rw [Poll.load, Poll.load, hlength, hquestions, hpolling]
  omega

namespace Network

variable [DecidableEq P] {net net' : Network H P} {n : P} {node : Node H P} {poll poll' : Poll H P} {i : Nat}
  {action : Action H P (Option Nat)} {response : P2p.Response H}

section Load

variable [Fintype P]

def load (net : Network H P) : Nat :=
  ∑ n, (net.nodes n).load + (net.polls.map Poll.load).sum

/-- Submissions that wait in the queues. Each starts polls, as many as the frontier has vertices. -/
def submissions (net : Network H P) : Nat :=
  ∑ n, (net.nodes n).actions.countP Action.isSubmission

theorem sum_setNode (field : Node H P → Nat) :
    ∑ m, field ((net.setNode n node).nodes m) + field (net.nodes n) =
      ∑ m, field (net.nodes m) + field node := by
  have hupdate : (fun m => field ((net.setNode n node).nodes m)) =
      Function.update (fun m => field (net.nodes m)) n (field node) :=
    Function.comp_update field net.nodes n node
  have hsplit := Finset.sum_sdiff (f := fun m => field (net.nodes m))
    (Finset.singleton_subset_iff.mpr (Finset.mem_univ n))
  rw [Finset.sum_singleton] at hsplit
  rw [hupdate, Finset.sum_update_of_mem (Finset.mem_univ n), ← hsplit]
  omega

omit [DecidableEq P] [Fintype P] in
theorem sum_set {l : List (Poll H P)} (hi : l[i]? = some poll) :
    ((l.set i poll').map Poll.load).sum + poll.load = (l.map Poll.load).sum + poll'.load := by
  induction l generalizing i with
  | nil => cases hi
  | cons p l ih =>
    cases i with
    | zero =>
      cases hi
      simp only [List.set_cons_zero, List.map_cons, List.sum_cons]
      omega
    | succ i =>
      have := ih hi
      simp only [List.set_cons_succ, List.map_cons, List.sum_cons]
      omega

theorem load_setNode :
    (net.setNode n node).load + (net.nodes n).load = net.load + node.load := by
  have hsum : ∑ m, ((net.setNode n node).nodes m).load + (net.nodes n).load =
      ∑ m, (net.nodes m).load + node.load := sum_setNode Node.load
  rw [load, load, setNode_polls]
  omega

theorem submissions_setNode :
    (net.setNode n node).submissions + (net.nodes n).actions.countP Action.isSubmission =
      net.submissions + node.actions.countP Action.isSubmission :=
  sum_setNode fun node => node.actions.countP Action.isSubmission

omit [DecidableEq P] in
theorem load_setPoll (hi : net.polls[i]? = some poll) :
    (net.setPoll i poll').load + poll.load = net.load + poll'.load := by
  have hsum : ((net.polls.set i poll').map Poll.load).sum + poll.load =
      (net.polls.map Poll.load).sum + poll'.load := sum_set hi
  have hload : (net.setPoll i poll').load =
      ∑ n, (net.nodes n).load + ((net.polls.set i poll').map Poll.load).sum := rfl
  rw [hload, load]
  omega

theorem load_enqueue : (net.enqueue n action).load = net.load + 1 := by
  have hnode := Node.load_enqueue (net.nodes n) action
  have hload : (net.enqueue n action).load + (net.nodes n).load =
      net.load + ((net.nodes n).enqueue action).load := load_setNode
  omega

theorem submissions_enqueue (h : action.isSubmission = false) :
    (net.enqueue n action).submissions = net.submissions := by
  have hsub : (net.enqueue n action).submissions +
      (net.nodes n).actions.countP Action.isSubmission = net.submissions +
        ((net.nodes n).actions ++ [action]).countP Action.isSubmission := submissions_setNode
  rw [List.countP_append, List.countP_singleton, h, if_neg Bool.false_ne_true] at hsub
  omega

/-- The response takes the place of the handler's work on it. -/
theorem load_respond (hs : (net.nodes n).serving = some i) :
    (net.respond n i response).load < net.load := by
  have hrelease := Node.load_release hs
  have hnode : (net.setNode n (net.nodes n).release).load + (net.nodes n).load =
      net.load + (net.nodes n).release.load := load_setNode
  -- three for the work of the handler, against two for its answer
  cases hi : net.polls[i]? with
  | none =>
    rw [respond_eq_of_none hi]
    omega
  | some poll =>
    have hi' : (net.setNode n (net.nodes n).release).polls[i]? = some poll := hi
    have hanswer := Poll.load_answer poll n response
    have hpoll : ((net.setNode n (net.nodes n).release).setPoll i (poll.answer n response)).load +
        poll.load = (net.setNode n (net.nodes n).release).load + (poll.answer n response).load :=
      load_setPoll hi'
    rw [respond_eq hi]
    omega

theorem submissions_respond : (net.respond n i response).submissions = net.submissions := by
  have hsub : (net.respond n i response).submissions +
      (net.nodes n).actions.countP Action.isSubmission = net.submissions +
        (net.nodes n).actions.countP Action.isSubmission := submissions_setNode
  omega

theorem submissions_perform {effect : Effect H P (Option Nat)} :
    (perform n net effect).submissions = net.submissions := by
  cases effect with
  | sendPreference resultCh preference =>
    cases resultCh with
    | none => rfl
    | some i =>
      rw [perform]
      split
      · exact submissions_respond
      · rfl
  | sendFrontier | sendVertex | sendInserted | startPollster | newFrontier => rfl

theorem load_perform_le {effect : Effect H P (Option Nat)}
    (h : ∀ pollster, effect ≠ .startPollster pollster) : (perform n net effect).load ≤ net.load := by
  cases effect with
  | sendPreference resultCh preference =>
    cases resultCh with
    | none => exact le_rfl
    | some i =>
      rw [perform]
      split
      · next hs => exact (load_respond hs).le
      · exact le_rfl
  | startPollster pollster => exact (h pollster rfl).elim
  | sendFrontier | sendVertex | sendInserted | newFrontier => exact le_rfl

theorem submissions_effects {effects : List (Effect H P (Option Nat))} :
    (effects.foldl (perform n) net).submissions = net.submissions := by
  induction effects generalizing net with
  | nil => rfl
  | cons effect effects ih => rw [List.foldl_cons, ih, submissions_perform]

theorem load_effects_le {effects : List (Effect H P (Option Nat))}
    (h : ∀ pollster, .startPollster pollster ∉ effects) :
    (effects.foldl (perform n) net).load ≤ net.load := by
  induction effects generalizing net with
  | nil => exact le_rfl
  | cons effect effects ih =>
    have hrest : (effects.foldl (perform n) (perform n net effect)).load ≤ _ :=
      ih fun pollster hp => h pollster (List.mem_cons_of_mem _ hp)
    refine hrest.trans (load_perform_le fun pollster he => h pollster ?_)
    rw [he]
    exact List.mem_cons_self

/-- Submissions first, since a submission adds to the load. -/
def rank (net : Network H P) : ℕ ×ₗ ℕ := toLex (net.submissions, net.load)

omit [DecidableEq P] in
theorem rank_lt_of_load (hsub : net'.submissions = net.submissions) (hload : net'.load < net.load) :
    net'.rank < net.rank :=
  Prod.Lex.toLex_lt_toLex.mpr (Or.inr ⟨hsub, hload⟩)

variable [LinearOrder H] {hash : Vertex H → H} {faulty : HashSet P} {it : HashOrders H} {rng : Rng H}
  {actions : List (Action H P (Option Nat))} {task' : Task H P}
  {effects : List (Effect H P (Option Nat))}

omit [Fintype P] in
theorem isSubmission_of_started (hp : Task.Performs hash it rng (net.nodes n).task action task' effects)
    {pollster : Pollster H P} (hs : .startPollster pollster ∈ effects) : action.isSubmission = true := by
  cases hp with
  | inserted => rfl
  | added | recorded | dropped => cases hs
  | frontier | preference | unknown | vertex | refused => cases List.mem_singleton.mp hs

/-- An action is gone from the queue, and what it adds elsewhere weighs less, unless it is a
submission. -/
theorem rank_effects (hact : (net.nodes n).actions = action :: actions)
    (hp : Task.Performs hash it rng (net.nodes n).task action task' effects)
    (hactions : node.actions = actions) (hserving : node.serving = (net.nodes n).serving) :
    (effects.foldl (perform n) (net.setNode n node)).rank < net.rank := by
  have hsub : (net.setNode n node).submissions +
      (net.nodes n).actions.countP Action.isSubmission =
        net.submissions + node.actions.countP Action.isSubmission := submissions_setNode
  have hload : (net.setNode n node).load + (net.nodes n).load = net.load + node.load := load_setNode
  have hnode : node.load + 1 = (net.nodes n).load := by
    rw [Node.load, Node.load, hact, hserving, hactions, List.length_cons]
    omega
  rw [hact, hactions, List.countP_cons] at hsub
  -- a submission may start polls, but there is one less of them afterwards
  cases hsubmission : action.isSubmission with
  | true =>
    rw [hsubmission, if_pos rfl] at hsub
    refine Prod.Lex.toLex_lt_toLex.mpr (Or.inl ?_)
    rw [submissions_effects]
    omega
  | false =>
    rw [hsubmission, if_neg Bool.false_ne_true] at hsub
    have hle : (effects.foldl (perform n) (net.setNode n node)).load ≤ (net.setNode n node).load := by
      refine load_effects_le fun pollster hs => ?_
      cases hsubmission.symm.trans (isSubmission_of_started hp hs)
    refine rank_lt_of_load ?_ (by omega)
    rw [submissions_effects]
    omega

omit [LinearOrder H] in
/-- The question goes, and the handler works on it. -/
theorem rank_ask {peer : P} (hi : net.polls[i]? = some poll) (hpeer : peer ∈ poll.questions)
    (hfree : (net.nodes peer).serving = none) (hquestions : poll'.questions = poll.questions.erase peer)
    (hanswers : poll'.answers = poll.answers) (hpolling : poll'.polling = poll.polling)
    (hactions : node.actions = (net.nodes peer).actions) (hserving : node.serving = some i)
    (hsubmission : action.isSubmission = false) :
    (((net.setPoll i poll').setNode peer node).enqueue peer action).rank < net.rank := by
  have hpoll := Poll.load_erase hpeer hquestions hanswers hpolling
  have hnode : node.load = (net.nodes peer).load + 3 := by
    rw [Node.load, Node.load, hactions, hserving, hfree]
    rfl
  have hload₁ : (net.setPoll i poll').load + poll.load = net.load + poll'.load := load_setPoll hi
  have hload₂ : ((net.setPoll i poll').setNode peer node).load + (net.nodes peer).load =
      (net.setPoll i poll').load + node.load := load_setNode
  have hload₃ : (((net.setPoll i poll').setNode peer node).enqueue peer action).load =
      ((net.setPoll i poll').setNode peer node).load + 1 := load_enqueue
  have hsub : ((net.setPoll i poll').setNode peer node).submissions +
      (net.nodes peer).actions.countP Action.isSubmission =
        net.submissions + node.actions.countP Action.isSubmission := submissions_setNode
  -- five for the question, against three for the handler and one for the action
  refine rank_lt_of_load ?_ (by omega)
  rw [submissions_enqueue hsubmission]
  rw [hactions] at hsub
  omega

omit [LinearOrder H] [DecidableEq P] in
theorem rank_setPoll (hi : net.polls[i]? = some poll) (hload : poll'.load < poll.load) :
    (net.setPoll i poll').rank < net.rank := by
  have hpoll : (net.setPoll i poll').load + poll.load = net.load + poll'.load := load_setPoll hi
  exact rank_lt_of_load rfl (by omega)

omit [LinearOrder H] in
/-- The result goes to the node that has started the poll. -/
theorem rank_report {polling : Polling H P} {b : Bool} (hi : net.polls[i]? = some poll)
    (hload : polling.load + 2 ≤ poll.polling.load) :
    ((net.setPoll i { poll with polling := polling }).enqueue poll.owner
      (.recordPeerPreference poll.polling.pollster.vhash b)).rank < net.rank := by
  have hpoll : (net.setPoll i { poll with polling := polling }).load + poll.load =
      net.load + (5 * poll.questions.card + 2 * poll.answers.length + polling.load) :=
    load_setPoll hi
  rw [Poll.load] at hpoll
  -- two for the end of the loop, against one for the action
  refine rank_lt_of_load (submissions_enqueue rfl) ?_
  rw [load_enqueue]
  omega

omit [Fintype P] in
/-- An answer that is taken weighs less than one that is on its way. -/
theorem load_deliver {peer : P} (hmem : (peer, response) ∈ poll.answers)
    (hquestions : poll'.questions = poll.questions)
    (hanswers : poll'.answers = poll.answers.erase (peer, response))
    (hpolling : poll'.polling = poll.polling.deliver peer response.toAnswer) :
    poll'.load < poll.load := by
  have hlength := List.length_erase_add_one hmem
  have hload : (poll.polling.deliver peer response.toAnswer).load ≤ poll.polling.load + 1 := by
    rw [Polling.load, Polling.load, (Polling.deliver_frame _ _ _).2, Polling.deliver]
    split
    · rw [List.length_append, List.length_singleton]
      omega
    · omega
  rw [Poll.load, Poll.load, hquestions, hanswers, hpolling]
  omega

theorem rank_step {event : Event H P} (hinternal : event.Internal)
    (hs : step hash faulty net event = some net') : net'.rank < net.rank := by
  cases moves_of_step hs with
  | @call n action => exact (hinternal n action rfl).elim
  | handle hact hp => exact rank_effects hact hp rfl rfl
  | ask hi hpeer hfree => exact rank_ask hi hpeer hfree rfl rfl rfl rfl rfl rfl
  | timeout hserves => exact rank_lt_of_load submissions_respond (load_respond hserves)
  | @forge i peer response poll hi _ hpeer =>
    refine rank_setPoll hi ?_
    -- five for the question, against two for the answer
    have herase : ({ poll with questions := poll.questions.erase peer } : Poll H P).load + 5 =
        poll.load := Poll.load_erase hpeer rfl rfl rfl
    rw [Poll.load_answer]
    omega
  | deliver hi hmem => exact rank_setPoll hi (load_deliver hmem rfl rfl rfl)
  | turn hi ht => exact rank_setPoll hi (Nat.add_lt_add_left (Polling.load_turn ht).1 _)
  | @report i poll polling b hi ht hb => exact rank_report hi ((Polling.load_turn ht).2 ⟨b, hb⟩)

end Load

end Network

/-- With finitely many nodes no run goes on forever without new calls, and every state leads to one
in which nothing else is left to happen. -/
theorem comes_to_rest {P : Type} [Finite P] [DecidableEq P] [LinearOrder H] (hash : Vertex H → H)
    (faulty : HashSet P) (config : P → Task.Config) (genesis : Vertex H) :
    WellFounded ((Network.system hash faulty config genesis).Next fun _ event => event.Internal) ∧
      ∀ net, ∃ net', (Network.system hash faulty config genesis).LeadsWhen
        (fun _ event => event.Internal) net net' ∧ net'.Quiet hash faulty := by
  have hwf : WellFounded ((Network.system hash faulty config genesis).Next
      fun _ event => event.Internal) := by
    have := Fintype.ofFinite P
    refine (InvImage.wf Network.rank wellFounded_lt).mono ?_
    rintro net' net ⟨event, hinternal, hs⟩
    exact Network.rank_step hinternal hs
  exact ⟨hwf, System.exists_stuck hwf⟩

theorem comes_to_rest_pair : ∃ net' : Network Digest Bool,
    (Network.system Vertex.wire ∅ Pair.config Fork.root).LeadsWhen (fun _ event => event.Internal)
      (Network.start Vertex.wire Pair.config Fork.root) net' ∧ net'.Quiet Vertex.wire ∅ :=
  (comes_to_rest Vertex.wire ∅ Pair.config Fork.root).2
    (Network.start Vertex.wire Pair.config Fork.root)

end Taurus
