import Taurus.Handling

namespace Taurus

namespace Network

variable {H P : Type} [DecidableEq P] {net net' : Network H P} {n m : P} {node : Node H P} {i j : Nat}
  {poll poll' : Poll H P} {action action' : Action H P (Option Nat)} {response : P2p.Response H}

@[simp] theorem setNode_nodes_self : (net.setNode n node).nodes n = node := Function.update_self ..

@[simp] theorem setNode_nodes_of_ne (h : m ≠ n) : (net.setNode n node).nodes m = net.nodes m :=
  Function.update_of_ne h ..

/-- What a new value of a node leaves as it was, it leaves as it was at every node. -/
theorem setNode_keeps {α : Type} (field : Node H P → α) (h : field node = field (net.nodes n)) :
    field ((net.setNode n node).nodes m) = field (net.nodes m) := by
  by_cases hm : m = n
  · rw [hm, setNode_nodes_self, h]
  · rw [setNode_nodes_of_ne hm]

@[simp] theorem setNode_polls : (net.setNode n node).polls = net.polls := rfl

omit [DecidableEq P] in
@[simp] theorem setPoll_nodes : (net.setPoll i poll).nodes = net.nodes := rfl

omit [DecidableEq P] in
theorem setPoll_polls_self (h : net.polls[i]? = some poll') :
    (net.setPoll i poll).polls[i]? = some poll := by
  rw [setPoll, List.getElem?_set_self (List.getElem?_eq_some_iff.mp h).1]

omit [DecidableEq P] in
@[simp] theorem setPoll_polls_of_ne (h : i ≠ j) :
    (net.setPoll i poll).polls[j]? = net.polls[j]? := List.getElem?_set_ne h

@[simp] theorem enqueue_task : ((net.enqueue n action).nodes m).task = (net.nodes m).task :=
  setNode_keeps Node.task rfl

@[simp] theorem enqueue_serving :
    ((net.enqueue n action).nodes m).serving = (net.nodes m).serving :=
  setNode_keeps Node.serving rfl

@[simp] theorem mem_enqueue : action' ∈ ((net.enqueue n action).nodes m).actions ↔
    action' ∈ (net.nodes m).actions ∨ m = n ∧ action' = action := by
  by_cases h : m = n
  · rw [h, enqueue, setNode_nodes_self]
    simp [Node.enqueue]
  · rw [enqueue, setNode_nodes_of_ne h]
    simp [h]

end Network

variable {H P : Type} [LinearOrder H] [DecidableEq P] {hash : Vertex H → H} {faulty : HashSet P}
  {net net' : Network H P} {n m : P} {i : Nat}

namespace Network

/-- The consensus task of the node performs the action, which leaves it in the state `task'`. -/
def Works (hash : Vertex H → H) (net : Network H P) (n : P) (action : Action H P (Option Nat))
    (task' : Task H P) (effects : List (Effect H P (Option Nat))) : Prop :=
  action ∈ (net.nodes n).actions ∧
    ∃ it rng, Task.Performs hash it rng (net.nodes n).task action task' effects

/-- What the handler of a peer responds to the poll: what the consensus task says, or an error. -/
def Responds (hash : Vertex H → H) (net : Network H P) (peer : P) (i : Nat)
    (response : P2p.Response H) : Prop :=
  response = .error .unknown ∨ ∃ action task' effects preference,
    net.Works hash peer action task' effects ∧ .sendPreference (some i) preference ∈ effects ∧
      response = Handler.respondPreference (ConsensusApi.getPreference (.ok preference))

/-- How a step changes a poll. -/
inductive PollStep (hash : Vertex H → H) (faulty : HashSet P) (net net' : Network H P) (i : Nat)
    (poll : Poll H P) : Poll H P → Prop
  | same : PollStep hash faulty net net' i poll poll
  | asked {peer : P} : (net'.nodes peer).serving = some i →
      PollStep hash faulty net net' i poll { poll with questions := poll.questions.erase peer }
  | answered {peer : P} {response : P2p.Response H} : net.Responds hash peer i response →
      PollStep hash faulty net net' i poll (poll.answer peer response)
  | forged {peer : P} {response : P2p.Response H} : peer ∈ faulty →
      PollStep hash faulty net net' i poll
        ({ poll with questions := poll.questions.erase peer }.answer peer response)
  | delivered {peer : P} {response : P2p.Response H} : (peer, response) ∈ poll.answers →
      PollStep hash faulty net net' i poll { poll with
        answers := poll.answers.erase (peer, response)
        polling := poll.polling.deliver peer response.toAnswer }
  | turned {polling : Polling H P} : poll.polling.turn = some polling →
      (∀ b, polling.phase = .reported b →
        .recordPeerPreference polling.pollster.vhash b ∈ (net'.nodes poll.owner).actions) →
      PollStep hash faulty net net' i poll { poll with polling := polling }

/-- What a step does to the nodes and polls of a network. -/
structure Steps (hash : Vertex H → H) (faulty : HashSet P) (net net' : Network H P) : Prop where
  task : ∀ m, (net'.nodes m).task = (net.nodes m).task ∨
    ∃ action effects, net.Works hash m action (net'.nodes m).task effects
  kept : ∀ m, ∀ action ∈ (net.nodes m).actions, action ∈ (net'.nodes m).actions ∨
    ∃ effects, net.Works hash m action (net'.nodes m).task effects
  queued : ∀ m, ∀ action ∈ (net'.nodes m).actions, action ∈ (net.nodes m).actions ∨
    IsCall action ∨ ∃ (i : Nat) (poll : Poll H P), net'.polls[i]? = some poll ∧
      (action = .getPreference poll.polling.pollster.vhash (some i) ∨ poll.owner = m ∧
        ∃ b, poll.polling.phase = .reported b ∧
          action = .recordPeerPreference poll.polling.pollster.vhash b)
  poll : ∀ (i : Nat) (poll : Poll H P), net.polls[i]? = some poll →
    ∃ poll', net'.polls[i]? = some poll' ∧ PollStep hash faulty net net' i poll poll'
  started : ∀ (i : Nat) (poll' : Poll H P), net'.polls[i]? = some poll' → (∃ poll, net.polls[i]? = some poll) ∨
    ∃ m action effects pollster, net.Works hash m action (net'.nodes m).task effects ∧
      .startPollster pollster ∈ effects ∧ poll' = Poll.start m pollster
  serving : ∀ m (i : Nat) (poll : Poll H P), (net.nodes m).serving = some i → net.polls[i]? = some poll →
    (net'.nodes m).serving = some i ∨
      ∃ poll' response, net'.polls[i]? = some poll' ∧ (m, response) ∈ poll'.answers

namespace Steps

/-- A poll was there before the step, or the step has started it. -/
theorem poll_cases {poll' : Poll H P} (h : Steps hash faulty net net')
    (hi' : net'.polls[i]? = some poll') :
    (∃ poll, net.polls[i]? = some poll ∧ PollStep hash faulty net net' i poll poll') ∨
      ∃ m action effects pollster, net.Works hash m action (net'.nodes m).task effects ∧
        .startPollster pollster ∈ effects ∧ poll' = Poll.start m pollster := by
  refine (h.started i poll' hi').imp_left ?_
  rintro ⟨poll, hi⟩
  obtain ⟨poll'', hi'', hp⟩ := h.poll i poll hi
  cases hi'.symm.trans hi''
  exact ⟨poll, hi, hp⟩

/-- The node works on its next action; the other nodes do nothing. -/
theorem of_work {action : Action H P (Option Nat)} {actions : List (Action H P (Option Nat))}
    {effects : List (Effect H P (Option Nat))} (hact : (net.nodes n).actions = action :: actions)
    (hw : net.Works hash n action (net'.nodes n).task effects)
    (hother : ∀ m, m ≠ n → net'.nodes m = net.nodes m) (hrest : (net'.nodes n).actions = actions)
    (hpoll : ∀ (i : Nat) (poll : Poll H P), net.polls[i]? = some poll →
      ∃ poll', net'.polls[i]? = some poll' ∧ PollStep hash faulty net net' i poll poll')
    (hstarted : ∀ (i : Nat) (poll' : Poll H P), net'.polls[i]? = some poll' → (∃ poll, net.polls[i]? = some poll) ∨
      ∃ pollster, .startPollster pollster ∈ effects ∧ poll' = Poll.start n pollster)
    (hserving : ∀ (i : Nat) (poll : Poll H P), (net.nodes n).serving = some i → net.polls[i]? = some poll →
      (net'.nodes n).serving = some i ∨
        ∃ poll' response, net'.polls[i]? = some poll' ∧ (n, response) ∈ poll'.answers) :
    Steps hash faulty net net' where
  task m := by
    by_cases hm : m = n
    · subst hm
      exact Or.inr ⟨action, effects, hw⟩
    · rw [hother m hm]
      exact Or.inl rfl
  kept m a ha := by
    by_cases hm : m = n
    · subst hm
      rw [hact] at ha
      -- the first action is the one that is performed
      rcases List.mem_cons.mp ha with rfl | ha
      · exact Or.inr ⟨effects, hw⟩
      · exact Or.inl (hrest ▸ ha)
    · rw [hother m hm]
      exact Or.inl ha
  queued m a ha := by
    by_cases hm : m = n
    · subst hm
      rw [hact]
      exact Or.inl (List.mem_cons_of_mem _ (hrest ▸ ha))
    · rw [hother m hm] at ha
      exact Or.inl ha
  poll := hpoll
  started i poll' hi := by
    refine (hstarted i poll' hi).imp_right ?_
    rintro ⟨pollster, hp, rfl⟩
    exact ⟨n, action, effects, pollster, hw, hp, rfl⟩
  serving m i poll hm hi := by
    by_cases hmn : m = n
    · subst hmn
      exact hserving i poll hm hi
    · rw [hother m hmn]
      exact Or.inl hm

/-- One poll changes, and the tasks of the nodes do not. -/
theorem of_poll {poll poll' : Poll H P} (hi : net.polls[i]? = some poll)
    (hi' : net'.polls[i]? = some poll') (hother : ∀ j, j ≠ i → net'.polls[j]? = net.polls[j]?)
    (htask : ∀ m, (net'.nodes m).task = (net.nodes m).task)
    (hkept : ∀ m, ∀ action ∈ (net.nodes m).actions, action ∈ (net'.nodes m).actions)
    (hqueued : ∀ m, ∀ action ∈ (net'.nodes m).actions, action ∈ (net.nodes m).actions ∨
      (action = .getPreference poll'.polling.pollster.vhash (some i) ∨ poll'.owner = m ∧
        ∃ b, poll'.polling.phase = .reported b ∧
          action = .recordPeerPreference poll'.polling.pollster.vhash b))
    (hpoll : PollStep hash faulty net net' i poll poll')
    (hserving : ∀ m j, (net.nodes m).serving = some j → (net'.nodes m).serving = some j ∨
      j = i ∧ ∃ response, (m, response) ∈ poll'.answers) :
    Steps hash faulty net net' where
  task m := Or.inl (htask m)
  kept m a ha := Or.inl (hkept m a ha)
  queued m a ha := by
    refine (hqueued m a ha).imp_right fun h => ?_
    exact Or.inr ⟨i, poll', hi', h⟩
  poll j p hj := by
    by_cases hji : j = i
    · subst hji
      cases hi.symm.trans hj
      exact ⟨poll', hi', hpoll⟩
    · exact ⟨p, (hother j hji).trans hj, .same⟩
  started j p hj := by
    by_cases hji : j = i
    · subst hji
      exact Or.inl ⟨poll, hi⟩
    · exact Or.inl ⟨p, (hother j hji).symm.trans hj⟩
  serving m j p hm _ := by
    refine (hserving m j hm).imp_right ?_
    rintro ⟨rfl, response, hr⟩
    exact ⟨poll', response, hi', hr⟩

end Steps

omit [LinearOrder H] in
/-- Polls are started behind those that there are. -/
theorem foldl_startPollster (net : Network H P) (n : P) (pollsters : List (Pollster H P)) :
    (pollsters.map .startPollster).foldl (perform n) net =
      { net with polls := net.polls ++ pollsters.map (Poll.start n) } := by
  induction pollsters generalizing net with
  | nil => simp
  | cons pollster pollsters ih =>
    rw [List.map_cons, List.foldl_cons, ih, perform]
    simp

omit [LinearOrder H] in
theorem respond_eq {poll : Poll H P} {response : P2p.Response H} (hi : net.polls[i]? = some poll) :
    net.respond n i response = (net.setNode n (net.nodes n).release).setPoll i
      (poll.answer n response) := by
  have : Inhabited (Poll H P) := ⟨poll⟩
  rw [respond, setPoll, List.modify_eq_set, hi]
  rfl

omit [LinearOrder H] in
theorem respond_eq_of_none {response : P2p.Response H} (hi : net.polls[i]? = none) :
    net.respond n i response = net.setNode n (net.nodes n).release := by
  rw [respond, List.modify_eq_self (List.getElem?_eq_none_iff.mp hi)]
  rfl

namespace Steps

theorem call {action : Action H P (Option Nat)} (hcall : IsCall action) :
    Steps hash faulty net (net.enqueue n action) where
  task _ := Or.inl enqueue_task
  kept _ _ ha := Or.inl (mem_enqueue.mpr (Or.inl ha))
  queued m a ha := by
    refine (mem_enqueue.mp ha).imp_right ?_
    rintro ⟨_, rfl⟩
    exact Or.inl hcall
  poll _ poll hi := ⟨poll, hi, .same⟩
  started _ poll hi := Or.inl ⟨poll, hi⟩
  serving _ _ _ hm _ := Or.inl (enqueue_serving.trans hm)

theorem timeout (hs : (net.nodes n).serving = some i) :
    Steps hash faulty net (net.respond n i (.error .unknown)) := by
  have hactions (m : P) : ((net.setNode n (net.nodes n).release).nodes m).actions =
      (net.nodes m).actions := setNode_keeps Node.actions rfl
  cases hi : net.polls[i]? with
  | none =>
    -- without such a poll, the handler is free again and the response is lost
    rw [respond_eq_of_none hi]
    refine ⟨fun m => Or.inl (setNode_keeps Node.task rfl), fun m action ha => Or.inl ?_,
      fun m action ha => Or.inl ?_, fun j poll hj => ⟨poll, hj, .same⟩,
      fun j poll hj => Or.inl ⟨poll, hj⟩, fun m j poll hm hj => Or.inl ?_⟩
    · rwa [hactions]
    · rwa [hactions] at ha
    · have hmn : m ≠ n := by
        rintro rfl
        cases hs.symm.trans hm
        cases hi.symm.trans hj
      rw [setNode_nodes_of_ne hmn, hm]
  | some poll =>
    rw [respond_eq hi]
    refine of_poll hi (setPoll_polls_self hi) (fun j hj => setPoll_polls_of_ne (Ne.symm hj))
      (fun m => setNode_keeps Node.task rfl) (fun m action ha => (hactions m).symm ▸ ha)
      (fun m action ha => Or.inl (hactions m ▸ ha)) (.answered (Or.inl rfl)) fun m j hj => ?_
    by_cases hm : m = n
    · subst hm
      cases hs.symm.trans hj
      exact Or.inr ⟨rfl, _, List.mem_append_right _ List.mem_cons_self⟩
    · refine Or.inl ?_
      rw [setPoll_nodes, setNode_nodes_of_ne hm, hj]

/-- A poll changes and the nodes do not. -/
theorem setPoll {poll poll' : Poll H P} (hi : net.polls[i]? = some poll)
    (hpoll : PollStep hash faulty net (net.setPoll i poll') i poll poll') :
    Steps hash faulty net (net.setPoll i poll') :=
  of_poll hi (setPoll_polls_self hi) (fun _ hj => setPoll_polls_of_ne (Ne.symm hj)) (fun _ => rfl)
    (fun _ _ ha => ha) (fun _ _ ha => Or.inl ha) hpoll fun _ _ hj => Or.inl hj

theorem ask {poll : Poll H P} {peer : P} (hi : net.polls[i]? = some poll)
    (hfree : (net.nodes peer).serving = none) :
    Steps hash faulty net (((net.setPoll i { poll with questions := poll.questions.erase peer
      }).setNode peer { net.nodes peer with serving := some i }).enqueue peer
        (.getPreference poll.polling.pollster.vhash (some i))) := by
  have hactions (m : P) : ((((net.setPoll i { poll with questions := poll.questions.erase peer
      }).setNode peer { net.nodes peer with serving := some i })).nodes m).actions =
      (net.nodes m).actions := setNode_keeps Node.actions rfl
  refine of_poll hi (setPoll_polls_self hi) (fun j hj => setPoll_polls_of_ne (Ne.symm hj))
    (fun m => enqueue_task.trans (setNode_keeps Node.task rfl)) ?_ ?_ (.asked ?_) ?_
  · intro m action ha
    exact mem_enqueue.mpr (Or.inl ((hactions m).symm ▸ ha))
  · intro m action ha
    rcases mem_enqueue.mp ha with ha | ⟨_, rfl⟩
    · exact Or.inl (hactions m ▸ ha)
    · exact Or.inr (Or.inl rfl)
  · rw [enqueue_serving, setNode_nodes_self]
  -- no handler is called away from a poll
  · intro m j hj
    have hm : m ≠ peer := by
      rintro rfl
      cases hfree.symm.trans hj
    refine Or.inl ?_
    rw [enqueue_serving, setNode_nodes_of_ne hm, setPoll_nodes, hj]

theorem turn_reported {poll : Poll H P} {polling : Polling H P} {b : Bool}
    (hi : net.polls[i]? = some poll) (ht : poll.polling.turn = some polling)
    (hb : polling.phase = .reported b) (hpollster : polling.pollster = poll.polling.pollster) :
    Steps hash faulty net ((net.setPoll i { poll with polling := polling }).enqueue poll.owner
      (.recordPeerPreference poll.polling.pollster.vhash b)) := by
  refine of_poll hi (setPoll_polls_self hi) (fun j hj => setPoll_polls_of_ne (Ne.symm hj))
    (fun m => enqueue_task) ?_ ?_ (.turned ht fun b' hb' => ?_) ?_
  · exact fun m action ha => mem_enqueue.mpr (Or.inl ha)
  · intro m action ha
    rcases mem_enqueue.mp ha with ha | ⟨rfl, rfl⟩
    · exact Or.inl ha
    · exact Or.inr (Or.inr ⟨rfl, b, hb, by rw [hpollster]⟩)
  · cases hb.symm.trans hb'
    rw [hpollster]
    exact mem_enqueue.mpr (Or.inr ⟨rfl, rfl⟩)
  · exact fun m j hj => Or.inl (enqueue_serving.trans hj)

section Work

variable {it : HashOrders H} {rng : Rng H} {action : Action H P (Option Nat)}
  {actions : List (Action H P (Option Nat))} {task' : Task H P}
  {effects : List (Effect H P (Option Nat))} (hact : (net.nodes n).actions = action :: actions)
  (hp : Task.Performs hash it rng (net.nodes n).task action task' effects)
include hact hp

theorem works_of_performs {t : Task H P} (ht : t = task') : net.Works hash n action t effects :=
  ⟨hact ▸ List.mem_cons_self, it, rng, ht ▸ hp⟩

/-- Effects that the network does not see. -/
theorem work : Steps hash faulty net
    (net.setNode n { net.nodes n with task := task', actions := actions }) := by
  refine of_work hact (works_of_performs hact hp ?_) (fun m hm => setNode_nodes_of_ne hm) ?_
    (fun i poll hi => ⟨poll, hi, .same⟩) (fun i poll hi => Or.inl ⟨poll, hi⟩)
    (fun i poll hs _ => Or.inl ?_)
  · rw [setNode_nodes_self]
  · rw [setNode_nodes_self]
  · rw [setNode_nodes_self, hs]

/-- The preference for a poll whose question the handler of the node answers. -/
theorem work_respond {preference : Option (Bool × Bool)} {poll : Poll H P}
    (heff : .sendPreference (some i) preference ∈ effects) (hs : (net.nodes n).serving = some i)
    (hi : net.polls[i]? = some poll) : Steps hash faulty net
      ((net.setNode n { net.nodes n with task := task', actions := actions }).respond n i
        (Handler.respondPreference (ConsensusApi.getPreference (.ok preference)))) := by
  have hi' : (net.setNode n { net.nodes n with task := task', actions := actions }).polls[i]? =
      some poll := hi
  have hresponds : net.Responds hash n i
      (Handler.respondPreference (ConsensusApi.getPreference (.ok preference))) :=
    Or.inr ⟨action, task', effects, preference, works_of_performs hact hp rfl, heff, rfl⟩
  rw [respond_eq hi']
  refine of_work hact (works_of_performs hact hp ?_) (fun m hm => ?_) ?_ (fun j p hj => ?_)
    (fun j p hj => ?_) (fun j p hj hpj => ?_)
  · rw [setPoll_nodes, setNode_nodes_self, setNode_nodes_self]
    rfl
  · rw [setPoll_nodes, setNode_nodes_of_ne hm, setNode_nodes_of_ne hm]
  · rw [setPoll_nodes, setNode_nodes_self, setNode_nodes_self]
    rfl
  · by_cases hji : j = i
    · subst hji
      cases hi.symm.trans hj
      exact ⟨_, setPoll_polls_self hi', .answered hresponds⟩
    · exact ⟨p, (setPoll_polls_of_ne (Ne.symm hji)).trans hj, .same⟩
  · by_cases hji : j = i
    · subst hji
      exact Or.inl ⟨poll, hi⟩
    · rw [setPoll_polls_of_ne (Ne.symm hji)] at hj
      exact Or.inl ⟨p, hj⟩
  · cases hs.symm.trans hj
    exact Or.inr ⟨_, _, setPoll_polls_self hi', List.mem_append_right _ List.mem_cons_self⟩

theorem work_release {response : P2p.Response H} (hs : (net.nodes n).serving = some i)
    (hi : net.polls[i]? = none) : Steps hash faulty net
      ((net.setNode n { net.nodes n with task := task', actions := actions }).respond n i response) := by
  have hi' : (net.setNode n { net.nodes n with task := task', actions := actions }).polls[i]? =
      none := hi
  rw [respond_eq_of_none hi']
  refine of_work hact (works_of_performs hact hp ?_) (fun m hm => ?_) ?_
    (fun j poll hj => ⟨poll, hj, .same⟩) (fun j poll hj => Or.inl ⟨poll, hj⟩) (fun j poll hj hpj => ?_)
  · rw [setNode_nodes_self, setNode_nodes_self]
    rfl
  · rw [setNode_nodes_of_ne hm, setNode_nodes_of_ne hm]
  · rw [setNode_nodes_self, setNode_nodes_self]
    rfl
  · cases hs.symm.trans hj
    cases hi.symm.trans hpj

/-- The pollsters that a submission starts. -/
theorem work_start {pollsters : List (Pollster H P)}
    (heff : ∀ pollster ∈ pollsters, .startPollster pollster ∈ effects) : Steps hash faulty net
      { net.setNode n { net.nodes n with task := task', actions := actions } with
        polls := net.polls ++ pollsters.map (Poll.start n) } := by
  refine of_work hact (works_of_performs hact hp ?_) (fun m hm => setNode_nodes_of_ne hm) ?_
    (fun i poll hi => ⟨poll, ?_, .same⟩) (fun i poll hi => ?_) (fun i poll hs _ => Or.inl ?_)
  · exact congrArg Node.task setNode_nodes_self
  · exact congrArg Node.actions setNode_nodes_self
  · exact (List.getElem?_append_left (List.getElem?_eq_some_iff.mp hi).1).trans hi
  -- a poll behind the old ones is one that the submission has started
  · by_cases hlt : i < net.polls.length
    · exact Or.inl ⟨_, List.getElem?_eq_getElem hlt⟩
    · have hnew := hi
      rw [List.getElem?_append_right (Nat.le_of_not_lt hlt)] at hnew
      obtain ⟨pollster, hm, rfl⟩ := List.mem_map.mp (List.mem_of_getElem? hnew)
      exact Or.inr ⟨pollster, heff pollster hm, rfl⟩
  · exact (congrArg Node.serving setNode_nodes_self).trans hs

/-- The node performs the next action in its queue. -/
theorem handle : Steps hash faulty net (effects.foldl (perform n)
    (net.setNode n { net.nodes n with task := task', actions := actions })) := by
  have hquiet : Steps hash faulty net
      (net.setNode n { net.nodes n with task := task', actions := actions }) := work hact hp
  -- a preference goes to the poll that the handler serves; it is lost if the handler has given up
  have hsend (resultCh : Option Nat) (preference : Option (Bool × Bool))
      (heff : effects = [.sendPreference resultCh preference]) :
      Steps hash faulty net (effects.foldl (perform n)
        (net.setNode n { net.nodes n with task := task', actions := actions })) := by
    rw [heff, List.foldl_cons, List.foldl_nil]
    cases resultCh with
    | none => exact hquiet
    | some i =>
      rw [perform, setNode_nodes_self]
      split
      · next hs =>
        cases hi : net.polls[i]? with
        | none => exact work_release hact hp hs hi
        | some poll => exact work_respond hact hp (heff ▸ List.mem_cons_self) hs hi
      · exact hquiet
  cases hp with
  | added | frontier | vertex | recorded | dropped | refused => exact hquiet
  | preference | unknown => exact hsend _ _ rfl
  | inserted resultCh hs hf =>
    rw [List.foldl_append, foldl_startPollster]
    exact work_start hact (.inserted resultCh hs hf)
      fun _ hm => List.mem_append_left _ (List.mem_map_of_mem hm)

end Work

end Steps

/-- What an event makes of the network, where it can happen. -/
inductive Moves (hash : Vertex H → H) (faulty : HashSet P) (net : Network H P) :
    Event H P → Network H P → Prop
  | call {n : P} {action : Action H P (Option Nat)} : IsCall action →
      Moves hash faulty net (.call n action) (net.enqueue n action)
  | handle {n : P} {it : HashOrders H} {rng : Rng H} {action : Action H P (Option Nat)}
      {actions : List (Action H P (Option Nat))} {task' : Task H P}
      {effects : List (Effect H P (Option Nat))} : (net.nodes n).actions = action :: actions →
      Task.Performs hash it rng (net.nodes n).task action task' effects →
      Moves hash faulty net (.handle n it rng) (effects.foldl (perform n)
        (net.setNode n { net.nodes n with task := task', actions := actions }))
  | ask {i : Nat} {peer : P} {poll : Poll H P} : net.polls[i]? = some poll →
      peer ∈ poll.questions → (net.nodes peer).serving = none →
      Moves hash faulty net (.ask i peer)
        (((net.setPoll i { poll with questions := poll.questions.erase peer }).setNode peer
          { net.nodes peer with serving := some i }).enqueue peer
            (.getPreference poll.polling.pollster.vhash (some i)))
  | timeout {n : P} {i : Nat} : (net.nodes n).serving = some i →
      Moves hash faulty net (.timeout n) (net.respond n i (.error .unknown))
  | forge {i : Nat} {peer : P} {response : P2p.Response H} {poll : Poll H P} :
      net.polls[i]? = some poll → peer ∈ faulty → peer ∈ poll.questions →
      Moves hash faulty net (.forge i peer response) (net.setPoll i
        ({ poll with questions := poll.questions.erase peer }.answer peer response))
  | deliver {i : Nat} {peer : P} {response : P2p.Response H} {poll : Poll H P} :
      net.polls[i]? = some poll → (peer, response) ∈ poll.answers →
      Moves hash faulty net (.deliver i peer response) (net.setPoll i { poll with
        answers := poll.answers.erase (peer, response)
        polling := poll.polling.deliver peer response.toAnswer })
  | turn {i : Nat} {poll : Poll H P} {polling : Polling H P} : net.polls[i]? = some poll →
      poll.polling.turn = some polling → (∀ b, polling.phase ≠ .reported b) →
      Moves hash faulty net (.turn i) (net.setPoll i { poll with polling := polling })
  | report {i : Nat} {poll : Poll H P} {polling : Polling H P} {b : Bool} :
      net.polls[i]? = some poll → poll.polling.turn = some polling →
      polling.phase = .reported b →
      Moves hash faulty net (.turn i) ((net.setPoll i { poll with polling := polling }).enqueue
        poll.owner (.recordPeerPreference poll.polling.pollster.vhash b))

theorem moves_of_step {event : Event H P} (h : step hash faulty net event = some net') :
    Moves hash faulty net event net' := by
  cases event with
  | call n action =>
    simp only [step] at h
    split at h
    · next hcall =>
      cases h
      exact .call hcall
    · cases h
  | handle n it rng =>
    simp only [step] at h
    split at h
    · cases h
    next action actions hact =>
    obtain ⟨⟨task', effects⟩, hh, h⟩ := Option.bind_eq_some_iff.mp h
    cases h
    exact .handle hact (Task.performs_of_handle hh)
  | ask i peer =>
    obtain ⟨poll, hi, h⟩ := Option.bind_eq_some_iff.mp h
    split at h
    · next hfree =>
      cases h
      exact .ask hi hfree.1 hfree.2
    · cases h
  | timeout n =>
    obtain ⟨i, hs, h⟩ := Option.bind_eq_some_iff.mp h
    cases h
    exact .timeout hs
  | forge i peer response =>
    obtain ⟨poll, hi, h⟩ := Option.bind_eq_some_iff.mp h
    split at h
    · next hforge =>
      cases h
      exact .forge hi hforge.1 hforge.2
    · cases h
  | deliver i peer response =>
    obtain ⟨poll, hi, h⟩ := Option.bind_eq_some_iff.mp h
    split at h
    · next hmem =>
      cases h
      exact .deliver hi hmem
    · cases h
  | turn i =>
    obtain ⟨poll, hi, h⟩ := Option.bind_eq_some_iff.mp h
    obtain ⟨polling, ht, h⟩ := Option.bind_eq_some_iff.mp h
    simp only at h
    split at h
    · next b hb =>
      cases h
      exact .report hi ht hb
    · next hno =>
      cases h
      exact .turn hi ht hno

theorem steps_of_step {event : Event H P} (h : step hash faulty net event = some net') :
    Steps hash faulty net net' := by
  cases moves_of_step h with
  | call hcall => exact .call hcall
  | handle hact hp => exact .handle hact hp
  | ask hi _ hfree => exact .ask hi hfree
  | timeout hs => exact .timeout hs
  | forge hi hfaulty => exact .setPoll hi (.forged hfaulty)
  | deliver hi hmem => exact .setPoll hi (.delivered hmem)
  | turn hi ht hno => exact .setPoll hi (.turned ht fun b hb => (hno b hb).elim)
  | report hi ht hb => exact .turn_reported hi ht hb (Polling.turn_pollster ht)

end Network

end Taurus
