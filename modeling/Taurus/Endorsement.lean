import Taurus.Simulation

namespace Taurus

variable {H P : Type} [LinearOrder H] [DecidableEq P] {hash : Vertex H → H} {faulty : HashSet P}
  {config : P → Task.Config} {genesis : Vertex H} {net net' : Network H P} {event : Network.Event H P}
  {past : List (Network H P × Network.Event H P)} {poll poll' : Poll H P} {n p : P} {v : H} {i : Nat}
  {b : Bool}

/-- Every answer to the poll has the property, whether it has arrived or is on its way. -/
structure Poll.Answers (Q : P → Response H → Prop) (poll : Poll H P) : Prop where
  heard : ∃ arrivals, poll.polling.Heard arrivals ∧ ∀ a ∈ arrivals, Q a.1 a.2
  answers : ∀ a ∈ poll.answers, Q a.1 a.2.toAnswer

namespace Poll.Answers

variable {Q Q' : P → Response H → Prop}

omit [LinearOrder H] [DecidableEq P] in
theorem start (owner : P) (pollster : Pollster H P) : (Poll.start owner pollster).Answers Q :=
  ⟨⟨[], Polling.heard_start pollster, fun _ ha => by cases ha⟩, fun _ ha => by cases ha⟩

/-- To take a step, a poll only has to look at the answers that are new. -/
theorem step (h : poll.Answers Q) (hQ : ∀ p response, Q p response → Q' p response)
    (hp : Network.PollStep hash faulty net net' i poll poll')
    (hnew : ∀ a ∈ poll'.answers, a ∉ poll.answers → Q' a.1 a.2.toAnswer) : poll'.Answers Q' := by
  obtain ⟨⟨arrivals, hheard, hback⟩, hanswers⟩ := h
  have hback' : ∀ a ∈ arrivals, Q' a.1 a.2 := fun a ha => hQ _ _ (hback a ha)
  have hanswers' : ∀ a ∈ poll'.answers, Q' a.1 a.2.toAnswer := fun a ha => by
    by_cases hold : a ∈ poll.answers
    · exact hQ _ _ (hanswers a hold)
    · exact hnew a ha hold
  refine ⟨?_, hanswers'⟩
  cases hp with
  | same | asked | answered | forged => exact ⟨arrivals, hheard, hback'⟩
  | turned ht _ => exact ⟨arrivals, hheard.turn ht, hback'⟩
  | @delivered peer response hmem =>
    -- a second answer of a peer is not heard
    by_cases hout : peer ∈ poll.polling.outstanding
    · refine ⟨_, hheard.deliver response.toAnswer hout, ?_⟩
      intro a ha
      rcases List.mem_append.mp ha with ha | ha
      · exact hback' a ha
      · rw [List.mem_singleton.mp ha]
        exact hQ _ _ (hanswers _ hmem)
    · have hsame : poll.polling.deliver peer response.toAnswer = poll.polling := if_neg hout
      exact ⟨arrivals, by rwa [hsame], hback'⟩

end Poll.Answers

namespace Network

/-- At some moment of the past the peer held the vertex and strongly preferred it. -/
def Vouched (past : List (Network H P × Event H P)) (p : P) (v : H) : Prop :=
  ∃ s ∈ past, v ∈ (s.1.nodes p).task.dag.graph ∧ (s.1.nodes p).task.dag.StronglyPreferred v

omit [DecidableEq P] in
theorem Vouched.cons (h : Vouched past p v) (s : Network H P × Event H P) :
    Vouched (s :: past) p v := by
  obtain ⟨t, ht, hv⟩ := h
  exact ⟨t, List.mem_cons_of_mem s ht, hv⟩

/-- An answer of a peer that is not faulty is a preference or an error, and it is positive only
where the peer has strongly preferred the vertex. -/
def Backed (faulty : HashSet P) (past : List (Network H P × Event H P)) (v : H) (p : P)
    (response : Response H) : Prop :=
  p ∈ faulty ∨ response.IsAnswer ∧ (response.isFor = true → Vouched past p v)

omit [DecidableEq P] in
theorem Backed.cons {response : Response H} (h : Backed faulty past v p response)
    (s : Network H P × Event H P) : Backed faulty (s :: past) v p response :=
  h.imp_right fun h => ⟨h.1, fun hfor => (h.2 hfor).cons s⟩

/-- What is known of a poll that a node with this configuration and these validators has
started. -/
structure Fits (faulty : HashSet P) (past : List (Network H P × Event H P)) (config : Task.Config)
    (validators : List P) (poll : Poll H P) : Prop where
  quorumSize : poll.polling.pollster.quorumSize = config.quorumSize
  card : poll.polling.pollster.peersToPoll.card = config.queryCount
  peers : ∀ p ∈ poll.polling.pollster.peersToPoll, p ∈ validators
  answers : poll.Answers (Backed faulty past poll.polling.pollster.vhash)

/-- Some poll of the node on the vertex has reported the preference. -/
def Reported (net : Network H P) (n : P) (v : H) (b : Bool) : Prop :=
  ∃ (i : Nat) (poll : Poll H P), net.polls[i]? = some poll ∧ poll.owner = n ∧
    poll.polling.pollster.vhash = v ∧ poll.polling.phase = .reported b

omit [DecidableEq P] in
theorem Reported.goesOn (h : Reported net n v b) (hg : net.GoesOn hash genesis net') :
    Reported net' n v b := by
  obtain ⟨i, poll, hi, howner, hvhash, hb⟩ := h
  obtain ⟨poll', hi', hp⟩ := hg.poll i poll hi
  exact ⟨i, poll', hi', hp.owner.trans howner, by rw [hp.pollster, hvhash], hp.verdict b hb⟩

/-- What holds in every state of a network with the given past. -/
structure Valid (faulty : HashSet P) (config : P → Task.Config)
    (past : List (Network H P × Event H P)) (net : Network H P) : Prop where
  fits : ∀ (i : Nat) (poll : Poll H P), net.polls[i]? = some poll →
    Fits faulty past (config poll.owner) (net.nodes poll.owner).task.validators.values poll
  polled : ∀ (i : Nat) (poll : Poll H P), net.polls[i]? = some poll →
    poll.polling.pollster.vhash ∈ (net.nodes poll.owner).task.dag.graph
  asked : ∀ n v i, .getPreference v (some i) ∈ (net.nodes n).actions →
    ∃ poll, net.polls[i]? = some poll ∧ poll.polling.pollster.vhash = v
  verdicts : ∀ n v b, .recordPeerPreference v b ∈ (net.nodes n).actions → net.Reported n v b
  chits : ∀ n v, chitOf (net.nodes n).task.dag.state (.unity v) = some true → net.Reported n v true

theorem Fits.started {action : Action H P (Option Nat)} {task' : Task H P}
    {effects : List (Effect H P (Option Nat))} {pollster : Pollster H P}
    (hr : (system hash faulty config genesis).Reachable net)
    (hw : net.Works hash n action task' effects) (hp : .startPollster pollster ∈ effects) :
    Fits faulty past (config n) task'.validators.values (Poll.start n pollster) := by
  obtain ⟨_, it, rng, hp'⟩ := hw
  obtain ⟨hq, hcard, hpeers, _⟩ := hp'.started (reachable_dag hr n) hp
  rw [config_eq hr n] at hq hcard
  exact ⟨hq, hcard, fun p hp => hp'.validators p (hpeers p hp), .start n pollster⟩

/-- Answers of handlers are backed. -/
theorem Valid.backed_of_responds {response : P2p.Response H} (hv : Valid faulty config past net)
    (hr : (system hash faulty config genesis).Reachable net) (hi : net.polls[i]? = some poll)
    (h : net.Responds hash p i response) :
    Backed faulty ((net, event) :: past) poll.polling.pollster.vhash p response.toAnswer := by
  rcases h with rfl | ⟨action, task', effects, preference, ⟨hact, it, rng, hp⟩, hs, rfl⟩
  · exact Or.inr ⟨Or.inr rfl, fun h => by cases h⟩
  obtain ⟨vhash, rfl, hpref⟩ := hp.preferred (sound hr p) hs
  -- the consensus task was asked for the vertex of this poll
  obtain ⟨poll', hi', hvhash⟩ := hv.asked p vhash i hact
  cases hi.symm.trans hi'
  cases preference with
  | none => exact Or.inr ⟨Or.inr rfl, fun h => by cases h⟩
  | some preference =>
    obtain ⟨pref, final⟩ := preference
    refine Or.inr ⟨Response.isAnswer_preference pref, fun h => ?_⟩
    have hpt : pref = true := h
    subst hpt
    obtain ⟨hin, hsp⟩ := hpref.mp ⟨final, rfl⟩
    exact ⟨(net, event), List.mem_cons_self, hvhash ▸ hin, hvhash ▸ hsp⟩

/-- What a step does to a poll keeps what is known of it. -/
theorem Valid.fits_step (hv : Valid faulty config past net)
    (hr : (system hash faulty config genesis).Reachable net) (hi : net.polls[i]? = some poll)
    (hp : PollStep hash faulty net net' i poll poll') (hg : net.GoesOn hash genesis net') :
    Fits faulty ((net, event) :: past) (config poll'.owner)
      (net'.nodes poll'.owner).task.validators.values poll' := by
  have hf := hv.fits i poll hi
  have hgo := Poll.GoesOn.of_step hp
  have hanswers : poll'.Answers
      (Backed faulty ((net, event) :: past) poll.polling.pollster.vhash) := by
    refine hf.answers.step (fun _ _ h => h.cons _) hp fun a ha hnew => ?_
    cases hp with
    | same | asked | turned => exact absurd ha hnew
    | delivered => exact absurd (List.mem_of_mem_erase ha) hnew
    | answered hresp =>
      rw [List.mem_singleton.mp ((List.mem_append.mp ha).resolve_left hnew)]
      exact hv.backed_of_responds hr hi hresp
    | forged hfaulty =>
      rw [List.mem_singleton.mp ((List.mem_append.mp ha).resolve_left hnew)]
      exact Or.inl hfaulty
  rw [hgo.owner]
  refine ⟨by rw [hgo.pollster, hf.quorumSize], by rw [hgo.pollster, hf.card], ?_, ?_⟩
  · rw [hgo.pollster]
    exact fun p hp => (hg.node poll.owner).validators p (hf.peers p hp)
  · rwa [hgo.pollster]

theorem Valid.step (hv : Valid faulty config past net)
    (hr : (system hash faulty config genesis).Reachable net) (hs : Steps hash faulty net net') :
    Valid faulty config ((net, event) :: past) net' := by
  have hg : net.GoesOn hash genesis net' := .of_steps hs
  refine ⟨fun i poll' hi' => ?_, fun i poll' hi' => ?_, fun n v i ha => ?_, fun n v b ha => ?_,
    fun n v hc => ?_⟩
  · rcases hs.poll_cases hi' with ⟨poll, hi, hp⟩ | ⟨m, action, effects, pollster, hw, hp, rfl⟩
    · exact hv.fits_step hr hi hp hg
    · exact .started hr hw hp
  · rcases hs.poll_cases hi' with ⟨poll, hi, hp⟩ | ⟨m, action, effects, pollster, hw, hp, rfl⟩
    · have hgo := Poll.GoesOn.of_step hp
      rw [hgo.owner, hgo.pollster]
      exact (grows hr hg poll.owner).inserted.mem (hv.polled i poll hi)
    · obtain ⟨_, it, rng, hp'⟩ := hw
      -- a poll is started for a vertex of the frontier
      exact (hp'.started (reachable_dag hr m) hp).2.2.2.1.1
  · rcases hs.queued n _ ha with ha | hcall | ⟨j, poll, hj, he | ⟨_, b, _, he⟩⟩
    · obtain ⟨poll, hi, hvhash⟩ := hv.asked n v i ha
      obtain ⟨poll', hi', hgo⟩ := hg.poll i poll hi
      exact ⟨poll', hi', by rw [hgo.pollster, hvhash]⟩
    · cases hcall
    · cases he
      exact ⟨poll, hj, rfl⟩
    · cases he
  · rcases hs.queued n _ ha with ha | hcall | ⟨j, poll, hj, he | ⟨howner, b', hb, he⟩⟩
    · exact (hv.verdicts n v b ha).goesOn hg
    · exact hcall.elim
    · cases he
    · cases he
      exact ⟨j, poll, hj, howner, rfl, hb⟩
  · rcases hs.task n with heq | ⟨action, effects, hact, it, rng, hp⟩
    · exact (hv.chits n v (heq ▸ hc)).goesOn hg
    -- a new chit comes from a positive result in the queue, and this one from a poll
    · rcases hp.chit (sound hr n) hc with hc | rfl
      · exact (hv.chits n v hc).goesOn hg
      · exact (hv.verdicts n v true hact).goesOn hg

theorem Valid.start (hinit : (system hash faulty config genesis).init net) :
    Valid faulty config [] net := by
  obtain ⟨hg, hpolls, hnodes⟩ := hinit
  have hnone (i : Nat) : net.polls[i]? = none := by rw [hpolls, List.getElem?_nil]
  have hidle (n : P) (action : Action H P (Option Nat)) : action ∉ (net.nodes n).actions := by
    obtain ⟨it, _, hact, _⟩ := hnodes n
    rw [hact]
    exact List.not_mem_nil
  refine ⟨fun i poll hi => ?_, fun i poll hi => ?_, fun n v i ha => (hidle n _ ha).elim,
    fun n v b ha => (hidle n _ ha).elim, fun n v hc => ?_⟩
  · cases (hnone i).symm.trans hi
  · cases (hnone i).symm.trans hi
  · obtain ⟨it, hnew, _⟩ := hnodes n
    have hrun : (DAG.system hash (config n).dag genesis).Run [] (net.nodes n).task.dag :=
      .init ⟨hg, it, (Task.new_eq_ok hnew).1⟩
    -- a chit goes back to a result, and none has been recorded
    obtain ⟨w, ⟨s, hs, _⟩, _⟩ := (Chitted.of_run hrun _).mp hc
    cases hs

theorem Valid.of_run (hrun : (system hash faulty config genesis).Run past net) :
    Valid faulty config past net := by
  induction hrun with
  | init hinit => exact .start hinit
  | step hr hs ih => exact ih.step hr.reachable (steps_of_step hs)

/-- Peers as many as the quorum asks for, each of them faulty or a holder of the vertex that has
strongly preferred it. -/
def Endorsed (faulty : HashSet P) (past : List (Network H P × Event H P)) (net : Network H P) (n : P)
    (v : H) : Prop :=
  ∃ peers : Finset P, (net.nodes n).task.config.quorumSize ≤ peers.card ∧
    ∀ p ∈ peers, p ∈ (net.nodes n).task.validators.values ∧
      (p ∈ faulty ∨ v ∈ (net.nodes p).task.dag.graph ∧ Vouched past p v)

/-- A vertex that was held in the past is still held. -/
theorem mem_of_vouched (hrun : (system hash faulty config genesis).Run past net)
    (h : Vouched past p v) : v ∈ (net.nodes p).task.dag.graph := by
  obtain ⟨s, hs, hin, _⟩ := h
  obtain ⟨hreach, hl⟩ := hrun.leads_of_mem hs
  exact (grows hreach (.of_leads hl) p).inserted.mem hin

/-- A positive report rests on a quorum of distinct peers. -/
theorem endorsed_of_reported (hrun : (system hash faulty config genesis).Run past net)
    (h : net.Reported n v true) : Endorsed faulty past net n v := by
  obtain ⟨i, poll, hi, rfl, rfl, hb⟩ := h
  have hf := (Valid.of_run hrun).fits i poll hi
  obtain ⟨arrivals, hheard, hback⟩ := hf.answers.heard
  have hquorum : (config poll.owner).quorumSize ≤ Pollster.forCount (arrivals.map Prod.snd) :=
    hf.quorumSize ▸ Pollster.quorum_of_run (hheard.run_eq hb)
  obtain ⟨peers, hcard, hpeers⟩ := hheard.exists_peers Response.isFor
  refine ⟨peers, ?_, fun p hp => ?_⟩
  · rw [config_eq hrun.reachable, hcard]
    exact hquorum
  · obtain ⟨hpolled, a, ha, rfl, hfor⟩ := hpeers p hp
    refine ⟨hf.peers a.1 hpolled, (hback a ha).imp_right fun h => ?_⟩
    have hvouched := h.2 hfor
    exact ⟨mem_of_vouched hrun hvouched, hvouched⟩

end Network

end Taurus
