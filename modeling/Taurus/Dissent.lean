import Taurus.Completion
import Taurus.Standing

namespace Taurus

section

variable {H P : Type}

/-- A negative report rests on a quorum of answers against the vertex, and not on an empty one. -/
theorem Polling.Heard.quorum_against {polling : Polling H P} {arrivals : List (P × Response H)}
    (h : polling.Heard arrivals) (hb : polling.phase = .reported false) :
    0 < polling.pollster.quorumSize ∧
      polling.pollster.quorumSize ≤ Pollster.againstCount (arrivals.map Prod.snd) := by
  obtain ⟨hopen, hless⟩ := h.verdict false hb
  have hfor : polling.countFor < polling.pollster.quorumSize :=
    Nat.lt_of_not_le (of_decide_eq_false hless.symm)
  have hagainst : polling.pollster.quorumSize ≤ polling.countAgainst :=
    Nat.le_of_not_lt fun hlt => hopen ⟨hfor, hlt⟩
  obtain ⟨consumed, hc, htaken⟩ := h.taken
  have hcollect := htaken []
  rw [List.append_nil, Polling.outcome, hb] at hcollect
  refine ⟨Nat.zero_lt_of_lt hfor, ?_⟩
  calc
    _ ≤ polling.countAgainst := hagainst
    _ ≤ 0 + Pollster.againstCount consumed := (Pollster.collect_le hcollect).2
    _ ≤ Pollster.againstCount (arrivals.map Prod.snd) := by
      rw [hc, Pollster.againstCount, Pollster.againstCount, List.countP_append]
      omega

variable [LinearOrder H] [DecidableEq P] {hash : Vertex H → H} {faulty : HashSet P}
  {config : P → Task.Config} {genesis : Vertex H} {net net' : Network H P} {event : Network.Event H P}
  {past : List (Network H P × Network.Event H P)} {poll poll' : Poll H P} {n p : P} {v : H} {i : Nat}

omit [LinearOrder H] in
/-- Behind a negative report stand answers against the vertex, of as many peers as make a quorum. -/
theorem Poll.Answers.quorum_against {Q : P → Response H → Prop} (h : poll.Answers Q)
    (hb : poll.polling.phase = .reported false) : ∃ peers : Finset P, peers.Nonempty ∧
      poll.polling.pollster.quorumSize ≤ peers.card ∧ ∀ p ∈ peers,
        p ∈ poll.polling.pollster.peersToPoll ∧ ∃ response, Q p response ∧ response.isFor = false := by
  obtain ⟨arrivals, hheard, hQ⟩ := h.heard
  obtain ⟨hpos, hquorum⟩ := hheard.quorum_against hb
  obtain ⟨peers, hcard, hpeers⟩ := hheard.exists_peers Response.isAgainst
  have hle : poll.polling.pollster.quorumSize ≤ peers.card := hcard ▸ hquorum
  refine ⟨peers, Finset.card_pos.mp (hpos.trans_le hle), hle, fun p hp => ?_⟩
  obtain ⟨hpolled, a, ha, rfl, hagainst⟩ := hpeers p hp
  refine ⟨hpolled, a.2, hQ a ha, ?_⟩
  have hanswer : a.2.IsAnswer := Or.inr hagainst
  rwa [Response.isAgainst_eq_not_isFor hanswer, Bool.not_eq_true'] at hagainst

namespace Network

omit [LinearOrder H] [DecidableEq P] in
theorem answer_of_setPoll {polls : List (Poll H P)} {j : Nat} {old : Poll H P}
    {Q : Prop} {a : P × P2p.Response H} (hj : polls[j]? = some old)
    (hi : (polls.set j poll)[i]? = some poll') (hnew : a ∈ poll.answers → a ∈ old.answers ∨ Q)
    (ha : a ∈ poll'.answers) : (∃ old, polls[i]? = some old ∧ a ∈ old.answers) ∨ i = j ∧ Q := by
  by_cases hij : j = i
  · subst hij
    rw [List.getElem?_set_self (List.getElem?_eq_some_iff.mp hj).1] at hi
    cases hi
    exact (hnew ha).imp (fun h => ⟨old, hj, h⟩) fun h => ⟨rfl, h⟩
  · rw [List.getElem?_set_ne hij] at hi
    exact Or.inl ⟨poll', hi, ha⟩

omit [LinearOrder H] in
theorem answer_of_respond {j : Nat} {response : P2p.Response H} {a : P × P2p.Response H}
    (hi : (net.respond n j response).polls[i]? = some poll') (ha : a ∈ poll'.answers) :
    (∃ old, net.polls[i]? = some old ∧ a ∈ old.answers) ∨ i = j ∧ a = (n, response) := by
  cases hj : net.polls[j]? with
  | none =>
    rw [respond_eq_of_none hj] at hi
    exact Or.inl ⟨poll', hi, ha⟩
  | some poll =>
    rw [respond_eq hj] at hi
    exact answer_of_setPoll hj hi (fun h => (List.mem_append.mp h).imp_right List.mem_singleton.mp) ha

/-- The preference that the consensus task of a node sends goes to the poll that the handler of
the node serves. -/
theorem answer_of_effects {it : HashOrders H} {rng : Rng H} {action : Action H P (Option Nat)}
    {task task' : Task H P} {effects : List (Effect H P (Option Nat))} {a : P × P2p.Response H}
    (hp : Task.Performs hash it rng task action task' effects)
    (hi : (effects.foldl (perform n) net).polls[i]? = some poll') (ha : a ∈ poll'.answers) :
    (∃ old, net.polls[i]? = some old ∧ a ∈ old.answers) ∨ (net.nodes n).serving = some i ∧
      ∃ preference, .sendPreference (some i) preference ∈ effects ∧
        a = (n, Handler.respondPreference (ConsensusApi.getPreference (.ok preference))) := by
  have hsend (resultCh : Option Nat) (preference : Option (Bool × Bool))
      (heff : effects = [.sendPreference resultCh preference]) :
      (∃ old, net.polls[i]? = some old ∧ a ∈ old.answers) ∨ (net.nodes n).serving = some i ∧
        ∃ preference, .sendPreference (some i) preference ∈ effects ∧
          a = (n, Handler.respondPreference (ConsensusApi.getPreference (.ok preference))) := by
    rw [heff, List.foldl_cons, List.foldl_nil] at hi
    cases resultCh with
    | none => exact Or.inl ⟨poll', hi, ha⟩
    | some j =>
      rw [perform] at hi
      split at hi
      · next hs =>
        refine (answer_of_respond hi ha).imp_right ?_
        rintro ⟨rfl, he⟩
        exact ⟨hs, preference, heff ▸ List.mem_cons_self, he⟩
      · exact Or.inl ⟨poll', hi, ha⟩
  cases hp with
  | added | frontier | vertex | recorded | dropped | refused => exact Or.inl ⟨poll', hi, ha⟩
  | preference | unknown => exact hsend _ _ rfl
  | inserted =>
    rw [List.foldl_append, foldl_startPollster] at hi
    have hi : (net.polls ++ _)[i]? = some poll' := hi
    -- a new poll has no answers yet
    by_cases hlt : i < net.polls.length
    · rw [List.getElem?_append_left hlt] at hi
      exact Or.inl ⟨poll', hi, ha⟩
    · rw [List.getElem?_append_right (Nat.le_of_not_lt hlt)] at hi
      obtain ⟨pollster, _, rfl⟩ := List.mem_map.mp (List.mem_of_getElem? hi)
      cases ha

/-- Where a new answer to a poll comes from: a faulty peer has forged it, or the handler of the
peer, while it served the poll, gave up or passed on what its consensus task says. -/
theorem answer_of_step {a : P × P2p.Response H} (hs : step hash faulty net event = some net')
    (hi : net'.polls[i]? = some poll') (ha : a ∈ poll'.answers) :
    (∃ old, net.polls[i]? = some old ∧ a ∈ old.answers) ∨ a.1 ∈ faulty ∨
      (net.nodes a.1).serving = some i ∧ (event = .timeout a.1 ∨
        ∃ action task' effects preference, net.Works hash a.1 action task' effects ∧
          .sendPreference (some i) preference ∈ effects ∧
          a.2 = Handler.respondPreference (ConsensusApi.getPreference (.ok preference))) := by
  cases moves_of_step hs with
  | call => exact Or.inl ⟨poll', hi, ha⟩
  | @handle n it rng action actions task' effects hact hp =>
    -- of all that the consensus task does, only a preference becomes an answer
    refine (answer_of_effects hp hi ha).imp_right fun h => Or.inr ?_
    obtain ⟨hserving, preference, heff, rfl⟩ := h
    rw [setNode_nodes_self] at hserving
    refine ⟨hserving, Or.inr ⟨action, task', effects, preference, ?_, heff, rfl⟩⟩
    exact ⟨hact ▸ List.mem_cons_self, it, rng, hp⟩
  | timeout hserving =>
    refine (answer_of_respond hi ha).imp_right ?_
    rintro ⟨rfl, rfl⟩
    exact Or.inr ⟨hserving, Or.inl rfl⟩
  | ask hj => exact (answer_of_setPoll hj hi (fun h => Or.inl h) ha).imp_right fun h => h.2
  | @forge j peer response poll hj hfaulty =>
    have hnew (h : a ∈ poll.answers ++ [(peer, response)]) : a ∈ poll.answers ∨ a.1 ∈ faulty := by
      refine (List.mem_append.mp h).imp_right fun h => ?_
      rw [List.mem_singleton.mp h]
      exact hfaulty
    exact (answer_of_setPoll hj hi hnew ha).imp_right fun h => Or.inl h.2
  | deliver hj =>
    exact (answer_of_setPoll hj hi (fun h => Or.inl (List.mem_of_mem_erase h)) ha).imp_right
      fun h => h.2
  | turn hj | report hj =>
    exact (answer_of_setPoll hj hi (fun h => Or.inl h) ha).imp_right fun h => h.2

/-- A new answer of a peer that is not faulty is positive exactly if the peer strongly prefers the
vertex, unless its handler gave up. -/
theorem new_answer {a : P × P2p.Response H} (hv : Valid faulty config past net)
    (hr : (system hash faulty config genesis).Reachable net)
    (hs : step hash faulty net event = some net') (hi : net.polls[i]? = some poll)
    (hi' : net'.polls[i]? = some poll') (ha : a ∈ poll'.answers) (hnew : a ∉ poll.answers) :
    a.1 ∈ faulty ∨ (net.nodes a.1).serving = some i ∧ (event = .timeout a.1 ∨
      (a.2.toAnswer.isFor = true ↔
        poll.polling.pollster.vhash ∈ (net.nodes a.1).task.dag.graph ∧
          (net.nodes a.1).task.dag.StronglyPreferred poll.polling.pollster.vhash)) := by
  rcases answer_of_step hs hi' ha with ⟨old, hold, hm⟩ | hf | ⟨hserving, h⟩
  · cases hi.symm.trans hold
    exact absurd hm hnew
  · exact Or.inl hf
  refine Or.inr ⟨hserving, h.imp_right ?_⟩
  rintro ⟨action, task', effects, preference, ⟨hact, it, rng, hp⟩, hsend, he⟩
  obtain ⟨vhash, rfl, hpref⟩ := hp.preferred (sound hr a.1) hsend
  obtain ⟨asking, hasking, hvhash⟩ := hv.asked a.1 vhash i hact
  cases hi.symm.trans hasking
  rw [hvhash, he, ← hpref]
  cases preference with
  | none => exact iff_of_false Bool.false_ne_true (by simp)
  | some preference =>
    obtain ⟨pref, final⟩ := preference
    constructor
    · intro hfor
      have hpt : pref = true := hfor
      exact ⟨final, by rw [hpt]⟩
    · rintro ⟨final', ⟨⟩⟩
      rfl

/-- While the peer was to answer the poll, its handler gave up, or it did not strongly prefer the
vertex. -/
def Dissented (past : List (Network H P × Event H P)) (i : Nat) (p : P) (v : H) : Prop :=
  ∃ s ∈ past, (s.1.nodes p).serving = some i ∧ (s.2 = .timeout p ∨
    ¬ (v ∈ (s.1.nodes p).task.dag.graph ∧ (s.1.nodes p).task.dag.StronglyPreferred v))

/-- Is the answer for the vertex, or else from a peer that is faulty or has dissented? -/
def Explained (faulty : HashSet P) (past : List (Network H P × Event H P)) (i : Nat) (v : H) (p : P)
    (response : Response H) : Prop :=
  response.isFor = true ∨ p ∈ faulty ∨ Dissented past i p v

theorem explained_of_run (hrun : (system hash faulty config genesis).Run past net)
    (hi : net.polls[i]? = some poll) :
    poll.Answers (Explained faulty past i poll.polling.pollster.vhash) := by
  induction hrun generalizing poll with
  | init hinit =>
    rw [hinit.2.1] at hi
    cases hi
  | @step past net net' event hrun hs ih =>
    have hsteps := steps_of_step hs
    rcases hsteps.poll_cases hi with ⟨old, hold, hp⟩ | ⟨m, action, effects, pollster, _, _, rfl⟩
    -- a poll that has just been started has heard nothing
    swap
    · exact .start m pollster
    rw [(Poll.GoesOn.of_step hp).pollster]
    refine (ih hold).step (fun p response h => h.imp_right (Or.imp_right ?_)) hp fun a ha hnew => ?_
    · rintro ⟨s, hs, h⟩
      exact ⟨s, List.mem_cons_of_mem _ hs, h⟩
    · rcases new_answer (.of_run hrun) hrun.reachable hs hold hi ha hnew with
        hf | ⟨hserving, htime | hiff⟩
      · exact Or.inr (Or.inl hf)
      · exact Or.inr (Or.inr ⟨(net, event), List.mem_cons_self, hserving, Or.inl htime⟩)
      · by_cases hfor : a.2.toAnswer.isFor = true
        · exact Or.inl hfor
        · refine Or.inr (Or.inr ⟨(net, event), List.mem_cons_self, hserving, Or.inr ?_⟩)
          exact fun h => hfor (hiff.mpr h)

/-- A vertex whose result is recorded has got a chit, or some poll on it has reported against it. -/
theorem concluded (h : (system hash faulty config genesis).Reachable net)
    (hv : v ∈ (net.nodes n).task.dag.graph) (hne : v ≠ hash genesis)
    (hp : v ∉ (net.nodes n).task.dag.pendingQuery) :
    chitOf (net.nodes n).task.dag.state (.unity v) = some true ∨ net.Reported n v false := by
  induction h with
  | init hinit =>
    obtain ⟨it, hnew, _⟩ := hinit.2.2 n
    rw [DAG.eq_start_of_init ⟨hinit.1, it, (Task.new_eq_ok hnew).1⟩] at hv
    exact absurd (DAG.mem_start.mp hv) hne
  | @step net net' event hr _ hs ih =>
    have hsteps := steps_of_step hs
    have hg : net.GoesOn hash genesis net' := .of_steps hsteps
    have hold (hv : v ∈ (net.nodes n).task.dag.graph)
        (hp : v ∉ (net.nodes n).task.dag.pendingQuery) :
        chitOf (net'.nodes n).task.dag.state (.unity v) = some true ∨ net'.Reported n v false :=
      (ih hv hp).imp ((grows hr hg n).chits _) fun h => h.goesOn hg
    -- a graph concludes with a chit or with a negative result from the queue, which a poll has
    -- reported
    rcases hsteps.task n with heq | ⟨action, effects, hact, it, rng, hperf⟩
    · rw [heq] at hv hp
      exact hold hv hp
    · rcases hperf.concluded (sound hr n) hv hp with ⟨hv, hp⟩ | hc | rfl
      · exact hold hv hp
      · exact Or.inl hc
      · obtain ⟨past, hrun⟩ := hr.exists_run
        exact Or.inr (((Valid.of_run hrun).verdicts n v false hact).goesOn hg)

/-- Has the event nothing to do with a handler that gives up? -/
def Event.Timely (event : Event H P) : Prop := ∀ p, event ≠ .timeout p

instance : DecidablePred (Event.Timely (H := H) (P := P)) := fun event => by
  cases event with
  | timeout p => exact isFalse fun h => h p rfl
  | call | handle | ask | forge | deliver | turn => exact isTrue fun _ => by simp

/-- Polls that are started, or asked for the first time, when certain peers strongly prefer their
vertex get no negative answer of these peers in time. -/
theorem answers_of_leads (h : (system hash faulty config genesis).Reachable net)
    (hl : (system hash faulty config genesis).LeadsWhen (fun _ event => event.Timely) net net')
    (hfresh : ∀ (i : Nat) (poll : Poll H P), net.polls[i]? = some poll → poll.owner = n →
      poll.polling.pollster.vhash = v → poll = .start n poll.polling.pollster)
    (hi : net'.polls[i]? = some poll) (howner : poll.owner = n)
    (hvhash : poll.polling.pollster.vhash = v) :
    poll.Answers fun p response => p ∉ faulty → v ∈ (net.nodes p).task.dag.graph →
      (net.nodes p).task.dag.StronglyPreferred v → response.isFor = true := by
  induction hl generalizing poll with
  | refl =>
    rw [hfresh i poll hi howner hvhash]
    exact .start n _
  | @step t t' event hl htimely hs ih =>
    have hl' : (system hash faulty config genesis).LeadsWhen (fun _ _ => True) net t :=
      hl.mono fun _ _ _ => trivial
    have hr := h.leads hl'
    have hsteps := steps_of_step hs
    rcases hsteps.poll_cases hi with ⟨old, hold, hp⟩ | ⟨m, action, effects, pollster, _, _, rfl⟩
    -- a poll that has just been started has heard nothing
    swap
    · exact .start m pollster
    have hgo := Poll.GoesOn.of_step hp
    rw [hgo.owner] at howner
    rw [hgo.pollster] at hvhash
    refine (ih hold howner hvhash).step (fun _ _ h => h) hp fun a ha hnew hf hv hsp => ?_
    obtain ⟨past, hrun⟩ := hr.exists_run
    rcases new_answer (.of_run hrun) hr hs hold hi ha hnew with hf' | ⟨_, htime | hiff⟩
    · exact absurd hf' hf
    · exact absurd htime (htimely a.1)
    · -- a peer that strongly prefers the vertex goes on to do so
      have hv' := (keeps_of_leads h hl' a.1).within.mem hv
      exact hiff.mpr (hvhash.symm ▸ ⟨hv', (stronglyPreferred_fixed h hl' hv).mpr hsp⟩)

theorem quorumSize_le (h : (system hash faulty config genesis).Reachable net) (n : P) :
    (config n).quorumSize ≤ (config n).queryCount := by
  induction h with
  | init hinit =>
    obtain ⟨it, hnew, _⟩ := hinit.2.2 n
    refine (Task.Config.check_eq_ok _).mp ?_
    unfold Task.new at hnew
    cases hc : (config n).check with
    | ok => rfl
    | error e => simp [hc] at hnew
  | step _ _ _ ih => exact ih

end Network

/-- The losing side of a fork is never polled: a vertex that a node holds without strongly preferring
it stays pending there, without a chit and without a poll, and the node never comes to prefer it. -/
theorem unpreferred_never_polled (h : (Network.system hash faulty config genesis).Reachable net)
    (hl : (Network.system hash faulty config genesis).LeadsWhen (fun _ _ => True) net net')
    {it : HashOrders H} {final : Bool}
    (hq : (net.nodes n).task.dag.query hash it v = .ok (false, final)) :
    v ∈ (net'.nodes n).task.dag.pendingQuery ∧
      chitOf (net'.nodes n).task.dag.state (.unity v) ≠ some true ∧
      (∀ (i : Nat) (poll : Poll H P), net'.polls[i]? = some poll → poll.owner = n →
        poll.polling.pollster.vhash ≠ v) ∧
      ∀ it', ∃ final', (net'.nodes n).task.dag.query hash it' v = .ok (false, final') := by
  have h' := h.leads hl
  obtain ⟨past, hrun⟩ := h'.exists_run
  have hv : v ∈ (net.nodes n).task.dag.graph := by
    by_contra hn
    rcases query_outside hash it hn with he | he <;> cases hq.symm.trans he
  have hv' := (Network.keeps_of_leads h hl n).within.mem hv
  have hnot : ¬ (net'.nodes n).task.dag.StronglyPreferred v := by
    obtain ⟨b, hb, hiff⟩ := query_spec it (Network.sound h n) hv
    cases hq.symm.trans hb
    rw [Network.stronglyPreferred_fixed h hl hv, ← hiff]
    exact Bool.false_ne_true
  -- a poll is on a vertex that its owner stands by
  have hunpolled (i : Nat) (poll : Poll H P) (hi : net'.polls[i]? = some poll)
      (howner : poll.owner = n) : poll.polling.pollster.vhash ≠ v := by
    rintro rfl
    have hstands := (Network.loyal_of_reachable h').poll i poll hi
    rw [howner] at hstands
    exact hnot ((Network.stronglyPreferred_iff h' hv').mpr hstands.1.1)
  have hunreported (b : Bool) : ¬ net'.Reported n v b := by
    rintro ⟨i, poll, hi, howner, hvhash, _⟩
    exact hunpolled i poll hi howner hvhash
  have hchit : chitOf (net'.nodes n).task.dag.state (.unity v) ≠ some true :=
    fun hc => hunreported true ((Network.Valid.of_run hrun).chits n v hc)
  refine ⟨?_, hchit, hunpolled, fun it' => ?_⟩
  · by_contra hp
    refine (Network.concluded h' hv' ?_ hp).elim hchit (hunreported false)
    rintro rfl
    exact hnot (Or.inl (Network.sound h' n).genesis_accepted)
  · obtain ⟨b, hb, hiff⟩ := query_spec it' (Network.sound h' n) hv'
    cases b with
    | false => exact ⟨_, hb⟩
    | true => exact absurd (hiff.mp rfl) hnot

/-- A vertex is refused its chit for a reason only: on some poll of it, at least a quorum of distinct
peers were faulty, or did not strongly prefer the vertex while they were to answer, or kept their
handler waiting for too long. -/
theorem refusal_explained (hrun : (Network.system hash faulty config genesis).Run past net)
    (hv : v ∈ (net.nodes n).task.dag.graph) (hne : v ≠ hash genesis)
    (hrecorded : v ∉ (net.nodes n).task.dag.pendingQuery)
    (hno : chitOf (net.nodes n).task.dag.state (.unity v) ≠ some true) :
    ∃ (i : Nat) (poll : Poll H P), net.polls[i]? = some poll ∧ poll.owner = n ∧
      poll.polling.pollster.vhash = v ∧ ∃ peers : Finset P, peers.Nonempty ∧
        (config n).quorumSize ≤ peers.card ∧ ∀ p ∈ peers,
          p ∈ (net.nodes n).task.validators.values ∧
            p ∈ poll.polling.pollster.peersToPoll ∧ (p ∈ faulty ∨ Network.Dissented past i p v) := by
  obtain ⟨i, poll, hi, rfl, rfl, hb⟩ :=
    (Network.concluded hrun.reachable hv hne hrecorded).resolve_left hno
  have hf := (Network.Valid.of_run hrun).fits i poll hi
  obtain ⟨peers, hnonempty, hcard, hpeers⟩ := (Network.explained_of_run hrun hi).quorum_against hb
  refine ⟨i, poll, hi, rfl, rfl, peers, hnonempty, hf.quorumSize ▸ hcard, fun p hp => ?_⟩
  obtain ⟨hpolled, response, hexp, hfor⟩ := hpeers p hp
  refine ⟨hf.peers p hpolled, hpolled, hexp.resolve_left ?_⟩
  rw [hfor]
  exact Bool.false_ne_true

/-- Polls succeed: if no peer that is polled on a vertex is faulty, and all of them strongly prefer
the vertex before the first of them is asked, then the vertex has its chit when the network has come
to rest, provided that no handler gives up waiting. -/
theorem unanimous_polls_succeed (h : (Network.system hash faulty config genesis).Reachable net)
    (hl : (Network.system hash faulty config genesis).LeadsWhen (fun _ event => event.Timely) net net')
    (hquiet : net'.Quiet hash faulty) (hne : v ≠ hash genesis)
    (hfresh : ∀ (i : Nat) (poll : Poll H P), net.polls[i]? = some poll → poll.owner = n →
      poll.polling.pollster.vhash = v → poll = .start n poll.polling.pollster)
    (hpolled : ∃ (i : Nat) (poll : Poll H P), net'.polls[i]? = some poll ∧ poll.owner = n ∧
      poll.polling.pollster.vhash = v)
    (hpeers : ∀ (i : Nat) (poll : Poll H P), net'.polls[i]? = some poll → poll.owner = n →
      poll.polling.pollster.vhash = v → ∀ p ∈ poll.polling.pollster.peersToPoll, p ∉ faulty ∧
        ∃ it final, (net.nodes p).task.dag.query hash it v = .ok (true, final)) :
    chitOf (net'.nodes n).task.dag.state (.unity v) = some true := by
  have hl' : (Network.system hash faulty config genesis).LeadsWhen (fun _ _ => True) net net' :=
    hl.mono fun _ _ _ => trivial
  have h' := h.leads hl'
  obtain ⟨past, hrun⟩ := h'.exists_run
  -- all answers are positive
  have hfor (i : Nat) (poll : Poll H P) (hi : net'.polls[i]? = some poll) (howner : poll.owner = n)
      (hvhash : poll.polling.pollster.vhash = v) : poll.Answers fun p response =>
        p ∈ poll.polling.pollster.peersToPoll → response.isFor = true := by
    have hsame : Network.PollStep hash faulty net' net' i poll poll := .same
    refine (Network.answers_of_leads h hl hfresh hi howner hvhash).step (fun p response hr hp => ?_)
      hsame fun _ ha hnew => absurd ha hnew
    obtain ⟨hhonest, it, final, hq⟩ := hpeers i poll hi howner hvhash p hp
    obtain ⟨hv, hsp⟩ := stronglyPreferred_of_query (Network.sound h p) hq
    exact hr hhonest hv hsp
  -- so no poll on the vertex has a quorum against it
  have hnot : ¬ net'.Reported n v false := by
    rintro ⟨i, poll, hi, howner, hvhash, hb⟩
    obtain ⟨peers, ⟨p, hp⟩, _, hagainst⟩ := (hfor i poll hi howner hvhash).quorum_against hb
    obtain ⟨hpolled, response, hr, hf⟩ := hagainst p hp
    exact absurd (hr hpolled) (hf ▸ Bool.false_ne_true)
  obtain ⟨i, poll, hi, rfl, rfl⟩ := hpolled
  have hv := Network.Valid.of_run hrun
  have hf := hv.fits i poll hi
  obtain ⟨arrivals, hheard, hall⟩ := (hfor i poll hi rfl rfl).heard
  have hpositive : ∀ a ∈ arrivals, a.2.isFor = true := fun a ha =>
    hall a ha ((hheard.mem_peers a.1).mp (List.mem_map_of_mem ha)).1
  -- and the poll has reported, since a full round in favour is a quorum
  obtain ⟨b, hb⟩ : ∃ b, poll.polling.phase = .reported b := by
    refine (hheard.reported_or_split (fun a ha => Or.inl (hpositive a ha))
      (hquiet.outstanding hrun hi) (hquiet.turn hi)).resolve_right ?_
    rintro ⟨hless, _, hcard⟩
    have hcount : Pollster.forCount (arrivals.map Prod.snd) = arrivals.length := by
      rw [Pollster.forCount, List.countP_map, List.countP_eq_length]
      exact hpositive
    have := Network.quorumSize_le h poll.owner
    have := hf.quorumSize
    have := hf.card
    omega
  exact (Network.concluded h' (hv.polled i poll hi) hne (hquiet.recorded hrun hi hb)).resolve_right hnot

end

namespace Pair

/-- The vertex is not known to the node that is asked. -/
def denial : List (Network.Event Digest Bool) :=
  [.call false (.addValidator true), .handle false .ascending .ascending,
    .call false (.submitVertex Fork.a none), .handle false .ascending .ascending,
    .ask 0 true, .handle true .ascending .ascending, .deliver 0 true (.error .notFound),
    .turn 0, .turn 0, .handle false .ascending .ascending]

theorem refusal_explained_pair : ∃ (past : List (Network Digest Bool × Network.Event Digest Bool))
    (i : Nat), Network.Dissented past i true Fork.a.wire := by
  have hrun : ∃ past net, (Network.system Vertex.wire ∅ config Fork.root).Run past net ∧
      Fork.a.wire ∈ (net.nodes false).task.dag.graph ∧
      Fork.a.wire ∉ (net.nodes false).task.dag.pendingQuery ∧
      chitOf (net.nodes false).task.dag.state (.unity Fork.a.wire) ≠ some true ∧
      (net.nodes false).task.validators.values = [true] :=
    Network.exists_run rfl (fun _ => ⟨rfl, rfl⟩) denial (by decide +kernel)
  obtain ⟨past, net, hrun, hv, hrecorded, hno, hvalidators⟩ := hrun
  obtain ⟨i, poll, _, _, _, peers, ⟨p, hp⟩, _, hpeers⟩ :=
    refusal_explained hrun hv (by decide) hrecorded hno
  obtain ⟨hm, _, hreason⟩ := hpeers p hp
  rw [hvalidators, List.mem_singleton] at hm
  subst hm
  exact ⟨past, i, hreason.resolve_left (Finset.notMem_empty true)⟩

/-- The opposite order comes second, and only the first one is polled. -/
theorem unpreferred_never_polled_pair : ∃ net' : Network Digest Bool,
    Fork.ba.wire ∈ (net'.nodes false).task.dag.pendingQuery ∧
      chitOf (net'.nodes false).task.dag.state (.unity Fork.ab.wire) = some true := by
  have hrun : ∃ net net', (Network.system Vertex.wire ∅ config Fork.root).Reachable net ∧
      (Network.system Vertex.wire ∅ config Fork.root).LeadsWhen (fun _ _ => True) net net' ∧
      (net.nodes false).task.dag.query Vertex.wire .ascending Fork.ba.wire = .ok (false, false) ∧
      chitOf (net'.nodes false).task.dag.state (.unity Fork.ab.wire) = some true :=
    Network.exists_leads rfl (fun _ => ⟨rfl, rfl⟩) (ordering ++
      [.call false (.submitVertex Fork.ba none), .handle false .ascending .ascending])
        (vote ++ [.handle false .ascending .ascending]) (by decide +kernel)
  obtain ⟨_, net', hr, hl, hq, hchit⟩ := hrun
  exact ⟨net', (unpreferred_never_polled hr hl hq).1, hchit⟩

/-- The first node starts to poll when the second one holds the vertex. -/
theorem unanimous_polls_succeed_pair : ∃ net net' : Network Digest Bool,
    Fork.a.wire ∉ (net.nodes false).task.dag.graph ∧
      chitOf (net'.nodes false).task.dag.state (.unity Fork.a.wire) = some true := by
  have hrun : ∃ net net', (Network.system Vertex.wire ∅ config Fork.root).Reachable net ∧
      (Network.system Vertex.wire ∅ config Fork.root).LeadsWhen (fun _ event => event.Timely) net net' ∧
      (Fork.a.wire ∉ (net.nodes false).task.dag.graph ∧ net.polls = [] ∧
        (net.nodes true).task.dag.query Vertex.wire .ascending Fork.a.wire = .ok (true, false)) ∧
      (∀ n, (net'.nodes n).actions = [] ∧ (net'.nodes n).serving = none) ∧
      (∀ poll ∈ net'.polls, poll.questions = ∅ ∧ poll.answers = [] ∧ poll.polling.turn = none) ∧
      (∀ poll ∈ net'.polls, false ∉ poll.polling.pollster.peersToPoll) ∧
      ∃ poll ∈ net'.polls[0]?, poll.owner = false ∧ poll.polling.pollster.vhash = Fork.a.wire :=
    Network.exists_leads rfl (fun _ => ⟨rfl, rfl⟩) (events.take 4) (events.drop 4) (by decide +kernel)
  obtain ⟨net, net', hr, hl, ⟨hnew, hpolls, hq⟩, hnodes, hidle, hpeers, poll, hi, howner, hvhash⟩ :=
    hrun
  refine ⟨net, net', hnew, unanimous_polls_succeed hr hl (Network.quiet_of_idle hnodes hidle)
    (by decide) (fun i poll hi => ?_) ⟨0, poll, hi, howner, hvhash⟩ fun i poll hi _ _ p hp => ?_⟩
  · rw [hpolls] at hi
    cases hi
  · cases p with
    | false => exact absurd hp (hpeers poll (List.mem_of_getElem? hi))
    | true => exact ⟨Finset.notMem_empty true, .ascending, false, hq⟩

end Pair

end Taurus
