import Taurus.Persistence
import Taurus.Quorum

namespace Taurus

section

variable {H P : Type}

namespace Pollster

variable {q m n : Nat} {l : List (Response H)}

theorem collect_ne_panicked (hl : ∀ r ∈ l, r.IsAnswer) : collect q l m n ≠ .panicked := by
  induction l generalizing m n with
  | nil =>
    rw [collect]
    split <;> simp
  | cons r l ih =>
    by_cases hq : m < q ∧ n < q
    · rw [collect_cons (hl r List.mem_cons_self) hq]
      have hrest : ∀ r ∈ l, r.IsAnswer := fun r hr => hl r (List.mem_cons_of_mem _ hr)
      split <;> exact ih hrest
    · rw [collect_of_quorum hq]
      simp

theorem counts_cons {r : Response H} (hr : r.IsAnswer) :
    forCount (r :: l) = forCount l + r.isFor.toNat ∧
      againstCount (r :: l) = againstCount l + (!r.isFor).toNat := by
  rw [forCount, againstCount, List.countP_cons, List.countP_cons,
    Response.isAgainst_eq_not_isFor hr]
  cases r.isFor <;> exact ⟨rfl, rfl⟩

/-- A loop that still waits has seen a quorum on neither side. -/
theorem lt_of_collect_waiting (hl : ∀ r ∈ l, r.IsAnswer) (h : collect q l m n = .waiting) :
    m + forCount l < q ∧ n + againstCount l < q := by
  induction l generalizing m n with
  | nil =>
    rw [collect] at h
    split at h
    · next hq => exact hq
    · cases h
  | cons r l ih =>
    have hrest : ∀ r ∈ l, r.IsAnswer := fun r hr => hl r (List.mem_cons_of_mem _ hr)
    have hr : r.IsAnswer := hl r List.mem_cons_self
    by_cases hq : m < q ∧ n < q
    · rw [collect_cons hr hq] at h
      rw [(counts_cons hr).1, (counts_cons hr).2]
      cases hfor : r.isFor with
      | true =>
        rw [hfor, if_pos rfl] at h
        have := ih hrest h
        exact ⟨by simpa [Nat.add_right_comm, ← Nat.add_assoc] using this.1, this.2⟩
      | false =>
        rw [hfor, if_neg Bool.false_ne_true] at h
        have := ih hrest h
        exact ⟨this.1, by simpa [Nat.add_right_comm, ← Nat.add_assoc] using this.2⟩
    · rw [collect_of_quorum hq] at h
      cases h

theorem forCount_add_againstCount (hl : ∀ r ∈ l, r.IsAnswer) :
    forCount l + againstCount l = l.length := by
  induction l with
  | nil => rfl
  | cons r l ih =>
    have hrest := ih fun r hr => hl r (List.mem_cons_of_mem _ hr)
    have hcounts := counts_cons (l := l) (hl r List.mem_cons_self)
    rw [hcounts.1, hcounts.2, List.length_cons, ← hrest]
    cases r.isFor with
    | true => exact Nat.add_right_comm _ _ _
    | false => exact (Nat.add_assoc _ _ _).symm

end Pollster

namespace Polling

variable {polling polling' : Polling H P}

theorem turn_outstanding (h : polling.turn = some polling') :
    polling'.outstanding = polling.outstanding := by
  obtain ⟨_, ⟨response, responses, _, _, rfl⟩ | ⟨_, rfl⟩⟩ := turn_eq_some h
  · exact (count_frame _ response).2.1
  · rfl

/-- A pollster that takes no turn has ended, or waits for answers. -/
theorem turn_eq_none (h : polling.turn = none) :
    (∃ b, polling.phase = .reported b) ∨ polling.phase = .panicked ∨
      polling.phase = .collecting ∧ polling.Open ∧ polling.responses = [] := by
  unfold turn at h
  cases hph : polling.phase with
  | reported b => exact Or.inl ⟨b, rfl⟩
  | panicked => exact Or.inr (Or.inl rfl)
  | collecting =>
    simp only [hph] at h
    split at h
    · next hopen =>
      cases hr : polling.responses with
      | nil => exact Or.inr (Or.inr ⟨rfl, hopen, rfl⟩)
      | cons response responses => simp [hr] at h
    · cases h

/-- With an answer from every peer, a pollster that takes no turn has reported, unless neither side
has a quorum. -/
theorem Heard.reported_or_split {arrivals : List (P × Response H)} (h : polling.Heard arrivals)
    (hanswers : ∀ a ∈ arrivals, a.2.IsAnswer) (hall : polling.outstanding = ∅)
    (hstuck : polling.turn = none) : (∃ b, polling.phase = .reported b) ∨
      Pollster.forCount (arrivals.map Prod.snd) < polling.pollster.quorumSize ∧
        Pollster.againstCount (arrivals.map Prod.snd) < polling.pollster.quorumSize ∧
        arrivals.length = polling.pollster.peersToPoll.card := by
  classical
  obtain ⟨consumed, hc, htaken⟩ := h.taken
  have hl : ∀ r ∈ consumed, r.IsAnswer := by
    intro r hr
    obtain ⟨a, ha, rfl⟩ := List.mem_map.mp (hc ▸ List.mem_append_left _ hr)
    exact hanswers a ha
  have hcollect := htaken []
  rw [List.append_nil, outcome] at hcollect
  rcases turn_eq_none hstuck with hb | hph | ⟨hph, hopen, hempty⟩
  · exact Or.inl hb
  · rw [hph] at hcollect
    exact (Pollster.collect_ne_panicked hl hcollect).elim
  · have hq : polling.countFor < polling.pollster.quorumSize ∧
        polling.countAgainst < polling.pollster.quorumSize := hopen
    simp only [hph, Pollster.collect, if_pos hq] at hcollect
    have hlt := Pollster.lt_of_collect_waiting hl hcollect
    rw [Nat.zero_add, Nat.zero_add] at hlt
    rw [hempty, List.append_nil] at hc
    -- the counters stand for the answers of all peers
    have hpeers : (arrivals.map Prod.fst).toFinset = polling.pollster.peersToPoll := by
      ext p
      rw [List.mem_toFinset, h.mem_peers, hall]
      exact and_iff_left (Finset.notMem_empty p)
    refine Or.inr ⟨hc ▸ hlt.1, hc ▸ hlt.2, ?_⟩
    rw [← hpeers, List.toFinset_card_of_nodup h.peers, List.length_map]

/-- With an answer from every peer, a pollster that takes no turn has reported, if a majority of the
peers makes a quorum. -/
theorem Heard.reported {arrivals : List (P × Response H)} (h : polling.Heard arrivals)
    (hanswers : ∀ a ∈ arrivals, a.2.IsAnswer) (hall : polling.outstanding = ∅)
    (hmajority : 2 * polling.pollster.quorumSize ≤ polling.pollster.peersToPoll.card + 1)
    (hstuck : polling.turn = none) : ∃ b, polling.phase = .reported b := by
  refine (h.reported_or_split hanswers hall hstuck).resolve_right ?_
  rintro ⟨hfor, hagainst, hcard⟩
  have hsum := Pollster.forCount_add_againstCount (l := arrivals.map Prod.snd) fun r hr => by
    obtain ⟨a, ha, rfl⟩ := List.mem_map.mp hr
    exact hanswers a ha
  rw [List.length_map] at hsum
  omega

end Polling

variable [LinearOrder H] [DecidableEq P] {hash : Vertex H → H} {faulty : HashSet P}
  {config : P → Task.Config} {genesis : Vertex H} {net net' : Network H P}
  {past : List (Network H P × Network.Event H P)} {poll poll' : Poll H P} {n p : P} {v : H} {i : Nat}

namespace Network

/-- Where the answers are that a poll still waits for, and the results that are not recorded. -/
structure Accounted (net : Network H P) : Prop where
  outstanding : ∀ (i : Nat) (poll : Poll H P), net.polls[i]? = some poll →
    ∀ p ∈ poll.polling.outstanding, p ∈ poll.questions ∨ (net.nodes p).serving = some i ∨
      ∃ response, (p, response) ∈ poll.answers
  settled : ∀ (i : Nat) (poll : Poll H P) (b : Bool), net.polls[i]? = some poll →
    poll.polling.phase = .reported b →
      .recordPeerPreference poll.polling.pollster.vhash b ∈ (net.nodes poll.owner).actions ∨
        poll.polling.pollster.vhash ∉ (net.nodes poll.owner).task.dag.pendingQuery

theorem Accounted.outstanding_step (ha : net.Accounted) (hs : Steps hash faulty net net')
    (hi : net.polls[i]? = some poll) (hi' : net'.polls[i]? = some poll')
    (hp : PollStep hash faulty net net' i poll poll') (hout : p ∈ poll'.polling.outstanding) :
    p ∈ poll'.questions ∨ (net'.nodes p).serving = some i ∨
      ∃ response, (p, response) ∈ poll'.answers := by
  -- a handler that goes on is still busy with the poll, or has answered it
  have hserving (h : (net.nodes p).serving = some i) : (net'.nodes p).serving = some i ∨
      ∃ response, (p, response) ∈ poll'.answers := by
    refine (hs.serving p i poll h hi).imp_right ?_
    rintro ⟨poll'', response, hi'', hr⟩
    cases hi'.symm.trans hi''
    exact ⟨response, hr⟩
  have hold (hout : p ∈ poll.polling.outstanding) (hq : p ∈ poll.questions → p ∈ poll'.questions ∨
      (net'.nodes p).serving = some i ∨ ∃ response, (p, response) ∈ poll'.answers)
      (hans : ∀ response, (p, response) ∈ poll.answers → (p, response) ∈ poll'.answers) :
      p ∈ poll'.questions ∨ (net'.nodes p).serving = some i ∨
        ∃ response, (p, response) ∈ poll'.answers := by
    rcases ha.outstanding i poll hi p hout with h | h | ⟨response, h⟩
    · exact hq h
    · exact Or.inr (hserving h)
    · exact Or.inr (Or.inr ⟨response, hans response h⟩)
  cases hp with
  | same => exact hold hout Or.inl fun _ h => h
  | @asked peer hserves =>
    refine hold hout (fun hq => ?_) fun _ h => h
    by_cases hpp : p = peer
    · rw [hpp]
      exact Or.inr (Or.inl hserves)
    · exact Or.inl (Finset.mem_erase.mpr ⟨hpp, hq⟩)
  | answered => exact hold hout Or.inl fun _ h => List.mem_append_left _ h
  | @forged peer response =>
    refine hold hout (fun hq => ?_) fun _ h => List.mem_append_left _ h
    by_cases hpp : p = peer
    · rw [hpp]
      exact Or.inr (Or.inr ⟨response, List.mem_append_right _ List.mem_cons_self⟩)
    · exact Or.inl (Finset.mem_erase.mpr ⟨hpp, hq⟩)
  | @delivered peer response =>
    have hpeer : p ≠ peer ∧ p ∈ poll.polling.outstanding := by
      simp only [Polling.deliver] at hout
      split at hout
      · exact Finset.mem_erase.mp hout
      · next hn =>
        refine ⟨?_, hout⟩
        rintro rfl
        exact hn hout
    refine hold hpeer.2 Or.inl fun response' h => ?_
    refine (List.mem_erase_of_ne ?_).mpr h
    rintro ⟨⟩
    exact hpeer.1 rfl
  | turned ht _ =>
    have hsame : p ∈ poll.polling.outstanding := by
      rwa [← Polling.turn_outstanding ht]
    exact hold hsame Or.inl fun _ h => h

theorem Accounted.settled_step (ha : net.Accounted) (hv : Valid faulty config past net)
    (hr : (system hash faulty config genesis).Reachable net) (hs : Steps hash faulty net net')
    (hi : net.polls[i]? = some poll) (hp : PollStep hash faulty net net' i poll poll') {b : Bool}
    (hb : poll'.polling.phase = .reported b) :
    .recordPeerPreference poll'.polling.pollster.vhash b ∈ (net'.nodes poll'.owner).actions ∨
      poll'.polling.pollster.vhash ∉ (net'.nodes poll'.owner).task.dag.pendingQuery := by
  have hgrows := grows hr (.of_steps hs) poll.owner
  have hold (hb : poll.polling.phase = .reported b) :
      .recordPeerPreference poll.polling.pollster.vhash b ∈ (net'.nodes poll.owner).actions ∨
        poll.polling.pollster.vhash ∉ (net'.nodes poll.owner).task.dag.pendingQuery := by
    -- the result leaves the queue when it is recorded, and not before
    rcases ha.settled i poll b hi hb with hact | hn
    · refine (hs.kept poll.owner _ hact).imp_right ?_
      rintro ⟨effects, _, it, rng, hperf⟩
      exact hperf.not_pending rfl
    · exact Or.inr (hgrows.recorded _ (hv.polled i poll hi) hn)
  have hgo := Poll.GoesOn.of_step hp
  rw [hgo.owner, hgo.pollster]
  cases hp with
  | same | asked | answered | forged => exact hold hb
  | delivered => exact hold ((Polling.deliver_frame _ _ _).2.symm.trans hb)
  | turned ht hact =>
    have hq := hact b hb
    rw [Polling.turn_pollster ht] at hq
    exact Or.inl hq

theorem Accounted.step (ha : net.Accounted) (hv : Valid faulty config past net)
    (hr : (system hash faulty config genesis).Reachable net) (hs : Steps hash faulty net net') :
    net'.Accounted := by
  refine ⟨fun i poll' hi' p hout => ?_, fun i poll' b hi' hb => ?_⟩
  · rcases hs.poll_cases hi' with ⟨poll, hi, hp⟩ | ⟨m, action, effects, pollster, _, _, rfl⟩
    · exact ha.outstanding_step hs hi hi' hp hout
    · exact Or.inl hout
  · rcases hs.poll_cases hi' with ⟨poll, hi, hp⟩ | ⟨m, action, effects, pollster, _, _, rfl⟩
    · exact ha.settled_step hv hr hs hi hp hb
    · cases hb

theorem Accounted.of_run (hrun : (system hash faulty config genesis).Run past net) :
    net.Accounted := by
  induction hrun with
  | init hinit =>
    have hnone (i : Nat) : _ := congrArg (fun polls => polls[i]?) hinit.2.1
    simp only [List.getElem?_nil] at hnone
    refine ⟨fun i poll hi => ?_, fun i poll b hi => ?_⟩
    · cases (hnone i).symm.trans hi
    · cases (hnone i).symm.trans hi
  | step hr hs ih => exact ih.step (.of_run hr) hr.reachable (steps_of_step hs)

/-- Nothing can happen but new calls. -/
def Quiet (hash : Vertex H → H) (faulty : HashSet P) (net : Network H P) : Prop :=
  ∀ event : Event H P, event.Internal → step hash faulty net event = none

namespace Quiet

variable (hq : net.Quiet hash faulty)
include hq

theorem serving (n : P) : (net.nodes n).serving = none := by
  cases hs : (net.nodes n).serving with
  | none => rfl
  | some i =>
    have := hq (.timeout n) fun _ _ => by simp
    simp [step, hs] at this

theorem questions (hi : net.polls[i]? = some poll) : poll.questions = ∅ := by
  refine Finset.eq_empty_of_forall_notMem fun peer hpeer => ?_
  have := hq (.ask i peer) fun _ _ => by simp
  simp [step, hi, hpeer, hq.serving peer] at this

theorem answers (hi : net.polls[i]? = some poll) : poll.answers = [] := by
  refine List.eq_nil_iff_forall_not_mem.mpr ?_
  rintro ⟨peer, response⟩ hmem
  have := hq (.deliver i peer response) fun _ _ => by simp
  simp [step, hi, hmem] at this

theorem turn (hi : net.polls[i]? = some poll) : poll.polling.turn = none := by
  cases ht : poll.polling.turn with
  | none => rfl
  | some polling =>
    have := hq (.turn i) fun _ _ => by simp
    simp only [step, hi, Option.bind_eq_bind, Option.bind_some, ht] at this
    split at this <;> cases this

/-- Tasks that are never at a loss leave no actions behind. -/
theorem actions (h : (system hash faulty config genesis).Reachable net) (n : P) :
    (net.nodes n).actions = [] := by
  cases hact : (net.nodes n).actions with
  | nil => rfl
  | cons action actions =>
    obtain ⟨task', effects, hhandle⟩ :=
      handle_total h (hact ▸ List.mem_cons_self) .ascending .ascending
    have := hq (.handle n .ascending .ascending) fun _ _ => by simp
    simp [step, hact, hhandle] at this

theorem outstanding (hrun : (system hash faulty config genesis).Run past net)
    (hi : net.polls[i]? = some poll) : poll.polling.outstanding = ∅ := by
  refine Finset.eq_empty_of_forall_notMem fun p hp => ?_
  rcases (Accounted.of_run hrun).outstanding i poll hi p hp with h | h | ⟨response, h⟩
  · rw [hq.questions hi] at h
    exact Finset.notMem_empty p h
  · cases (hq.serving p).symm.trans h
  · rw [hq.answers hi] at h
    cases h

/-- What has been reported is recorded. -/
theorem recorded {b : Bool} (hrun : (system hash faulty config genesis).Run past net)
    (hi : net.polls[i]? = some poll) (hb : poll.polling.phase = .reported b) :
    poll.polling.pollster.vhash ∉ (net.nodes poll.owner).task.dag.pendingQuery := by
  refine ((Accounted.of_run hrun).settled i poll b hi hb).resolve_left fun hact => ?_
  rw [hq.actions hrun.reachable] at hact
  cases hact

end Quiet

/-- Nodes without work and polls without traffic make a quiet network. -/
theorem quiet_of_idle (hnodes : ∀ n, (net.nodes n).actions = [] ∧ (net.nodes n).serving = none)
    (hpolls : ∀ poll ∈ net.polls, poll.questions = ∅ ∧ poll.answers = [] ∧
      poll.polling.turn = none) : net.Quiet hash faulty := by
  intro event hcall
  cases event with
  | call n action => exact (hcall n action rfl).elim
  | handle n it rng => simp [step, (hnodes n).1]
  | timeout n => simp [step, (hnodes n).2]
  | ask i peer | forge i peer response | deliver i peer response | turn i =>
    cases hi : net.polls[i]? with
    | none => simp [step, hi]
    | some poll =>
      obtain ⟨hquestions, hanswers, hturn⟩ := hpolls poll (List.mem_of_getElem? hi)
      simp [step, hi, hquestions, hanswers, hturn]

/-- The vertex is pending at the node and has a child there, but no poll on it has been started. -/
structure Overtaken (net : Network H P) (n : P) (v : H) : Prop where
  pending : v ∈ (net.nodes n).task.dag.pendingQuery
  child : ∃ k, (net.nodes n).task.dag.graph.IsParent v k
  unpolled : ∀ (i : Nat) (poll : Poll H P), net.polls[i]? = some poll → poll.owner = n →
    poll.polling.pollster.vhash ≠ v

omit [DecidableEq P] in
theorem Overtaken.not_reported (h : net.Overtaken n v) (b : Bool) : ¬ net.Reported n v b := by
  rintro ⟨i, poll, hi, howner, hvhash, _⟩
  exact h.unpolled i poll hi howner hvhash

/-- Pollsters are started for childless vertices only, and results come from pollsters only. -/
theorem Overtaken.step (h : net.Overtaken n v) (hv : Valid faulty config past net)
    (hr : (system hash faulty config genesis).Reachable net) (hs : Steps hash faulty net net') :
    net'.Overtaken n v := by
  have hgrows := grows hr (.of_steps hs) n
  obtain ⟨k, vx, hk, hvk⟩ := h.child
  have hchild : (net'.nodes n).task.dag.graph.IsParent v k := ⟨vx, hgrows.inserted k vx hk, hvk⟩
  refine ⟨?_, ⟨k, hchild⟩, fun i poll' hi' howner => ?_⟩
  -- only a result ends the waiting, and no poll has reported one
  · rcases hs.task n with heq | ⟨action, effects, hact, it, rng, hp⟩
    · rw [heq]
      exact h.pending
    · refine hp.pending (sound hr n) h.pending fun b he => ?_
      exact h.not_reported b (hv.verdicts n v b (he ▸ hact))
  · rcases hs.poll_cases hi' with ⟨poll, hi, hp⟩ | ⟨m, action, effects, pollster, hw, hp, rfl⟩
    · have hgo := Poll.GoesOn.of_step hp
      rw [hgo.pollster]
      exact h.unpolled i poll hi (hgo.owner.symm.trans howner)
    · obtain ⟨_, it, rng, hperf⟩ := hw
      have hm : m = n := howner
      subst hm
      rintro rfl
      -- a new poll is on a childless vertex
      exact (hperf.started (reachable_dag hr m) hp).2.2.2.1.2 k hchild

end Network

/-- When nothing is left to happen, a poll of peers that are not faulty has reported, and its
result is recorded, if the quorum is a majority at most of the peers that are polled. -/
theorem polls_complete (hrun : (Network.system hash faulty config genesis).Run past net)
    (hquiet : net.Quiet hash faulty) (hi : net.polls[i]? = some poll)
    (hhonest : ∀ p ∈ poll.polling.pollster.peersToPoll, p ∉ faulty)
    (hmajority : 2 * (config poll.owner).quorumSize ≤ (config poll.owner).queryCount + 1) :
    (∃ b, poll.polling.phase = .reported b) ∧
      poll.polling.pollster.vhash ∈ (net.nodes poll.owner).task.dag.graph ∧
      poll.polling.pollster.vhash ∉ (net.nodes poll.owner).task.dag.pendingQuery := by
  have hv := Network.Valid.of_run hrun
  have hf := hv.fits i poll hi
  have hout := hquiet.outstanding hrun hi
  obtain ⟨arrivals, hheard, hback⟩ := hf.answers.heard
  have hanswers : ∀ a ∈ arrivals, a.2.IsAnswer := fun a ha =>
    ((hback a ha).resolve_left (hhonest a.1
      ((hheard.mem_peers a.1).mp (List.mem_map_of_mem ha)).1)).1
  obtain ⟨b, hb⟩ := hheard.reported hanswers hout (by rw [hf.quorumSize, hf.card]; exact hmajority)
    (hquiet.turn hi)
  exact ⟨⟨b, hb⟩, hv.polled i poll hi, hquiet.recorded hrun hi hb⟩

/-- A pending vertex that has a child before any poll on it is never polled: it stays pending,
without a chit, whatever happens. -/
theorem overtaken_never_polled (hr : (Network.system hash faulty config genesis).Reachable net)
    (hl : (Network.system hash faulty config genesis).LeadsWhen (fun _ _ => True) net net')
    (hpending : v ∈ (net.nodes n).task.dag.pendingQuery)
    (hchild : ∃ k, (net.nodes n).task.dag.graph.IsParent v k)
    (hno : ∀ (i : Nat) (poll : Poll H P), net.polls[i]? = some poll → poll.owner = n →
      poll.polling.pollster.vhash ≠ v) :
    v ∈ (net'.nodes n).task.dag.pendingQuery ∧
      chitOf (net'.nodes n).task.dag.state (.unity v) ≠ some true ∧
      ∀ (i : Nat) (poll : Poll H P), net'.polls[i]? = some poll → poll.owner = n →
        poll.polling.pollster.vhash ≠ v := by
  have hstep : net'.Overtaken n v := by
    induction hl with
    | refl => exact ⟨hpending, hchild, hno⟩
    | step hl _ hs ih =>
      obtain ⟨past, hrun⟩ := (hr.leads hl).exists_run
      exact ih.step (.of_run hrun) hrun.reachable (Network.steps_of_step hs)
  obtain ⟨past, hrun⟩ := (hr.leads hl).exists_run
  refine ⟨hstep.pending, fun hc => ?_, hstep.unpolled⟩
  exact hstep.not_reported true ((Network.Valid.of_run hrun).chits n v hc)

end

namespace Pair

theorem polls_complete_pair : ∃ (net : Network Digest Bool) (poll : Poll Digest Bool),
    poll.polling.pollster.vhash = Fork.a.wire ∧ net.polls[0]? = some poll ∧
      (∃ b, poll.polling.phase = .reported b) ∧
      poll.polling.pollster.vhash ∉ (net.nodes poll.owner).task.dag.pendingQuery := by
  obtain ⟨past, net, hrun, ⟨hnodes, hpolls⟩, ⟨poll, hi, hvhash, _⟩, _, _⟩ := events_end
  have hcomplete := polls_complete hrun (Network.quiet_of_idle hnodes hpolls) hi
    (fun p _ => Finset.notMem_empty p) (le_refl 2)
  exact ⟨net, poll, hvhash, hi, hcomplete.1, hcomplete.2.2⟩

/-- A child of the vertex that is submitted before it. -/
def child : Vertex Digest := Vertex.batch 9 2 [Fork.a]

/-- The child waits for the vertex, and is inserted along with it. -/
def overtaking : List (Network.Event Digest Bool) :=
  [.call false (.addValidator true), .handle false .ascending .ascending,
    .call false (.submitVertex child none), .handle false .ascending .ascending,
    .call false (.submitVertex Fork.a none), .handle false .ascending .ascending]

/-- The second node does not know the child. -/
def refusal : List (Network.Event Digest Bool) :=
  [.ask 0 true, .handle true .ascending .ascending, .deliver 0 true (.error .notFound),
    .turn 0, .turn 0, .handle false .ascending .ascending]

theorem overtaken_never_polled_pair : ∃ net net' : Network Digest Bool,
    Fork.a.wire ∈ (net.nodes false).task.dag.pendingQuery ∧
      child.wire ∉ (net'.nodes false).task.dag.pendingQuery ∧
      Fork.a.wire ∈ (net'.nodes false).task.dag.pendingQuery := by
  have hrun : ∃ net net', (Network.system Vertex.wire ∅ config Fork.root).Reachable net ∧
      (Network.system Vertex.wire ∅ config Fork.root).LeadsWhen (fun _ _ => True) net net' ∧
      (Fork.a.wire ∈ (net.nodes false).task.dag.pendingQuery ∧
        (∃ vx ∈ (net.nodes false).task.dag.graph.lookup child.wire, Fork.a.wire ∈ vx.parents) ∧
        ∀ poll ∈ net.polls, poll.polling.pollster.vhash ≠ Fork.a.wire) ∧
      child.wire ∉ (net'.nodes false).task.dag.pendingQuery :=
    Network.exists_leads rfl (fun _ => ⟨rfl, rfl⟩) overtaking refusal (by decide +kernel)
  obtain ⟨net, net', hr, hl, ⟨hpending, ⟨vx, hvx, hp⟩, hno⟩, hchild⟩ := hrun
  have hover := overtaken_never_polled hr hl hpending ⟨child.wire, vx, hvx, hp⟩ fun i poll hi _ =>
    hno poll (List.mem_of_getElem? hi)
  exact ⟨net, net', hpending, hchild, hover.1⟩

end Pair

end Taurus
