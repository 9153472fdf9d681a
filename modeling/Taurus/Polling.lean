import Taurus.Pollster

namespace Taurus

variable {H P : Type}

/-- Where a pollster is in its run. -/
inductive PollPhase where
  | collecting
  | reported (preference : Bool)
  | panicked
deriving DecidableEq

/-- A pollster at work, with the peers whose answers are outstanding and the answers that have
arrived on its channel. -/
structure Polling (H P : Type) where
  pollster : Pollster H P
  outstanding : HashSet P
  responses : List (Response H)
  countFor : Nat
  countAgainst : Nat
  phase : PollPhase

namespace Polling

/-- The pollster after it has sent its requests. -/
def start (pollster : Pollster H P) : Polling H P where
  pollster := pollster
  outstanding := pollster.peersToPoll
  responses := []
  countFor := 0
  countAgainst := 0
  phase := .collecting

/-- An answer of the peer arrives; there is at most one to each request. -/
def deliver [DecidableEq P] (polling : Polling H P) (peer : P) (response : Response H) : Polling H P :=
  if peer ∈ polling.outstanding then
    { polling with
      outstanding := polling.outstanding.erase peer
      responses := polling.responses ++ [response] }
  else polling

/-- Does the collection loop go on? -/
def Open (polling : Polling H P) : Prop :=
  polling.countFor < polling.pollster.quorumSize ∧
    polling.countAgainst < polling.pollster.quorumSize

instance (polling : Polling H P) : Decidable polling.Open :=
  inferInstanceAs (Decidable (_ ∧ _))

/-- Counts an answer. -/
def count (polling : Polling H P) : Response H → Polling H P
  | .preference true => { polling with countFor := polling.countFor + 1 }
  | .preference false => { polling with countAgainst := polling.countAgainst + 1 }
  | .error => { polling with countAgainst := polling.countAgainst + 1 }
  -- a response of the wrong kind runs into a `todo!`
  | .vertex _ => { polling with phase := .panicked }

/-- One turn of the collection loop; after the last one the result is reported. Without an answer
on the channel the pollster waits. -/
def turn (polling : Polling H P) : Option (Polling H P) :=
  match polling.phase with
  | .collecting =>
    if polling.Open then
      match polling.responses with
      | [] => none
      | response :: responses => some ({ polling with responses := responses }.count response)
    else
      some { polling with
        phase := .reported (decide (polling.countFor ≥ polling.pollster.quorumSize)) }
  | _ => none

/-- How the collection loop ends if these are the answers that are still to be taken. -/
def outcome (polling : Polling H P) (later : List (Response H)) : Polled :=
  match polling.phase with
  | .collecting =>
    Pollster.collect polling.pollster.quorumSize later polling.countFor polling.countAgainst
  | .reported _ => .exited polling.countFor polling.countAgainst
  | .panicked => .panicked

/-- What a pollster has heard: an answer of each polled peer that is not outstanding any more,
in the order of their arrival. Its counters stand for the answers taken from the channel. -/
structure Heard (polling : Polling H P) (arrivals : List (P × Response H)) : Prop where
  peers : (arrivals.map Prod.fst).Nodup
  mem_peers : ∀ p, p ∈ arrivals.map Prod.fst ↔
    p ∈ polling.pollster.peersToPoll ∧ p ∉ polling.outstanding
  outstanding : polling.outstanding ⊆ polling.pollster.peersToPoll
  taken : ∃ consumed, arrivals.map Prod.snd = consumed ++ polling.responses ∧
    ∀ later, Pollster.collect polling.pollster.quorumSize (consumed ++ later) 0 0 =
      polling.outcome later
  verdict : ∀ b, polling.phase = .reported b → ¬ polling.Open ∧
    b = decide (polling.countFor ≥ polling.pollster.quorumSize)

theorem heard_start (pollster : Pollster H P) : (start pollster).Heard [] where
  peers := List.nodup_nil
  mem_peers p := by
    refine iff_of_false List.not_mem_nil ?_
    rintro ⟨hp, hn⟩
    exact hn hp
  outstanding := subset_rfl
  taken := ⟨[], rfl, fun _ => rfl⟩
  verdict b h := by cases h

/-- A turn takes an answer from the channel, or ends the loop. -/
theorem turn_eq_some {polling polling' : Polling H P} (h : polling.turn = some polling') :
    polling.phase = .collecting ∧
      ((∃ response responses, polling.Open ∧ polling.responses = response :: responses ∧
          polling' = { polling with responses := responses }.count response) ∨
        ¬ polling.Open ∧ polling' = { polling with
          phase := .reported (decide (polling.countFor ≥ polling.pollster.quorumSize)) }) := by
  unfold turn at h
  cases hph : polling.phase with
  | reported b => simp [hph] at h
  | panicked => simp [hph] at h
  | collecting =>
    refine ⟨rfl, ?_⟩
    simp only [hph] at h
    by_cases hopen : polling.Open
    · rw [if_pos hopen] at h
      cases hr : polling.responses with
      | nil => simp [hr] at h
      | cons response responses =>
        rw [hr] at h
        exact Or.inl ⟨response, responses, hopen, rfl, (Option.some.inj h).symm⟩
    · rw [if_neg hopen] at h
      exact Or.inr ⟨hopen, (Option.some.inj h).symm⟩

theorem count_frame (polling : Polling H P) (response : Response H) :
    (polling.count response).pollster = polling.pollster ∧
      (polling.count response).outstanding = polling.outstanding ∧
      (polling.count response).responses = polling.responses := by
  cases response with
  | preference pref => cases pref <;> exact ⟨rfl, rfl, rfl⟩
  | error | vertex vx => exact ⟨rfl, rfl, rfl⟩

theorem count_phase (polling : Polling H P) (response : Response H) :
    (polling.count response).phase = polling.phase ∨
      (polling.count response).phase = .panicked := by
  cases response with
  | preference pref => cases pref <;> exact Or.inl rfl
  | error => exact Or.inl rfl
  | vertex vx => exact Or.inr rfl

theorem turn_pollster {polling polling' : Polling H P} (h : polling.turn = some polling') :
    polling'.pollster = polling.pollster := by
  obtain ⟨_, ⟨response, responses, _, _, rfl⟩ | ⟨_, rfl⟩⟩ := turn_eq_some h
  · exact (count_frame _ response).1
  · rfl

theorem deliver_frame [DecidableEq P] (polling : Polling H P) (peer : P) (response : Response H) :
    (polling.deliver peer response).pollster = polling.pollster ∧
      (polling.deliver peer response).phase = polling.phase := by
  unfold deliver
  split <;> exact ⟨rfl, rfl⟩

/-- To count an answer is what the collection loop does with it. -/
theorem outcome_count {polling : Polling H P} (hph : polling.phase = .collecting)
    (hopen : polling.Open) (response : Response H) (later : List (Response H)) :
    (polling.count response).outcome later = Pollster.collect polling.pollster.quorumSize
      (response :: later) polling.countFor polling.countAgainst := by
  have hq : polling.countFor < polling.pollster.quorumSize ∧
      polling.countAgainst < polling.pollster.quorumSize := hopen
  cases response with
  | error =>
    rw [Pollster.collect, if_pos hq]
    simp only [count, outcome, hph]
  | vertex vx =>
    rw [Pollster.collect, if_pos hq]
    rfl
  | preference pref =>
    rw [Pollster.collect, if_pos hq]
    cases pref <;> simp [count, outcome, hph]

namespace Heard

variable {polling polling' : Polling H P} {arrivals : List (P × Response H)}

theorem deliver [DecidableEq P] (h : polling.Heard arrivals) {peer : P} (response : Response H)
    (hp : peer ∈ polling.outstanding) :
    (polling.deliver peer response).Heard (arrivals ++ [(peer, response)]) := by
  -- a peer is outstanding until its first answer, so it is not heard twice
  have hnew : peer ∉ arrivals.map Prod.fst := fun hm => ((h.mem_peers peer).mp hm).2 hp
  rw [Polling.deliver, if_pos hp]
  constructor
  · rw [List.map_append, List.map_singleton, List.nodup_append]
    refine ⟨h.peers, List.nodup_singleton peer, ?_⟩
    intro p hm q hq he
    rw [he, List.mem_singleton.mp hq] at hm
    exact hnew hm
  · intro p
    rw [List.map_append, List.mem_append, h.mem_peers, Finset.mem_erase, List.map_singleton,
      List.mem_singleton]
    by_cases he : p = peer
    · subst he
      simp [h.outstanding hp]
    · simp [he]
  · exact (Finset.erase_subset _ _).trans h.outstanding
  · obtain ⟨consumed, hc, hout⟩ := h.taken
    refine ⟨consumed, ?_, hout⟩
    rw [List.map_append, hc, List.append_assoc]
    rfl
  · exact h.verdict

theorem turn (h : polling.Heard arrivals) (ht : polling.turn = some polling') :
    polling'.Heard arrivals := by
  obtain ⟨hph, ⟨response, responses, hopen, hr, rfl⟩ | ⟨hopen, rfl⟩⟩ := turn_eq_some ht
  · obtain ⟨hpollster, hout, hresp⟩ := count_frame { polling with responses := responses } response
    constructor
    · exact h.peers
    · rw [hpollster, hout]
      exact h.mem_peers
    · rw [hpollster, hout]
      exact h.outstanding
    · obtain ⟨consumed, hc, htaken⟩ := h.taken
      -- the answer that is taken from the channel now stands behind the counters
      refine ⟨consumed ++ [response], ?_, fun later => ?_⟩
      · rw [hc, hr, hresp, List.append_assoc]
        rfl
      · have hphase : ({ polling with responses := responses } : Polling H P).phase = .collecting := hph
        have hcount := outcome_count hphase hopen response later
        rw [hcount, hpollster, List.append_assoc, htaken, outcome, hph]
        rfl
    -- to count an answer reports nothing
    · intro b hb
      cases response with
      | preference pref => cases pref <;> simp [count, hph] at hb
      | error => simp [count, hph] at hb
      | vertex vx => simp [count] at hb
  -- the loop ends, and what arrives later is left out
  · refine ⟨h.peers, h.mem_peers, h.outstanding, ?_, ?_⟩
    · obtain ⟨consumed, hc, htaken⟩ := h.taken
      refine ⟨consumed, hc, fun later => ?_⟩
      rw [htaken, outcome, hph]
      exact Pollster.collect_of_quorum hopen
    · intro b hb
      exact ⟨hopen, (PollPhase.reported.inj hb).symm⟩

/-- What a pollster reports is what the collection loop makes of the answers in the order of their
arrival, with those that arrive after the end left out. -/
theorem run_eq (h : polling.Heard arrivals) {b : Bool} (hb : polling.phase = .reported b) :
    polling.pollster.run (arrivals.map Prod.snd) = some (polling.pollster.vhash, b) := by
  obtain ⟨consumed, hc, htaken⟩ := h.taken
  rw [Pollster.run, hc, htaken, outcome, hb, (h.verdict b hb).2]

/-- The answers of a kind come from as many distinct peers. -/
theorem exists_peers [DecidableEq P] (h : polling.Heard arrivals) (kind : Response H → Bool) :
    ∃ peers : Finset P, peers.card = (arrivals.map Prod.snd).countP kind ∧
      ∀ p ∈ peers, p ∈ polling.pollster.peersToPoll ∧ ∃ a ∈ arrivals, a.1 = p ∧ kind a.2 = true := by
  have hnodup : ((arrivals.filter fun a => kind a.2).map Prod.fst).Nodup :=
    h.peers.sublist (List.filter_sublist.map Prod.fst)
  refine ⟨((arrivals.filter fun a => kind a.2).map Prod.fst).toFinset, ?_, fun p hp => ?_⟩
  · rw [List.toFinset_card_of_nodup hnodup, List.length_map, List.countP_map,
      List.countP_eq_length_filter]
    rfl
  · obtain ⟨a, ha, rfl⟩ := List.mem_map.mp (List.mem_toFinset.mp hp)
    obtain ⟨ha, hkind⟩ := List.mem_filter.mp ha
    exact ⟨((h.mem_peers a.1).mp (List.mem_map_of_mem ha)).1, a, ha, rfl, hkind⟩

end Heard

end Polling

namespace Pollster

variable {q m n i j : Nat} {l : List (Response H)}

/-- The counters stand for answers. -/
theorem collect_le (h : collect q l m n = .exited i j) :
    i ≤ m + forCount l ∧ j ≤ n + againstCount l := by
  induction l generalizing m n with
  | nil =>
    unfold collect at h
    split at h
    · cases h
    · cases h
      exact ⟨Nat.le_add_right _ _, Nat.le_add_right _ _⟩
  | cons r l ih =>
    by_cases hq : m < q ∧ n < q
    · rw [collect.eq_def] at h
      simp only [if_pos hq] at h
      cases r with
      | vertex vx => cases h
      | error =>
        have hcons : againstCount (.error :: l) = againstCount l + 1 := List.countP_cons_of_pos rfl
        have hsame : forCount (.error :: l) = forCount l := List.countP_cons_of_neg Bool.false_ne_true
        have := ih h
        omega
      | preference pref =>
        cases pref with
        | false =>
          have hcons : againstCount (.preference false :: l) = againstCount l + 1 :=
            List.countP_cons_of_pos rfl
          have hsame : forCount (.preference false :: l) = forCount l :=
            List.countP_cons_of_neg Bool.false_ne_true
          have := ih h
          omega
        | true =>
          have hcons : forCount (.preference true :: l) = forCount l + 1 :=
            List.countP_cons_of_pos rfl
          have hsame : againstCount (.preference true :: l) = againstCount l :=
            List.countP_cons_of_neg Bool.false_ne_true
          have := ih h
          omega
    · rw [collect_of_quorum hq] at h
      cases h
      exact ⟨Nat.le_add_right _ _, Nat.le_add_right _ _⟩

/-- A positive verdict rests on a quorum of answers for the vertex. -/
theorem quorum_of_run {pollster : Pollster H P} {vhash : H}
    (h : pollster.run l = some (vhash, true)) : pollster.quorumSize ≤ forCount l := by
  unfold run at h
  cases hc : collect pollster.quorumSize l 0 0 with
  | waiting => simp [hc] at h
  | panicked => simp [hc] at h
  | exited countFor countAgainst =>
    simp only [hc, Option.some.injEq, Prod.mk.injEq, decide_eq_true_eq] at h
    have := (collect_le hc).1
    omega

end Pollster

end Taurus
