import Mathlib.Algebra.Order.Group.Nat
import Mathlib.Data.Finset.Powerset
import Taurus.DAG

namespace Taurus

variable {H P : Type}

namespace Task

inductive Error where
  | badCfgQuorumCount
  | needValidators (expected found : Nat)
deriving DecidableEq, Repr

/-- Configuration of the consensus task. -/
structure Config where
  dag : Taurus.Config
  /-- number of peers to query in each round -/
  queryCount : Nat
  /-- number of peers to satisfy a quorum for a round of queries -/
  quorumSize : Nat
deriving DecidableEq, Repr

def DFLT_QUERY_COUNT : Nat := 5
def DFLT_QUORUM_COUNT : Nat := 3

instance : Inhabited Config where
  default := { dag := default, queryCount := DFLT_QUERY_COUNT, quorumSize := DFLT_QUORUM_COUNT }

def Config.check (config : Config) : Except Error Unit :=
  if config.queryCount < config.quorumSize then .error .badCfgQuorumCount else .ok ()

/-- Validators to poll, picked by the indices that the random generator draws until enough of
them are distinct. -/
def getValidatorsForQuery [DecidableEq P] (config : Config) (validators : List P)
    (draws : List (Fin validators.length)) : Except Error (HashSet P) :=
  if validators.length < config.queryCount then
    .error (.needValidators config.queryCount validators.length)
  else
    .ok ((draws.eraseDups.take config.queryCount).map validators.get).toFinset

theorem Config.check_eq_ok (config : Config) :
    config.check = .ok () ↔ config.quorumSize ≤ config.queryCount := by
  unfold Config.check
  split
  · next h => simp [h]
  · next h => simpa using h

/-- The default configuration passes the check, and its quorum is the bare majority. -/
theorem Config.check_default : (default : Config).check = .ok () ∧
    (default : Config).queryCount + 1 = 2 * (default : Config).quorumSize :=
  ⟨rfl, rfl⟩

/-- With enough distinct draws, as many validators are polled as the configuration says. -/
theorem card_getValidatorsForQuery [DecidableEq P] {config : Config} {validators : List P}
    {draws : List (Fin validators.length)} {peers : HashSet P} (hn : validators.Nodup)
    (henough : config.queryCount ≤ draws.eraseDups.length)
    (h : getValidatorsForQuery config validators draws = .ok peers) :
    peers.card = config.queryCount := by
  unfold getValidatorsForQuery at h
  split at h
  · cases h
  cases h
  have hpicked : ((draws.eraseDups.take config.queryCount).map validators.get).Nodup :=
    ((Vertex.nodup_eraseDups draws).sublist (List.take_sublist _ _)).map
      (List.nodup_iff_injective_get.mp hn)
  rw [List.toFinset_card_of_nodup hpicked, List.length_map, List.length_take]
  omega

end Task

/-- What a peer sends back. -/
inductive Response (H : Type) where
  | error
  | vertex (vx : Vertex H)
  | preference (pref : Bool)

namespace Response

def isFor : Response H → Bool
  | preference pref => pref
  | _ => false

def isAgainst : Response H → Bool
  | error => true
  | preference pref => !pref
  | vertex _ => false

/-- An answer to the question for a preference: a preference or an error. -/
def IsAnswer (r : Response H) : Prop := r.isFor = true ∨ r.isAgainst = true

theorem isAnswer_preference (pref : Bool) : (preference pref : Response H).IsAnswer := by
  cases pref with
  | true => exact Or.inl rfl
  | false => exact Or.inr rfl

theorem isAgainst_eq_not_isFor {r : Response H} (h : r.IsAnswer) : r.isAgainst = !r.isFor := by
  cases r with
  | vertex vx => rcases h with h | h <;> cases h
  | error | preference pref => rfl

end Response

/-- Where the collection loop of a pollster stands when no more responses arrive. -/
inductive Polled where
  | exited (countFor countAgainst : Nat)
  | waiting
  | panicked
deriving DecidableEq, Repr

/-- Polls peers on a vertex. -/
structure Pollster (H P : Type) where
  vhash : H
  peersToPoll : HashSet P
  quorumSize : Nat

namespace Pollster

/-- Collection loop over the responses in the order of their arrival. -/
def collect (quorumSize : Nat) : List (Response H) → Nat → Nat → Polled
  | [], countFor, countAgainst =>
    if countFor < quorumSize ∧ countAgainst < quorumSize then
      -- `run` itself still holds a sender, so the channel is never closed and `recv` waits on
      .waiting
    else .exited countFor countAgainst
  | response :: responses, countFor, countAgainst =>
    if countFor < quorumSize ∧ countAgainst < quorumSize then
      match response with
      | .preference pref =>
        if pref then collect quorumSize responses (countFor + 1) countAgainst
        else collect quorumSize responses countFor (countAgainst + 1)
      | .error => collect quorumSize responses countFor (countAgainst + 1)
      -- a response of the wrong kind runs into a `todo!`
      | .vertex _ => .panicked
    else .exited countFor countAgainst

/-- The result a pollster reports, if its loop exits. -/
def run (pollster : Pollster H P) (responses : List (Response H)) : Option (H × Bool) :=
  match collect pollster.quorumSize responses 0 0 with
  | .exited countFor _ => some (pollster.vhash, decide (countFor ≥ pollster.quorumSize))
  | _ => none

/-- With one answer from each peer, the loop exits in whatever order they arrive, always with
the same result. -/
def OneVerdict (pollster : Pollster H P) (answer : P → Response H) : Prop :=
  ∃ result, ∀ arrivals : List P, (arrivals : Multiset P) = pollster.peersToPoll.val →
    pollster.run (arrivals.map answer) = some result

variable {q : Nat} {l : List (Response H)} {m n : Nat}

/-- Number of responses for the vertex. -/
abbrev forCount (l : List (Response H)) : Nat := l.countP Response.isFor

/-- Number of responses against the vertex. -/
abbrev againstCount (l : List (Response H)) : Nat := l.countP Response.isAgainst

theorem collect_of_quorum (h : ¬ (m < q ∧ n < q)) : collect q l m n = .exited m n := by
  cases l with
  | nil => rw [collect, if_neg h]
  | cons r l => cases r <;> rw [collect, if_neg h]

theorem collect_cons {r : Response H} (hr : r.IsAnswer) (h : m < q ∧ n < q) :
    collect q (r :: l) m n = if r.isFor then collect q l (m + 1) n else collect q l m (n + 1) := by
  cases r with
  | vertex vx => rcases hr with hr | hr <;> cases hr
  | error | preference pref =>
    rw [collect, if_pos h]
    rfl

/-- Responses that come after the loop has exited change nothing. -/
theorem collect_append {l' : List (Response H)} {i j : Nat}
    (h : collect q l m n = .exited i j) : collect q (l ++ l') m n = .exited i j := by
  by_cases hq : m < q ∧ n < q
  swap
  · rw [collect_of_quorum hq] at h ⊢
    exact h
  induction l generalizing m n with
  | nil =>
    rw [collect, if_pos hq] at h
    cases h
  | cons r l ih =>
    -- the answers counted next may make the quorum, which ends the loop at once
    have hnext (m n : Nat) (h : collect q l m n = .exited i j) :
        collect q (l ++ l') m n = .exited i j := by
      by_cases hq : m < q ∧ n < q
      · exact ih h hq
      · rw [collect_of_quorum hq] at h ⊢
        exact h
    cases r with
    | vertex vx =>
      rw [collect, if_pos hq] at h
      cases h
    | error =>
      rw [collect, if_pos hq] at h
      rw [List.cons_append, collect, if_pos hq]
      exact hnext m (n + 1) h
    | preference pref =>
      rw [collect, if_pos hq] at h
      rw [List.cons_append, collect, if_pos hq]
      cases pref with
      | true => exact hnext (m + 1) n h
      | false => exact hnext m (n + 1) h

/-- If one side stays below the quorum, the loop exits exactly when the other reaches it, and
then with the counter of that side at the quorum. -/
theorem collect_spec (hl : ∀ r ∈ l, r.IsAnswer) (hm : m < q) (hn : n < q) :
    (m + forCount l < q → n + againstCount l < q → collect q l m n = .waiting) ∧
    (q ≤ m + forCount l → n + againstCount l < q → ∃ j, collect q l m n = .exited q j) ∧
    (m + forCount l < q → q ≤ n + againstCount l → ∃ i < q, collect q l m n = .exited i q) := by
  induction l generalizing m n with
  | nil =>
    refine ⟨fun _ _ => by rw [collect, if_pos ⟨hm, hn⟩], fun h _ => ?_, fun _ h => ?_⟩
    · simp only [forCount, List.countP_nil] at h
      omega
    · simp only [againstCount, List.countP_nil] at h
      omega
  | cons r l ih =>
    have hr := hl r (by simp)
    have hl' : ∀ r ∈ l, r.IsAnswer := fun r hr => hl r (by simp [hr])
    have hag := Response.isAgainst_eq_not_isFor hr
    rw [collect_cons hr ⟨hm, hn⟩]
    -- the side the response counts for may have reached the quorum with it
    cases hf : r.isFor with
    | true =>
      rw [hf] at hag
      have hcf : forCount (r :: l) = forCount l + 1 := List.countP_cons_of_pos hf
      have hca : againstCount (r :: l) = againstCount l := List.countP_cons_of_neg (by simp [hag])
      rw [hcf, hca, if_pos rfl]
      by_cases hm' : m + 1 < q
      · have := ih hl' hm' hn
        rwa [show m + 1 + forCount l = m + (forCount l + 1) by omega] at this
      · have hq : m + 1 = q := by omega
        rw [collect_of_quorum fun h => hm' h.1, hq]
        exact ⟨fun h => by omega, fun _ _ => ⟨n, rfl⟩, fun h => by omega⟩
    | false =>
      rw [hf] at hag
      have hcf : forCount (r :: l) = forCount l := List.countP_cons_of_neg (by simp [hf])
      have hca : againstCount (r :: l) = againstCount l + 1 := List.countP_cons_of_pos hag
      rw [hcf, hca, if_neg (by simp)]
      by_cases hn' : n + 1 < q
      · have := ih hl' hm hn'
        rwa [show n + 1 + againstCount l = n + (againstCount l + 1) by omega] at this
      · have hq : n + 1 = q := by omega
        rw [collect_of_quorum fun h => hn' h.2, hq]
        exact ⟨fun _ h => by omega, fun _ h => by omega, fun _ _ => ⟨m, hm, rfl⟩⟩

/-- Number of polled peers that answer for the vertex. -/
def supporters (pollster : Pollster H P) (answer : P → Response H) : Nat :=
  (pollster.peersToPoll.filter fun p => (answer p).isFor).card

/-- Number of polled peers that answer against the vertex or with an error. -/
def opponents (pollster : Pollster H P) (answer : P → Response H) : Nat :=
  (pollster.peersToPoll.filter fun p => (answer p).isAgainst).card

section Round

variable {pollster : Pollster H P} {answer : P → Response H} {arrivals : List P}

theorem countP_arrivals (ha : (arrivals : Multiset P) = pollster.peersToPoll.val)
    (f : Response H → Bool) : (arrivals.map answer).countP f =
      (pollster.peersToPoll.filter fun p => f (answer p)).card := by
  rw [List.countP_map, Finset.card_def, Finset.filter_val, ← ha, Multiset.filter_coe,
    Multiset.coe_card, List.countP_eq_length_filter]
  simp [Function.comp_def]

variable (hanswer : ∀ p, (answer p).IsAnswer)
include hanswer

theorem supporters_add_opponents :
    pollster.supporters answer + pollster.opponents answer = pollster.peersToPoll.card := by
  have hno (p : P) : (answer p).isAgainst = true ↔ ¬ (answer p).isFor = true := by
    rw [Response.isAgainst_eq_not_isFor (hanswer p), Bool.not_eq_true', Bool.not_eq_true]
  rw [supporters, opponents, Finset.filter_congr fun p _ => hno p,
    Finset.card_filter_add_card_filter_not]

/-- The outcome of a round in which at most one side has a quorum. -/
theorem run_spec (ha : (arrivals : Multiset P) = pollster.peersToPoll.val)
    (hq : 0 < pollster.quorumSize) :
    (pollster.supporters answer < pollster.quorumSize →
      pollster.opponents answer < pollster.quorumSize →
      pollster.run (arrivals.map answer) = none) ∧
    (pollster.quorumSize ≤ pollster.supporters answer →
      pollster.opponents answer < pollster.quorumSize →
      pollster.run (arrivals.map answer) = some (pollster.vhash, true)) ∧
    (pollster.supporters answer < pollster.quorumSize →
      pollster.quorumSize ≤ pollster.opponents answer →
      pollster.run (arrivals.map answer) = some (pollster.vhash, false)) := by
  have hl : ∀ r ∈ arrivals.map answer, r.IsAnswer := by
    intro r hr
    obtain ⟨p, _, rfl⟩ := List.mem_map.mp hr
    exact hanswer p
  have hspec := collect_spec hl hq hq
  rw [Nat.zero_add, Nat.zero_add, show forCount _ = _ from countP_arrivals ha _,
    show againstCount _ = _ from countP_arrivals ha _] at hspec
  obtain ⟨hwait, hfor, hagainst⟩ := hspec
  refine ⟨fun h1 h2 => ?_, fun h1 h2 => ?_, fun h1 h2 => ?_⟩
  · rw [run, hwait h1 h2]
  · obtain ⟨j, hj⟩ := hfor h1 h2
    rw [run, hj]
    simp
  · obtain ⟨i, hi, hrun⟩ := hagainst h1 h2
    rw [run, hrun]
    simp [hi]

/-- If all that answer one way come first, and suffice for a quorum, they decide the round. -/
theorem exists_arrivals (hq : 0 < pollster.quorumSize) (pref : Bool)
    (hquorum : pollster.quorumSize ≤
      (pollster.peersToPoll.filter fun p => (answer p).isFor = pref).card) :
    ∃ arrivals : List P, (arrivals : Multiset P) = pollster.peersToPoll.val ∧
      pollster.run (arrivals.map answer) = some (pollster.vhash, pref) := by
  -- the answers of that preference come first, and are enough for the verdict
  let first := (pollster.peersToPoll.filter fun p => (answer p).isFor = pref).val.toList
  let last := (pollster.peersToPoll.filter fun p => ¬ (answer p).isFor = pref).val.toList
  have hfirst : ∀ p ∈ first, (answer p).isFor = pref := fun p hp =>
    (Finset.mem_filter.mp (Multiset.mem_toList.mp hp)).2
  have hlen : first.length = (pollster.peersToPoll.filter fun p => (answer p).isFor = pref).card :=
    Multiset.length_toList _
  have hcount (f : Response H → Bool) (hf : ∀ p, f (answer p) = ((answer p).isFor == pref)) :
      (first.map answer).countP f = first.length := by
    rw [List.countP_map, List.countP_eq_length]
    intro p hp
    simp [Function.comp_apply, hf, hfirst p hp]
  have hnone (f : Response H → Bool) (hf : ∀ p, f (answer p) = !((answer p).isFor == pref)) :
      (first.map answer).countP f = 0 := by
    rw [List.countP_map, List.countP_eq_zero]
    intro p hp
    simp [Function.comp_apply, hf, hfirst p hp]
  have hagainst (p : P) : (answer p).isAgainst = !(answer p).isFor :=
    Response.isAgainst_eq_not_isFor (hanswer p)
  have hl : ∀ r ∈ first.map answer, r.IsAnswer := by
    intro r hr
    obtain ⟨p, _, rfl⟩ := List.mem_map.mp hr
    exact hanswer p
  obtain ⟨_, hfor, hopp⟩ := collect_spec hl hq hq
  refine ⟨first ++ last, ?_, ?_⟩
  · rw [← Multiset.coe_add, Multiset.coe_toList, Multiset.coe_toList, Finset.filter_val,
      Finset.filter_val, Multiset.filter_add_not]
  · rw [List.map_append, run]
    cases pref with
    | true =>
      have h1 : forCount (first.map answer) = first.length := hcount _ fun p => by simp
      have h2 : againstCount (first.map answer) = 0 := hnone _ fun p => by simp [hagainst]
      obtain ⟨j, hj⟩ := hfor (by omega) (by omega)
      rw [collect_append hj]
      simp
    | false =>
      have h1 : againstCount (first.map answer) = first.length :=
        hcount _ fun p => by simp [hagainst]
      have h2 : forCount (first.map answer) = 0 := hnone _ fun p => by simp
      obtain ⟨i, hi, hj⟩ := hopp (by omega) (by omega)
      rw [collect_append hj]
      simp [hi]

/-- A round of answers yields one verdict exactly if no quorum is asked for, or just one side
has it. -/
theorem oneVerdict_iff : pollster.OneVerdict answer ↔ pollster.quorumSize = 0 ∨
    (pollster.quorumSize ≤ pollster.supporters answer ↔
      ¬ pollster.quorumSize ≤ pollster.opponents answer) := by
  by_cases hq : pollster.quorumSize = 0
  · refine ⟨fun _ => Or.inl hq, fun _ => ⟨(pollster.vhash, true), fun arrivals _ => ?_⟩⟩
    rw [run, collect_of_quorum (by simp [hq]), hq]
    rfl
  have hpos : 0 < pollster.quorumSize := Nat.pos_of_ne_zero hq
  have hfor : pollster.supporters answer =
      (pollster.peersToPoll.filter fun p => (answer p).isFor = true).card := rfl
  have hagainst : pollster.opponents answer =
      (pollster.peersToPoll.filter fun p => (answer p).isFor = false).card := by
    refine congrArg Finset.card (Finset.filter_congr fun p _ => ?_)
    rw [Response.isAgainst_eq_not_isFor (hanswer p), Bool.not_eq_true']
  rw [or_iff_right hq]
  constructor
  · rintro ⟨result, hone⟩
    by_cases h1 : pollster.quorumSize ≤ pollster.supporters answer
    · refine ⟨fun _ h2 => ?_, fun _ => h1⟩
      -- both sides have a quorum: whichever comes first decides
      obtain ⟨l, hl, hrun⟩ := exists_arrivals hanswer hpos true (hfor ▸ h1)
      obtain ⟨l', hl', hrun'⟩ := exists_arrivals hanswer hpos false (hagainst ▸ h2)
      rw [hone l hl] at hrun
      rw [hone l' hl', hrun] at hrun'
      cases hrun'
    · refine ⟨fun h => absurd h h1, fun h2 => ?_⟩
      -- neither side has a quorum: the loop waits
      have hl : ((pollster.peersToPoll.val.toList : List P) : Multiset P) =
          pollster.peersToPoll.val := Multiset.coe_toList _
      have hwait := (run_spec hanswer hl hpos).1 (not_le.mp h1) (not_le.mp h2)
      rw [hone _ hl] at hwait
      cases hwait
  · intro h
    by_cases h1 : pollster.quorumSize ≤ pollster.supporters answer
    · exact ⟨_, fun l hl => (run_spec hanswer hl hpos).2.1 h1 (not_le.mp (h.mp h1))⟩
    · have h2 : pollster.quorumSize ≤ pollster.opponents answer := by
        by_contra hn
        exact h1 (h.mpr hn)
      exact ⟨_, fun l hl => (run_spec hanswer hl hpos).2.2 (not_le.mp h1) h2⟩

end Round

/-- Under a legal configuration a full round of answers yields one verdict exactly if just one
side has a quorum; and every round does exactly if the quorum is the bare majority. -/
theorem full_round_one_verdict_iff (config : Task.Config) (hc : config.check = .ok ()) (vhash : H)
    (peers : HashSet P) (hpeers : peers.card = config.queryCount) :
    (∀ answer : P → Response H, (∀ p, (answer p).IsAnswer) →
      (OneVerdict ⟨vhash, peers, config.quorumSize⟩ answer ↔ config.quorumSize = 0 ∨
        (config.quorumSize ≤ (peers.filter fun p => (answer p).isFor).card ↔
          ¬ config.quorumSize ≤ (peers.filter fun p => (answer p).isAgainst).card))) ∧
    ((∀ answer : P → Response H, (∀ p, (answer p).IsAnswer) →
        OneVerdict ⟨vhash, peers, config.quorumSize⟩ answer) ↔
      config.quorumSize = 0 ∨ config.queryCount + 1 = 2 * config.quorumSize) := by
  classical
  refine ⟨fun answer hanswer => oneVerdict_iff hanswer, fun hall => ?_, fun h answer hanswer => ?_⟩
  · have hle := (config.check_eq_ok).mp hc
    -- a split of the peers into `k` for and the others against
    have hsplit (k : Nat) (hk : k ≤ peers.card) : config.quorumSize = 0 ∨
        (config.quorumSize ≤ k ↔ ¬ config.quorumSize ≤ peers.card - k) := by
      obtain ⟨t, ht, hcard⟩ := Finset.exists_subset_card_eq hk
      let answer : P → Response H := fun p => .preference (decide (p ∈ t))
      have hanswer (p : P) : (answer p).IsAnswer := Response.isAnswer_preference _
      have hfor : (peers.filter fun p => (answer p).isFor) = t := by
        ext p
        simp only [answer, Response.isFor, Finset.mem_filter, decide_eq_true_eq]
        exact ⟨And.right, fun hp => ⟨ht hp, hp⟩⟩
      have hsum : supporters ⟨vhash, peers, config.quorumSize⟩ answer +
          opponents ⟨vhash, peers, config.quorumSize⟩ answer = peers.card :=
        supporters_add_opponents hanswer
      have hone := (oneVerdict_iff hanswer).mp (hall answer hanswer)
      rw [supporters, hfor, hcard] at hsum hone
      have hopp : opponents ⟨vhash, peers, config.quorumSize⟩ answer = peers.card - k :=
        Nat.eq_sub_of_add_eq' hsum
      rwa [hopp] at hone
    by_cases hq : config.quorumSize = 0
    · exact Or.inl hq
    · have hlow := hsplit (config.quorumSize - 1) (by omega)
      have hhigh := hsplit config.quorumSize (by omega)
      omega
  · refine (oneVerdict_iff hanswer).mpr (h.imp_right fun h => ?_)
    have hsum : supporters ⟨vhash, peers, config.quorumSize⟩ answer +
        opponents ⟨vhash, peers, config.quorumSize⟩ answer = peers.card :=
      supporters_add_opponents hanswer
    change config.quorumSize ≤ _ ↔ ¬ config.quorumSize ≤ _
    omega

/-- The default counts, and a bare majority of answers for the vertex. -/
theorem full_round_one_verdict_default :
    OneVerdict (⟨0, Finset.range 5, 3⟩ : Pollster Nat Nat) fun p => .preference (p < 3) :=
  (full_round_one_verdict_iff ⟨⟨9, 6⟩, 5, 3⟩ rfl 0 (Finset.range 5) rfl).2.mpr (Or.inr rfl) _
    fun _ => Response.isAnswer_preference _

/-- One answer each way keeps a pollster with a quorum of two waiting, and lets one with a
quorum of one report whichever comes first. -/
theorem rounds_without_one_verdict :
    (Task.Config.check ⟨⟨9, 6⟩, 2, 2⟩ = .ok () ∧
      ¬ OneVerdict (⟨0, {0, 1}, 2⟩ : Pollster Nat Nat) fun p => .preference (p == 0)) ∧
    (Task.Config.check ⟨⟨9, 6⟩, 2, 1⟩ = .ok () ∧
      ¬ OneVerdict (⟨0, {0, 1}, 1⟩ : Pollster Nat Nat) fun p => .preference (p == 0)) := by
  refine ⟨⟨rfl, ?_⟩, rfl, ?_⟩
  · rintro ⟨result, h⟩
    cases (show none = some result from h [0, 1] rfl)
  · rintro ⟨result, h⟩
    have hfor : some (0, true) = some result := h [0, 1] rfl
    have hagainst : some (0, false) = some result := h [1, 0] (by decide)
    rw [← hfor] at hagainst
    cases hagainst

end Pollster

end Taurus
