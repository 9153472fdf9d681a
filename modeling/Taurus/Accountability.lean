import Taurus.Acceptance
import Taurus.Persistence
import Taurus.Punishment

namespace Taurus

open Relation

section

variable {H P : Type} [LinearOrder H] [DecidableEq P] {hash : Vertex H → H} {faulty : HashSet P}
  {config : P → Task.Config} {genesis : Vertex H} {net net' : Network H P}
  {past : List (Network H P × Network.Event H P)} {n m p : P} {v w : H} {c d : Constraint H}

/-- Graphs that share a vertex and agree on what they share agree on what it supports. -/
theorem Graph.Agree.supports {A B : Graph H} {root : H} (hAB : A.Agree B)
    (hsA : A.Shaped root genesis) (hsB : B.Shaped root genesis) (hA : w ∈ A) (hB : w ∈ B)
    (hs : A.Supports w c) : B.Supports w c := by
  refine hs.imp_left ?_
  rintro ⟨a, haw, hc⟩
  obtain ⟨haA, haB, hline⟩ := hAB.line hsA hsB hA hB haw
  exact ⟨a, hline, hAB.commitments_eq haA haB ▸ hc⟩

/-- Is the constraint accepted, or does something accepted lie below it? -/
def DAG.RestsOn (dag : DAG H) (c : Constraint H) : Prop :=
  ∃ e, decisionOf dag.state e = some true ∧ ReflTransGen dag.graph.constraintGraph.child c e

namespace Network

/-- The vertices that are inserted at one node or another. -/
def inserted (net : Network H P) : Set (Vertex H) :=
  fun v => ∃ n h, (net.nodes n).task.dag.graph.lookup h = some v

omit [DecidableEq P] in
theorem insertedIn_subset (net : Network H P) (n m : P) :
    (net.nodes n).task.dag.insertedIn (net.nodes m).task.dag ⊆ net.inserted := by
  rintro v ⟨h, hv | hv⟩
  · exact ⟨n, h, hv⟩
  · exact ⟨m, h, hv⟩

/-- Without collisions a vertex supports the same constraints wherever it is inserted. -/
theorem supports_anywhere (hr : (system hash faulty config genesis).Reachable net)
    (hcf : Vertex.CollisionFree hash net.inserted) (hn : w ∈ (net.nodes n).task.dag.graph)
    (hm : w ∈ (net.nodes m).task.dag.graph) (hs : (net.nodes n).task.dag.graph.Supports w c) :
    (net.nodes m).task.dag.graph.Supports w c := by
  have hdn := sound hr n
  have hdm := sound hr m
  have hagree : (net.nodes n).task.dag.graph.Agree (net.nodes m).task.dag.graph :=
    agree_of_collisionFree hdn hdm fun u hu v hv =>
      hcf u (net.insertedIn_subset n m hu) v (net.insertedIn_subset n m hv)
  exact hagree.supports hdn.shaped hdm.shaped hn hm hs

/-- What an ordering that a node rests on has for it: a vertex that supports it, with a quorum. -/
theorem exists_endorsed (hrun : (system hash faulty config genesis).Run past net)
    (hne : c.left ≠ c.right) (hrests : (net.nodes n).task.dag.RestsOn c) :
    ∃ w ∈ (net.nodes n).task.dag.graph, (net.nodes n).task.dag.graph.Supports w c ∧
      Endorsed faulty past net n w := by
  obtain ⟨e, hacc, hce⟩ := hrests
  obtain ⟨calls, hcalls⟩ := (reachable_dag hrun.reachable n).exists_run
  have hs := (sound hrun.reachable n).shaped
  have hroot : e ≠ .unity (hash genesis) := by
    rintro rfl
    rcases reflTransGen_iff_eq_or_transGen.mp hce with he | hce
    · rw [← he] at hne
      exact hne rfl
    -- above the genesis vertex there is nothing
    · obtain ⟨d, _, hd⟩ := TransGen.tail'_iff.mp hce
      have hmem := (Graph.parentConstraint_unity d _).mp hd.2
      rw [hs.commitments_root] at hmem
      cases hmem
  -- who votes for what is accepted supports the ordering above it
  have hcarried := (carried_of_accepted hcalls hacc).resolve_left hroot
  obtain ⟨voters, hcard, hvoters⟩ := hcarried.supporters hcalls
  obtain ⟨w, hw⟩ : voters.Nonempty := Finset.card_pos.mp ((le_max_left _ _).trans hcard)
  obtain ⟨hsup, hchit⟩ := hvoters w hw
  have hreported := (Valid.of_run hrun).chits n w hchit
  have hend := endorsed_of_reported hrun hreported
  obtain ⟨i, poll, hi, rfl, rfl, _⟩ := hreported
  have hin := (Valid.of_run hrun).polled i poll hi
  refine ⟨_, hin, (Graph.supports_iff hin).mpr ?_, hend⟩
  exact hce.trans ((Graph.supports_iff hin).mp hsup)

/-- Whoever has vouched for a vertex upholds it from then on. -/
theorem upheld_of_vouched (hrun : (system hash faulty config genesis).Run past net)
    (h : Vouched past p v) : (net.nodes p).task.dag.Upheld (.unity v) := by
  obtain ⟨s, hs, hin, hsp⟩ := h
  obtain ⟨hreach, hl⟩ := hrun.leads_of_mem hs
  exact ((keeps_of_leads hreach hl p).upheld _ (standsBy hreach hin hsp).1.1).1

/-- The validators of a node. -/
def validators (net : Network H P) (n : P) : Finset P :=
  (net.nodes n).task.validators.values.toFinset

/-- Those of the peers that are faulty, or that prefer the ordering. -/
def upholders (faulty : HashSet P) (net : Network H P) (peers : Finset P) (c : Constraint H) :
    Finset P :=
  peers.filter fun p => p ∈ faulty ∨ Prefers (net.nodes p).task.dag.state c

theorem mem_upholders {peers : Finset P} : p ∈ upholders faulty net peers c ↔
    p ∈ peers ∧ (p ∈ faulty ∨ Prefers (net.nodes p).task.dag.state c) := Finset.mem_filter

/-- Nobody prefers two opposite orderings, so who upholds both is faulty. -/
theorem upholders_inter_subset (hne : c.left ≠ c.right) (S T : Finset P) :
    upholders faulty net S c ∩ upholders faulty net T c.swap ⊆ faulty ∩ (S ∩ T) := by
  intro p hp
  obtain ⟨hpS, hpT⟩ := Finset.mem_inter.mp hp
  obtain ⟨hS, hc⟩ := mem_upholders.mp hpS
  obtain ⟨hT, hd⟩ := mem_upholders.mp hpT
  refine Finset.mem_inter.mpr ⟨?_, Finset.mem_inter.mpr ⟨hS, hT⟩⟩
  rcases hc with hf | hc
  · exact hf
  · exact hd.resolve_right (not_prefers_swap hne hc)

/-- A node rests on no ordering that less than a quorum of its validators upholds. -/
theorem quorum_le_upholders (hr : (system hash faulty config genesis).Reachable net)
    (hcf : Vertex.CollisionFree hash net.inserted) (hne : c.left ≠ c.right)
    (hrests : (net.nodes n).task.dag.RestsOn c) :
    (config n).quorumSize ≤ (upholders faulty net (net.validators n) c).card := by
  obtain ⟨past, hrun⟩ := hr.exists_run
  obtain ⟨w, hwn, hsup, peers, hcard, hpeers⟩ := exists_endorsed hrun hne hrests
  rw [config_eq hr] at hcard
  refine hcard.trans (Finset.card_le_card fun p hp => ?_)
  obtain ⟨hvalidator, hback⟩ := hpeers p hp
  refine mem_upholders.mpr ⟨List.mem_toFinset.mpr hvalidator, hback.imp_right fun hvouched => ?_⟩
  obtain ⟨hwp, hvouched⟩ := hvouched
  -- a peer upholds what it has vouched for, and all that this supports
  have hup := upheld_of_vouched hrun hvouched
  have hsup' := supports_anywhere hr hcf hwn hwp hsup
  exact hup.2 c ((Graph.supports_iff hwp).mp hsup')

end Network

/-- Agreement: if the quorums of two nodes overlap in more validators than are faulty, the nodes do
not rest on opposite orderings, be it that they accept these, or vertices whose ancestry commits to
them. -/
theorem no_conflicting_acceptances (h : (Network.system hash faulty config genesis).Reachable net)
    (hcf : Vertex.CollisionFree hash net.inserted) (hcd : c.conflict = some d)
    (hquorum : (net.validators n ∪ net.validators m).card +
      (faulty ∩ (net.validators n ∩ net.validators m)).card <
        (config n).quorumSize + (config m).quorumSize)
    (hn : (net.nodes n).task.dag.RestsOn c) : ¬ (net.nodes m).task.dag.RestsOn d := by
  intro hm
  obtain ⟨hne, rfl⟩ := (Constraint.conflict_eq_some c d).mp hcd
  let N := Network.upholders faulty net (net.validators n) c
  let M := Network.upholders faulty net (net.validators m) c.swap
  have hN : (config n).quorumSize ≤ N.card := Network.quorum_le_upholders h hcf hne hn
  have hM : (config m).quorumSize ≤ M.card := Network.quorum_le_upholders h hcf hne.symm hm
  have hunion : (N ∪ M).card ≤ (net.validators n ∪ net.validators m).card := by
    apply Finset.card_le_card
    exact Finset.union_subset_union (Finset.filter_subset _ _) (Finset.filter_subset _ _)
  have hinter : (N ∩ M).card ≤ (faulty ∩ (net.validators n ∩ net.validators m)).card := by
    apply Finset.card_le_card
    exact Network.upholders_inter_subset hne _ _
  have hboth : (config n).quorumSize + (config m).quorumSize ≤ (N ∪ M).card + (N ∩ M).card :=
    calc (config n).quorumSize + (config m).quorumSize
        ≤ N.card + M.card := Nat.add_le_add hN hM
      _ = (N ∪ M).card + (N ∩ M).card := (Finset.card_union_add_card_inter N M).symm
  omega

/-- If less than a quorum of the peers upholds an ordering once they know of it, then no node that
has its validators among them ever rests on it: nothing changes a peer's mind. -/
theorem unpopular_never_accepted (h : (Network.system hash faulty config genesis).Reachable net)
    (hl : (Network.system hash faulty config genesis).LeadsWhen (fun _ _ => True) net net')
    (hcf : Vertex.CollisionFree hash net'.inserted) (hne : c.left ≠ c.right) {peers : Finset P}
    (hknown : ∀ p ∈ peers, p ∉ faulty → c.conflictSetKey ∈ (net.nodes p).task.dag.state)
    (hfew : (Network.upholders faulty net peers c).card < (config n).quorumSize)
    (hvalidators : net'.validators n ⊆ peers) : ¬ (net'.nodes n).task.dag.RestsOn c := by
  intro hrests
  have hquorum := Network.quorum_le_upholders (h.leads hl) hcf hne hrests
  have hsub : Network.upholders faulty net' (net'.validators n) c ⊆
      Network.upholders faulty net peers c := by
    intro p hp
    obtain ⟨hv, hback⟩ := Network.mem_upholders.mp hp
    refine Network.mem_upholders.mpr ⟨hvalidators hv, ?_⟩
    by_cases hf : p ∈ faulty
    · exact Or.inl hf
    · have hfixed := (Network.keeps_of_leads h hl p).preferences c (hknown p (hvalidators hv) hf)
      exact hback.imp_right hfixed.mp
  have hcard := Finset.card_le_card hsub
  omega

end

namespace Pair

theorem validators_subset {net : Network Digest Bool} {n : Bool}
    (h : (net.nodes n).task.validators.values ⊆ [true]) : net.validators n ⊆ {true} := fun _ hp =>
  Finset.mem_singleton.mpr (List.mem_singleton.mp (h (List.mem_toFinset.mp hp)))

theorem no_conflicting_acceptances_pair : ∃ net : Network Digest Bool,
    (net.nodes false).task.dag.RestsOn ⟨Fork.a.wire, Fork.b.wire⟩ ∧
      ¬ (net.nodes true).task.dag.RestsOn ⟨Fork.b.wire, Fork.a.wire⟩ := by
  obtain ⟨net, net', hr, hl, ⟨_, hacc, _⟩, _, _, _, hvalidators⟩ := history
  have hquorum : (net'.validators false ∪ net'.validators true).card +
      (∅ ∩ (net'.validators false ∩ net'.validators true)).card < 2 := by
    have hcard := Finset.card_le_card (Finset.union_subset (validators_subset (hvalidators false))
      (validators_subset (hvalidators true)))
    simp only [Finset.card_singleton, Finset.empty_inter, Finset.card_empty] at hcard ⊢
    omega
  have hacc' := (Network.keeps_of_leads hr hl false).decisions _ true hacc
  have hrests : (net'.nodes false).task.dag.RestsOn ⟨Fork.a.wire, Fork.b.wire⟩ := ⟨_, hacc', .refl⟩
  exact ⟨net', hrests, no_conflicting_acceptances (hr.leads hl) (Vertex.wire_collisionFree _)
    (by decide) hquorum hrests⟩

theorem unpopular_never_accepted_pair : ∃ net' : Network Digest Bool,
    Fork.ba.wire ∈ (net'.nodes false).task.dag.graph ∧
      ¬ (net'.nodes false).task.dag.RestsOn ⟨Fork.b.wire, Fork.a.wire⟩ := by
  obtain ⟨net, net', hr, hl, ⟨hprefers, _⟩, _, _, hq, hvalidators⟩ := history
  have hin := ((query_final_iff (Network.sound (hr.leads hl) false) _ _).mp hq).1
  have hknown (n : Bool) : (⟨Fork.b.wire, Fork.a.wire⟩ : Constraint Digest).conflictSetKey ∈
      (net.nodes n).task.dag.state := by
    have hswap := Constraint.conflictSetKey_swap (⟨Fork.a.wire, Fork.b.wire⟩ : Constraint Digest)
    exact hswap ▸ (hprefers n).mem
  have hfew : (Network.upholders ∅ net {true} ⟨Fork.b.wire, Fork.a.wire⟩).card < 1 := by
    -- nobody is faulty, and both nodes prefer the opposite order
    rw [Nat.lt_one_iff, Finset.card_eq_zero, Finset.eq_empty_iff_forall_notMem]
    intro p hp
    have hne : (⟨Fork.a.wire, Fork.b.wire⟩ : Constraint Digest).left ≠ Fork.b.wire := by decide
    have hback := (Network.mem_upholders.mp hp).2
    exact not_prefers_swap hne (hprefers p) (hback.resolve_left (Finset.notMem_empty p))
  exact ⟨net', hin, unpopular_never_accepted hr hl (Vertex.wire_collisionFree _) (by decide)
    (fun p _ _ => hknown p) hfew (validators_subset (hvalidators false))⟩

end Pair

end Taurus
