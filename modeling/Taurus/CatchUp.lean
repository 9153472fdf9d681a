import Taurus.Fetching
import Taurus.Growth
import Taurus.Network

namespace Taurus

open Relation

section

variable {H Peer : Type} [LinearOrder H] {hash : Vertex H → H} {it : HashOrders H} {config : Config}
  {genesis vx x : Vertex H} {dag dag' served served' : DAG H} {source : Set (Vertex H)} {h p : H}

/-- The inserted vertices, the genesis vertex apart. -/
noncomputable def DAG.descendants (hash : Vertex H → H) (genesis : Vertex H) (dag : DAG H) :
    List (Vertex H) :=
  dag.graph.keys.toList.filterMap fun h => if h = hash genesis then none else dag.graph.lookup h

theorem DAG.mem_descendants (hd : Sound hash genesis dag) : x ∈ dag.descendants hash genesis ↔
    dag.graph.lookup (hash x) = some x ∧ hash x ≠ hash genesis := by
  rw [DAG.descendants, List.mem_filterMap]
  constructor
  · rintro ⟨k, _, hk⟩
    split at hk
    · cases hk
    · next hne =>
      rw [hd.hash_eq k x (hd.inserted_known k x hk)]
      exact ⟨hk, hne⟩
  · rintro ⟨hl, hne⟩
    refine ⟨hash x, ?_, by rw [if_neg hne, hl]⟩
    rw [Finset.mem_toList, Finmap.mem_keys]
    exact Finmap.mem_of_lookup_eq_some hl

theorem DAG.isParentIn_descendants (hd : Sound hash genesis dag) :
    IsParentIn hash (dag.descendants hash genesis) p h ↔ dag.graph.IsParent p h := by
  constructor
  · rintro ⟨x, hx, rfl, hp⟩
    exact ⟨x, ((mem_descendants hd).mp hx).1, hp⟩
  · rintro ⟨x, hx, hp⟩
    have hhash : hash x = h := hd.hash_eq h x (hd.inserted_known h x hx)
    refine ⟨x, (mem_descendants hd).mpr ⟨by rw [hhash, hx], ?_⟩, hhash, hp⟩
    -- the genesis vertex has no parents
    intro hroot
    rw [← hhash, hroot, hd.shaped.root_lookup] at hx
    cases hx
    rw [hd.shaped.root_parents] at hp
    cases hp

/-- What a graph without results has inserted is an archive. -/
noncomputable def Unvoted.archive (hcf : Vertex.CollisionFree hash (insert genesis source))
    (hu : Unvoted hash config genesis source dag) : Archive hash config genesis source where
  vertices := dag.descendants hash genesis
  valid x hx := by
    have hC : Collected hash genesis source dag := hu.collected
    obtain ⟨hl, hne⟩ := (DAG.mem_descendants hC.sound).mp hx
    have hx : x = genesis ∨ x ∈ source := hC.submitted _ x (hC.sound.inserted_known _ x hl)
    refine .of_inserted hcf hu (hx.resolve_left ?_) hl hne
    rintro rfl
    exact hne rfl
  closed x hx p hp := by
    have hd : Sound hash genesis dag := sound_of_reachable hu.reachable
    have hpin := hd.shaped.parent_mem ⟨x, ((DAG.mem_descendants hd).mp hx).1, hp⟩
    obtain ⟨y, hy⟩ := Finmap.mem_iff.mp hpin
    have hhash : hash y = p := hd.hash_eq p y (hd.inserted_known p y hy)
    by_cases hroot : p = hash genesis
    · exact Or.inl hroot
    · refine Or.inr ⟨y, (DAG.mem_descendants hd).mpr ⟨by rw [hhash, hy], ?_⟩, hhash⟩
      rwa [hhash]
  acyclic h hcycle := by
    have hd : Sound hash genesis dag := sound_of_reachable hu.reachable
    have hancestor : dag.graph.Ancestor h h :=
      hcycle.lift id fun _ _ hp => (DAG.isParentIn_descendants hd).mp hp
    exact (hd.shaped.ancestor_height_lt hancestor).false

namespace Fetcher

/-- What the two nodes and others do: the peer answers a request with what its consensus task knows
by then, and others submit what the peer has inserted, after its parents. -/
def Answered (hash : Vertex H → H) (config : Config) (genesis : Vertex H) (source : Set (Vertex H))
    (served : DAG H) (node : Node H Peer) : Event H → Prop
  | .answer h response => ∃ served',
      (DAG.system hash config genesis).LeadsWhen (Submits source) served served' ∧
        response = Handler.respondVertex (.ok (served'.vertex.lookup h))
  | .submit x _ => served.graph.lookup (hash x) = some x ∧ hash x ≠ hash genesis ∧
      ∀ p ∈ x.parents, p ∈ node.dag.graph
  | _ => True

/-- What the peer holds, it goes on to hold. -/
theorem lookup_served (hu : Unvoted hash config genesis source served)
    (hl : (DAG.system hash config genesis).LeadsWhen (Submits source) served served')
    (hx : served.graph.lookup h = some x) : served'.vertex.lookup h = some x := by
  have hl' : (DAG.system hash config genesis).LeadsWhen (fun _ _ => True) served served' :=
    hl.mono fun _ _ _ => trivial
  have hd' : Sound hash genesis served' := sound_of_reachable (hu.leads hl).reachable
  exact hd'.inserted_known h x ((DAG.Grows.of_leads hu.reachable hl').inserted h x hx)

variable (hcf : Vertex.CollisionFree hash (insert genesis source))
  (hserved : Unvoted hash config genesis source served)
  (hu : Unvoted hash config genesis source dag) (hunparked : ∀ h ∈ dag.vertex, h ∈ dag.graph)
  (hvx : served.graph.lookup (hash vx) = some vx) (hne : hash vx ≠ hash genesis) {missing : List H}
  (hrun : dag.tryInsert hash it vx = some (.error (.missingParents missing), dag')) {peer : Peer}
  {node : Node H Peer}
include hcf hserved hu hunparked hvx hne hrun

/-- The peer keeps the promise of an archive, since it is only asked for what it has inserted. -/
theorem promised_of_answered (hnode : (system hash dag' peer missing).ReachableWhen
    (Answered hash config genesis source served) node) :
    (system hash dag' peer missing).ReachableWhen (Promised (hserved.archive hcf)) node := by
  have hd : Sound hash genesis served := sound_of_reachable hserved.reachable
  have hin : vx ∈ (hserved.archive hcf).vertices := (DAG.mem_descendants hd).mpr ⟨hvx, hne⟩
  induction hnode with
  | init hi => exact .init hi
  | @step node node' event _ hanswered hs ih =>
    refine .step ih ?_ hs
    have hF := fetches_of_reachable hu hunparked hin hrun ih
    cases event with
    | start | receive | resume => trivial
    | submit x it =>
      obtain ⟨hl, hroot, hp⟩ := hanswered
      exact ⟨(hserved.archive hcf).valid x ((DAG.mem_descendants hd).mpr ⟨hl, hroot⟩), hp⟩
    | answer h response =>
      obtain ⟨served', hl, rfl⟩ := hanswered
      -- an answer that nobody waits for is no step
      have hout : h ∈ node.outstanding := by
        by_contra hn
        have hstep : node.step hash (.answer h (Handler.respondVertex (.ok (served'.vertex.lookup h)))) =
            none := by
          rw [Node.step, if_neg (by simpa using hn)]
        cases hs.symm.trans hstep
      obtain ⟨x, hx, rfl⟩ := hF.held h (Or.inl (hF.asked h hout))
      refine ⟨x, hx, rfl, ?_⟩
      rw [lookup_served hserved hl ((DAG.mem_descendants hd).mp hx).1]
      rfl

end Fetcher

/-- One node catches up with another: when a fetcher asks a peer that has inserted the vertex, it
asks for what the peer has inserted alone, each hash once; it goes on as long as an answer is
outstanding; and in the end the node has inserted the vertex with everything below it at the peer. -/
theorem catches_up (hcf : Vertex.CollisionFree hash (insert genesis source))
    (hserved : Unvoted hash config genesis source served)
    (hu : Unvoted hash config genesis source dag) (hunparked : ∀ h ∈ dag.vertex, h ∈ dag.graph)
    (hvx : served.graph.lookup (hash vx) = some vx) (hne : hash vx ≠ hash genesis) {missing : List H}
    (hrun : dag.tryInsert hash it vx = some (.error (.missingParents missing), dag')) {peer : Peer}
    {node : Fetcher.Node H Peer}
    (hnode : (Fetcher.system hash dag' peer missing).ReachableWhen
      (Fetcher.Answered hash config genesis source served) node) :
    node.requestedHashes.Nodup ∧ (∀ h ∈ node.requestedHashes, h ∈ served.graph) ∧
    (¬ node.Quiet → ∃ event node', Fetcher.Answered hash config genesis source served node event ∧
      event.OfFetch ∧ node.step hash event = some node') ∧
    (node.Quiet → (∀ h ∈ node.dag.vertex, h ∈ node.dag.graph) ∧
      ∀ h, ReflTransGen served.graph.IsParent h (hash vx) → h ∈ node.dag.graph) := by
  have hd : Sound hash genesis served := sound_of_reachable hserved.reachable
  have hin : vx ∈ (hserved.archive hcf).vertices := (DAG.mem_descendants hd).mpr ⟨hvx, hne⟩
  have hF := Fetcher.fetches_of_reachable hu hunparked hin hrun
    (Fetcher.promised_of_answered hcf hserved hu hunparked hvx hne hrun hnode)
  refine ⟨hF.nodup, fun h hh => ?_, fun hq => ?_, fun hq => ⟨hF.unparked hq, fun h hh => ?_⟩⟩
  · obtain ⟨x, hx, rfl⟩ := hF.held h (Or.inl hh)
    exact Finmap.mem_of_lookup_eq_some ((DAG.mem_descendants hd).mp hx).1
  · obtain ⟨event, node', hp, hof, hs⟩ := hF.goes_on hq .ascending
    refine ⟨event, node', ?_, hof, hs⟩
    cases event with
    | start | receive | resume => trivial
    | submit => exact hof.elim
    | answer h response =>
      obtain ⟨x, hx, rfl, rfl⟩ := hp
      -- the peer can answer at once, with what it holds
      refine ⟨served, .refl _, ?_⟩
      rw [hd.inserted_known _ x ((DAG.mem_descendants hd).mp hx).1]
      rfl
  · have hvin : hash vx ∈ node.dag.graph := hF.unparked hq (hash vx) hF.known
    rcases reflTransGen_iff_eq_or_transGen.mp hh with rfl | hh
    · exact hvin
    · refine (hserved.archive hcf).ancestor_mem hcf hF.unvoted ?_ hvin
      exact hh.lift id fun _ _ hp => (DAG.isParentIn_descendants hd).mpr hp

end

namespace Fork

/-- The peer has inserted the branch; it keeps what it answers with. -/
theorem fetch_answered {served : DAG Digest}
    (hserved : ∀ x ∈ branch, served.vertex.lookup x.wire = some x)
    (node : Fetcher.Node Digest Nat) (event : Fetcher.Event Digest) (h : event ∈ fetch) :
    Fetcher.Answered Vertex.wire ⟨2, 1⟩ root inBranch served node event := by
  cases event with
  | start | receive | resume => trivial
  | submit x it => simp [fetch] at h
  | answer k response =>
    obtain ⟨x, hx, rfl, rfl⟩ := fetch_promised node _ h
    refine ⟨served, .refl _, ?_⟩
    rw [hserved x hx]
    rfl

end Fork

theorem catches_up_fork : ∃ node : Fetcher.Node Digest Nat,
    node.requestedHashes = [Fork.ab.wire, Fork.a.wire, Fork.b.wire] ∧
      Fork.abTip.wire ∈ node.dag.graph ∧ Fork.b.wire ∈ node.dag.graph := by
  obtain ⟨served, hserved, hheld⟩ := Fork.branch_inserted
  have hd : Sound Vertex.wire Fork.root served := sound_of_reachable hserved.reachable
  obtain ⟨node, hnode, hreq, hq⟩ := Fork.fetch_quiet
    (Fork.fetch_answered fun x hx => hd.inserted_known _ x (hheld x hx).1)
  have hinit : (Fork.system ⟨2, 1⟩).init (DAG.start Vertex.wire ⟨2, 1⟩ Fork.root) :=
    start_init rfl rfl
  obtain ⟨htip, hne⟩ := hheld Fork.abTip (by simp [Fork.branch])
  obtain ⟨_, _, _, hcomplete⟩ := catches_up (Vertex.wire_collisionFree _) hserved (.init hinit)
    (fun h hh => hh) htip hne Fork.tryInsert_abTip hnode
  obtain ⟨_, hall⟩ := hcomplete hq
  have hab : served.graph.IsParent Fork.ab.wire Fork.abTip.wire := ⟨Fork.abTip, htip, .head _⟩
  have hb : served.graph.IsParent Fork.b.wire Fork.ab.wire :=
    ⟨Fork.ab, (hheld Fork.ab (by simp [Fork.branch])).1, .tail _ (.head _)⟩
  exact ⟨node, hreq, hall _ .refl, hall _ (.head hb (.single hab))⟩

end Taurus
