import Mathlib.Order.WellFoundedSet
import Taurus.Validity

namespace Taurus

open Relation

variable {H Peer : Type} [LinearOrder H] {hash : Vertex H → H} {it : HashOrders H} {config : Config}
  {genesis vx x : Vertex H} {dag dag' : DAG H} {source : Set (Vertex H)} {h p : H}

/-- Is the first hash that of a parent of a vertex with the second hash? -/
def IsParentIn (hash : Vertex H → H) (vertices : List (Vertex H)) (p h : H) : Prop :=
  ∃ x ∈ vertices, hash x = h ∧ p ∈ x.parents

/-- A finite graph of valid vertices, with all ancestors but the genesis vertex. -/
structure Archive (hash : Vertex H → H) (config : Config) (genesis : Vertex H)
    (source : Set (Vertex H)) where
  vertices : List (Vertex H)
  valid : ∀ x ∈ vertices, Valid hash config genesis source x
  closed : ∀ x ∈ vertices, ∀ p ∈ x.parents, p = hash genesis ∨ ∃ y ∈ vertices, hash y = p
  acyclic : ∀ h, ¬ TransGen (IsParentIn hash vertices) h h

namespace Archive

variable (archive : Archive hash config genesis source)

/-- Is it the hash of one of the vertices? -/
def Holds (h : H) : Prop := ∃ x ∈ archive.vertices, hash x = h

theorem holds_of_parent (hp : IsParentIn hash archive.vertices p h) (hne : p ≠ hash genesis) :
    archive.Holds p := by
  obtain ⟨x, hx, _, hpx⟩ := hp
  exact (archive.closed x hx p hpx).resolve_left hne

/-- What holds of a vertex whenever it holds of its parents in the archive, holds of all. -/
theorem induction {P : H → Prop}
    (hstep : ∀ h, archive.Holds h → (∀ p, archive.Holds p → IsParentIn hash archive.vertices p h → P p) →
      P h) {h : H} (hh : archive.Holds h) : P h := by
  have hfinite : Set.Finite {h | archive.Holds h} := by
    refine (archive.vertices.map hash).toFinset.finite_toSet.subset fun h hh => ?_
    obtain ⟨x, hx, rfl⟩ := hh
    simpa using ⟨x, hx, rfl⟩
  have : IsStrictOrder H (TransGen (IsParentIn hash archive.vertices)) :=
    { irrefl := archive.acyclic, trans := fun _ _ _ => TransGen.trans }
  have hwf := hfinite.wellFoundedOn (r := TransGen (IsParentIn hash archive.vertices))
  refine hwf.induction hh fun h hh ih => hstep h hh fun p hp hph => ih p hp (.single hph)

end Archive

namespace Fetcher

variable (archive : Archive hash config genesis source)

/-- What is relied on: the peer answers with the vertices of the archive, and others submit valid
vertices whose parents are in the graph. -/
def Promised (node : Node H Peer) : Event H → Prop
  | .answer h response => ∃ x ∈ archive.vertices, hash x = h ∧ response = .vertex x
  | .submit x _ => Valid hash config genesis source x ∧ ∀ p ∈ x.parents, p ∈ node.dag.graph
  | _ => True

/-- Is it an event of the fetch itself? -/
def Event.OfFetch : Event H → Prop
  | .submit _ _ => False
  | _ => True

/-- Has every request been answered, and every answer been handled? -/
structure Node.Quiet (node : Node H Peer) : Prop where
  phase : node.phase = .receiving
  outstanding : node.outstanding = []
  responses : node.responses = []

/-- What the fetcher is about to request. -/
def Node.wanted (node : Node H Peer) : List H :=
  match node.phase with
  | .spawned => node.task.initial
  | .submitting (.error (.missingParents missing)) => missing
  | _ => []

omit [LinearOrder H] in
theorem Node.mem_wanted_of_submitting {node : Node H Peer} {resp : Except (Error H) (HashSet H)}
    (hphase : node.phase = .submitting resp) :
    h ∈ node.wanted ↔ ∃ missing, resp = .error (.missingParents missing) ∧ h ∈ missing := by
  rw [Node.wanted, hphase]
  split
  · next heq => cases heq
  · next missing heq =>
    cases heq
    simp
  · next _ hne =>
    refine iff_of_false List.not_mem_nil ?_
    rintro ⟨missing, rfl, _⟩
    exact hne missing rfl

/-- Whatever the response is, the fetcher goes on with what it wants. -/
theorem Node.resume_eq {node : Node H Peer} {resp : Except (Error H) (HashSet H)}
    (hphase : node.phase = .submitting resp) : node.resume resp = node.request node.wanted := by
  unfold Node.resume
  split
  · next missing =>
    have hw : node.wanted = missing := by rw [Node.wanted, hphase]
    rw [hw]
  · next hne =>
    have hw : node.wanted = [] := by
      refine List.eq_nil_iff_forall_not_mem.mpr fun h hh => ?_
      obtain ⟨missing, hresp, _⟩ := (mem_wanted_of_submitting hphase).mp hh
      exact hne missing hresp
    rw [hw, Node.request]
    simp only [Task.requestHashes, List.filterMap_nil, List.append_nil]

/-- Invariants of a fetcher that completes the ancestry of a vertex. -/
structure Fetches (vx : Vertex H) (node : Node H Peer) : Prop where
  unvoted : Unvoted hash config genesis source node.dag
  drained : node.dag.Drained hash
  known : hash vx ∈ node.dag.vertex
  parked : ∀ h x, node.dag.vertex.lookup h = some x → h ∉ node.dag.graph → x ∈ archive.vertices
  lacking : ∀ h x, node.dag.vertex.lookup h = some x → h ∉ node.dag.graph → ∀ p ∈ x.parents,
    p ∈ node.dag.vertex ∨ p ∈ node.requestedHashes ∨ p ∈ node.wanted
  requested : ∀ h, h ∈ node.task.requested ↔ h ∈ node.requestedHashes
  nodup : node.requestedHashes.Nodup
  underway : ∀ h ∈ node.requestedHashes, h ∈ node.dag.vertex ∨ h ∈ node.outstanding ∨
    ∃ x, .vertex x ∈ node.responses ∧ hash x = h
  asked : ∀ h ∈ node.outstanding, h ∈ node.requestedHashes
  held : ∀ h, h ∈ node.requestedHashes ∨ h ∈ node.wanted → archive.Holds h
  responses : ∀ response ∈ node.responses, ∃ x ∈ archive.vertices, response = .vertex x
  running : node.phase ≠ .returned

namespace Fetches

variable {archive : Archive hash config genesis source} {node node' : Node H Peer}

/-- Requesting all that is wanted. -/
theorem request (hF : Fetches archive vx node) : Fetches archive vx (node.request node.wanted) := by
  obtain ⟨hnodup, hsent, hreq⟩ := node.task.requestHashes_spec node.wanted
  have hhashes : (node.request node.wanted).requestedHashes = node.requestedHashes ++
      (node.task.requestHashes node.wanted).1.filterMap Command.hash? := by
    simp only [Node.requestedHashes, Node.request, List.filterMap_append]
  have hmem (h : H) : h ∈ (node.request node.wanted).requestedHashes ↔
      h ∈ node.requestedHashes ∨ h ∈ node.wanted := by
    rw [hhashes, List.mem_append, hsent, hF.requested]
    tauto
  have hwanted : (node.request node.wanted).wanted = [] := rfl
  refine ⟨hF.unvoted, hF.drained, hF.known, hF.parked, fun h x hv hg p hp => ?_, fun h => ?_, ?_,
    fun h hh => ?_, fun h hh => ?_, fun h hh => ?_, hF.responses, fun h => by cases h⟩
  · rcases hF.lacking h x hv hg p hp with hk | hr | hw
    · exact Or.inl hk
    · exact Or.inr (Or.inl ((hmem p).mpr (Or.inl hr)))
    · exact Or.inr (Or.inl ((hmem p).mpr (Or.inr hw)))
  · rw [hmem]
    refine (hreq h).trans ?_
    rw [hF.requested]
  · rw [hhashes, List.nodup_append]
    refine ⟨hF.nodup, hnodup, fun h hh k hk => ?_⟩
    -- what is sent now has not been requested before
    rintro rfl
    exact ((hsent h).mp hk).2 ((hF.requested h).mpr hh)
  · rw [hhashes, List.mem_append] at hh
    rcases hh with hh | hh
    · rcases hF.underway h hh with hk | ho | hr
      · exact Or.inl hk
      · exact Or.inr (Or.inl (List.mem_append_left _ ho))
      · exact Or.inr (Or.inr hr)
    · exact Or.inr (Or.inl (List.mem_append_right _ hh))
  · rw [hhashes]
    rcases List.mem_append.mp hh with hh | hh
    · exact List.mem_append_left _ (hF.asked h hh)
    · exact List.mem_append_right _ hh
  · rw [hmem, hwanted] at hh
    exact hF.held h (hh.resolve_right List.not_mem_nil)

theorem answer (hF : Fetches archive vx node) (hx : x ∈ archive.vertices) :
    Fetches archive vx { node with
      outstanding := node.outstanding.erase (hash x)
      responses := node.responses ++ [.vertex x] } := by
  refine ⟨hF.unvoted, hF.drained, hF.known, hF.parked, hF.lacking, hF.requested, hF.nodup,
    fun h hh => ?_, fun h hh => hF.asked h (List.mem_of_mem_erase hh), hF.held,
    fun response hr => ?_, hF.running⟩
  · rcases hF.underway h hh with hk | ho | ⟨y, hy, he⟩
    · exact Or.inl hk
    · by_cases hhx : h = hash x
      · exact Or.inr (Or.inr ⟨x, List.mem_append_right _ List.mem_cons_self, hhx.symm⟩)
      · exact Or.inr (Or.inl ((List.mem_erase_of_ne hhx).mpr ho))
    · exact Or.inr (Or.inr ⟨y, List.mem_append_left _ hy, he⟩)
  · rcases List.mem_append.mp hr with hr | hr
    · exact hF.responses response hr
    · exact ⟨x, hx, List.mem_singleton.mp hr⟩

/-- The consensus task handles an answer. -/
theorem receive (hF : Fetches archive vx node) (hphase : node.phase = .receiving)
    {responses : List (P2p.Response H)} (hr : node.responses = .vertex x :: responses)
    (hx : x ∈ archive.vertices) {resp : Except (Error H) (HashSet H)}
    (hh : Handled hash config genesis source x node.dag dag' resp) :
    Fetches archive vx { node with
      dag := dag', responses := responses, phase := .submitting resp } := by
  have hd : Sound hash genesis node.dag := sound_of_reachable hF.unvoted.reachable
  have hnone (h : H) : h ∉ node.wanted := by
    rw [Node.wanted, hphase]
    exact List.not_mem_nil
  have hsubset (response : P2p.Response H) (hm : response ∈ responses) :
      response ∈ node.responses := by
    rw [hr]
    exact List.mem_cons_of_mem _ hm
  refine ⟨hh.unvoted, hh.drained, hh.knows hF.known, fun h y hv hg => ?_, fun h y hv hg p hp => ?_,
    hF.requested, hF.nodup, fun h hm => ?_, hF.asked, fun h hm => ?_,
    fun response hm => hF.responses response (hsubset response hm), fun h => by cases h⟩
  · rcases hh.parked_cases hv hg with ⟨hv, hg⟩ | ⟨_, rfl⟩
    · exact hF.parked h y hv hg
    · exact hx
  · rcases hh.parked_cases hv hg with ⟨hv, hg⟩ | ⟨rfl, rfl⟩
    · rcases hF.lacking h y hv hg p hp with hk | hm | hw
      · exact Or.inl (hh.knows hk)
      · exact Or.inr (Or.inl hm)
      · exact absurd hw (hnone p)
    · rcases hh.wanted hg p hp with hk | ⟨missing, hresp, hpm⟩
      · exact Or.inl hk
      · exact Or.inr (Or.inr ((Node.mem_wanted_of_submitting rfl).mpr ⟨missing, hresp, hpm⟩))
  · rcases hF.underway h hm with hk | ho | ⟨y, hy, he⟩
    · exact Or.inl (hh.knows hk)
    · exact Or.inr (Or.inl ho)
    · -- the answer is off the channel, but its vertex is known now
      rw [hr, List.mem_cons] at hy
      rcases hy with hy | hy
      · cases hy
        exact Or.inl (he ▸ hh.known)
      · exact Or.inr (Or.inr ⟨y, hy, he⟩)
  · rcases hm with hm | hm
    · exact hF.held h (Or.inl hm)
    · obtain ⟨missing, hresp, hhm⟩ := (Node.mem_wanted_of_submitting rfl).mp hm
      obtain ⟨hpx, hpk⟩ := hh.missing missing hresp h hhm
      refine archive.holds_of_parent ⟨x, hx, rfl, hpx⟩ ?_
      -- the genesis vertex is never missing
      rintro rfl
      exact hpk (hd.known hd.shaped.root_mem)

/-- Someone else submits a vertex that is connected. -/
theorem submit (hF : Fetches archive vx node) (hp : ∀ p ∈ x.parents, p ∈ node.dag.graph)
    {resp : Except (Error H) (HashSet H)}
    (hh : Handled hash config genesis source x node.dag dag' resp) :
    Fetches archive vx { node with dag := dag' } := by
  -- the new vertex is inserted at once, so nothing more is parked
  have hparked {h : H} {y : Vertex H} (hv : dag'.vertex.lookup h = some y) (hg : h ∉ dag'.graph) :
      node.dag.vertex.lookup h = some y ∧ h ∉ node.dag.graph := by
    refine (hh.parked_cases hv hg).resolve_right ?_
    rintro ⟨rfl, _⟩
    exact hg (hh.connected hp)
  refine ⟨hh.unvoted, hh.drained, hh.knows hF.known, fun h y hv hg => ?_, fun h y hv hg p hpy => ?_,
    hF.requested, hF.nodup, fun h hm => ?_, hF.asked, hF.held, hF.responses, hF.running⟩
  · obtain ⟨hv, hg⟩ := hparked hv hg
    exact hF.parked h y hv hg
  · obtain ⟨hv, hg⟩ := hparked hv hg
    exact (hF.lacking h y hv hg p hpy).imp_left hh.knows
  · exact (hF.underway h hm).imp_left hh.knows

/-- Every event that is relied on can be completed where it is due, and keeps the invariants. -/
theorem step (hF : Fetches archive vx node) {event : Event H} (hp : Promised archive node event)
    (hs : node.step hash event = some node') : Fetches archive vx node' := by
  cases event with
  | start =>
    simp only [Node.step] at hs
    split at hs
    · next hphase =>
      have hw : node.wanted = node.task.initial := by rw [Node.wanted, hphase]
      rw [← hw] at hs
      cases hs
      exact hF.request
    · cases hs
  | answer h response =>
    obtain ⟨x, hx, rfl, rfl⟩ := hp
    simp only [Node.step] at hs
    split at hs
    · cases hs
      exact hF.answer hx
    · cases hs
  | receive it =>
    simp only [Node.step] at hs
    split at hs
    · next response responses hphase hr =>
      -- a response that waits is the vertex of an archived hash, so it is handled without error
      obtain ⟨x, hx, rfl⟩ := hF.responses response (hr ▸ List.mem_cons_self)
      obtain ⟨resp, dag', hrun, hh⟩ := (archive.valid x hx).handled hF.unvoted hF.drained it
      simp only [Node.receive, hrun, Option.bind_eq_bind, Option.bind_some, Option.pure_def,
        Option.some.injEq] at hs
      subst hs
      exact hF.receive hphase hr hx hh
    · cases hs
  | resume =>
    simp only [Node.step] at hs
    split at hs
    · next resp hphase =>
      cases hs
      rw [Node.resume_eq hphase]
      exact hF.request
    · cases hs
  | submit x it =>
    obtain ⟨hx, hp⟩ := hp
    obtain ⟨resp, dag', hrun, hh⟩ := hx.handled hF.unvoted hF.drained it
    simp only [Node.step, hrun, Option.bind_eq_bind, Option.bind_some, Option.pure_def,
      Option.some.injEq] at hs
    subst hs
    exact hF.submit hp hh

/-- The fetcher is started for the parents that a vertex misses. -/
theorem spawn (hu : Unvoted hash config genesis source dag)
    (hunparked : ∀ h ∈ dag.vertex, h ∈ dag.graph) (hvx : vx ∈ archive.vertices)
    {missing : List H} (hrun : dag.tryInsert hash it vx = some (.error (.missingParents missing), dag'))
    (peer : Peer) : Fetches archive vx (.spawn dag' peer missing) := by
  have hdr : dag.Drained hash := fun h y hv hg =>
    absurd (hunparked h (Finmap.mem_of_lookup_eq_some hv)) hg
  obtain ⟨resp, dag₁, hsubmit, hh⟩ := (archive.valid vx hvx).handled hu hdr it
  have hd : Sound hash genesis dag := sound_of_reachable hu.reachable
  have hresp : some (resp, dag₁) = some (.error (.missingParents missing), dag') := by
    rw [← hsubmit, DAG.submitVertex, hrun]
    rfl
  cases hresp
  -- nothing has been parked before, so the vertex is the only one
  have hparked {h : H} {y : Vertex H} (hv : dag'.vertex.lookup h = some y) (hg : h ∉ dag'.graph) :
      h = hash vx ∧ y = vx := by
    refine (hh.parked_cases hv hg).resolve_left ?_
    rintro ⟨hv, hg⟩
    exact hg (hunparked h (Finmap.mem_of_lookup_eq_some hv))
  refine ⟨hh.unvoted, hh.drained, hh.known, fun h y hv hg => ?_, fun h y hv hg p hp => ?_,
    fun h => ?_, List.nodup_nil, fun h hm => absurd hm List.not_mem_nil,
    fun h hm => absurd hm List.not_mem_nil, fun h hm => ?_,
    fun response hm => absurd hm List.not_mem_nil, fun h => by cases h⟩
  · obtain ⟨_, rfl⟩ := hparked hv hg
    exact hvx
  · obtain ⟨rfl, rfl⟩ := hparked hv hg
    rcases hh.wanted hg p hp with hk | ⟨_, hresp, hpm⟩
    · exact Or.inl hk
    · cases hresp
      exact Or.inr (Or.inr hpm)
  · exact iff_of_false (Finset.notMem_empty h) List.not_mem_nil
  · have hmissing : h ∈ missing := hm.resolve_left List.not_mem_nil
    obtain ⟨hpx, hpk⟩ := hh.missing missing rfl h hmissing
    refine archive.holds_of_parent ⟨vx, hvx, rfl, hpx⟩ ?_
    rintro rfl
    exact hpk (hd.known hd.shaped.root_mem)

/-- When nothing is left to be answered, no vertex is parked any longer. -/
theorem unparked (hF : Fetches archive vx node) (hq : node.Quiet) :
    ∀ h ∈ node.dag.vertex, h ∈ node.dag.graph := by
  have hd : Sound hash genesis node.dag := sound_of_reachable hF.unvoted.reachable
  -- every parent that was missing has been requested, and answered
  have hknown {h : H} {x : Vertex H} (hv : node.dag.vertex.lookup h = some x)
      (hg : h ∉ node.dag.graph) (p : H) (hp : p ∈ x.parents) : p ∈ node.dag.vertex := by
    have hw : node.wanted = [] := by rw [Node.wanted, hq.phase]
    rcases hF.lacking h x hv hg p hp with hk | hr | hw'
    · exact hk
    · rcases hF.underway p hr with hk | ho | ⟨y, hy, _⟩
      · exact hk
      · exact absurd (hq.outstanding ▸ ho) List.not_mem_nil
      · exact absurd (hq.responses ▸ hy) List.not_mem_nil
    · exact absurd (hw ▸ hw') List.not_mem_nil
  -- a parked vertex comes from the archive, so its parents are inserted by induction
  have hheld (h : H) (hh : archive.Holds h) : h ∈ node.dag.vertex → h ∈ node.dag.graph := by
    refine archive.induction (P := fun h => h ∈ node.dag.vertex → h ∈ node.dag.graph)
      (fun h _ ih hk => ?_) hh
    by_contra hg
    obtain ⟨x, hv⟩ := Finmap.mem_iff.mp hk
    have hx := hF.parked h x hv hg
    have hhash := hd.hash_eq h x hv
    have hparents : ∀ p ∈ x.parents, p ∈ node.dag.graph := by
      intro p hp
      have hip : IsParentIn hash archive.vertices p h := ⟨x, hx, hhash, hp⟩
      by_cases hroot : p = hash genesis
      · rw [hroot]
        exact hd.shaped.root_mem
      · exact ih p (archive.holds_of_parent hip hroot) hip (hknown hv hg p hp)
    have hok := (archive.valid x hx).passes node.dag .ascending hF.unvoted (hhash ▸ hg) hparents
    exact hF.drained h x hv hg hparents .ascending hok
  intro h hk
  by_contra hg
  obtain ⟨x, hv⟩ := Finmap.mem_iff.mp hk
  exact hg (hheld h ⟨x, hF.parked h x hv hg, hd.hash_eq h x hv⟩ hk)

/-- As long as something is left to be done, the fetch goes on. -/
theorem goes_on (hF : Fetches archive vx node) (hq : ¬ node.Quiet) (it : HashOrders H) :
    ∃ event node', Promised archive node event ∧ event.OfFetch ∧
      node.step hash event = some node' := by
  cases hphase : node.phase with
  | spawned => exact ⟨.start, _, trivial, trivial, by rw [Node.step, hphase]⟩
  | submitting resp => exact ⟨.resume, _, trivial, trivial, by rw [Node.step, hphase]⟩
  | returned => exact absurd hphase hF.running
  | receiving =>
    cases hr : node.responses with
    | cons response responses =>
      obtain ⟨x, hx, rfl⟩ := hF.responses response (hr ▸ List.mem_cons_self)
      obtain ⟨resp, dag', hrun, _⟩ := (archive.valid x hx).handled hF.unvoted hF.drained it
      let node' : Node H Peer :=
        { node with dag := dag', responses := responses, phase := .submitting resp }
      refine ⟨.receive it, node', trivial, trivial, ?_⟩
      simp only [Node.step, hphase, hr, Node.receive, hrun, Option.bind_eq_bind, Option.bind_some]
      rfl
    | nil =>
      cases ho : node.outstanding with
      | nil => exact absurd ⟨hphase, ho, hr⟩ hq
      | cons h outstanding =>
        have hmem : h ∈ node.outstanding := ho ▸ List.mem_cons_self
        obtain ⟨x, hx, hhx⟩ := hF.held h (Or.inl (hF.asked h hmem))
        have hpromised : Promised archive node (.answer h (.vertex x)) := ⟨x, hx, hhx, rfl⟩
        have hanswer : node.outstanding.contains h = true := List.contains_iff_mem.mpr hmem
        exact ⟨.answer h (.vertex x), _, hpromised, trivial, by rw [Node.step, if_pos hanswer]⟩

end Fetches

/-- Invariants hold along every run, whatever the order of the answers. -/
theorem fetches_of_reachable {archive : Archive hash config genesis source} {node : Node H Peer}
    (hu : Unvoted hash config genesis source dag) (hunparked : ∀ h ∈ dag.vertex, h ∈ dag.graph)
    (hvx : vx ∈ archive.vertices) {missing : List H}
    (hrun : dag.tryInsert hash it vx = some (.error (.missingParents missing), dag')) {peer : Peer}
    (hnode : (system hash dag' peer missing).ReachableWhen (Promised archive) node) :
    Fetches archive vx node := by
  refine hnode.invariant (P := Fetches archive vx) ?_ ?_
  · rintro node rfl
    exact .spawn hu hunparked hvx hrun peer
  · exact fun node event node' _ hF hp hs => hF.step hp hs

end Fetcher

/-- Below an inserted vertex of the archive, all of its ancestors are inserted. -/
theorem Archive.ancestor_mem (archive : Archive hash config genesis source)
    (hcf : Vertex.CollisionFree hash (insert genesis source))
    (hu : Unvoted hash config genesis source dag) {k : H}
    (hanc : TransGen (IsParentIn hash archive.vertices) h k) (hk : k ∈ dag.graph) :
    h ∈ dag.graph := by
  have hC : Collected hash genesis source dag := hu.collected
  refine hanc.closed' (P := fun k => k ∈ dag.graph) ?_ hk
  rintro p k ⟨x, hx, rfl, hp⟩ hk
  obtain ⟨y, hy⟩ := Finmap.mem_iff.mp hk
  have hsame : y.SameWire x :=
    hC.sameWire hcf (archive.valid x hx).mem (hC.sound.inserted_known _ y hy)
  exact hC.sound.shaped.parent_mem ⟨y, hy, hsame.2.2.1 ▸ hp⟩

namespace Fork

/-- One branch of the fork, without the genesis vertex. -/
def branch : List (Vertex Digest) := [a, b, ab, abTip]

def inBranch : Set (Vertex Digest) := fun vx => vx ∈ branch

instance : DecidablePred (· ∈ inBranch) := fun vx => inferInstanceAs (Decidable (vx ∈ branch))

/-- A node that is handed the branch inserts it. -/
theorem branch_inserted : ∃ dag, Unvoted Vertex.wire ⟨2, 1⟩ root inBranch dag ∧
    ∀ vx ∈ branch, dag.graph.lookup vx.wire = some vx ∧ vx.wire ≠ root.wire :=
  reachable_of_run rfl rfl (run branch []) (by decide +kernel)

theorem branch_valid (vx : Vertex Digest) (h : vx ∈ branch) :
    Valid Vertex.wire ⟨2, 1⟩ root inBranch vx := by
  obtain ⟨dag, hu, hin⟩ := branch_inserted
  obtain ⟨hl, hne⟩ := hin vx h
  exact .of_inserted (Vertex.wire_collisionFree _) hu h hl hne

/-- The height of a vertex of the branch. -/
def heightOf (h : Digest) : Nat := ((branch.find? fun vx => vx.wire = h).map Vertex.height).getD 0

def archive : Archive Vertex.wire ⟨2, 1⟩ root inBranch where
  vertices := branch
  valid := branch_valid
  closed := by decide +kernel
  acyclic h hcycle := by
    have hstep : ∀ x ∈ branch, ∀ p ∈ x.parents, heightOf p < heightOf x.wire := by decide +kernel
    have hlt {p k : Digest} (hpk : TransGen (IsParentIn Vertex.wire branch) p k) :
        heightOf p < heightOf k := by
      induction hpk with
      | single hp =>
        obtain ⟨x, hx, rfl, hpx⟩ := hp
        exact hstep x hx _ hpx
      | tail _ hp ih =>
        obtain ⟨x, hx, rfl, hpx⟩ := hp
        exact ih.trans (hstep x hx _ hpx)
    exact (hlt hcycle).false

/-- The graph of the genesis vertex, after the tip of the branch has been refused. -/
def refused : DAG Digest :=
  (DAG.start Vertex.wire ⟨2, 1⟩ root).park Vertex.wire abTip (.missingParents [ab.wire])

/-- The parents of `ab` arrive in the opposite order. -/
def fetch : List (Fetcher.Event Digest) :=
  [.start, .answer ab.wire (.vertex ab), .receive .ascending, .resume,
    .answer b.wire (.vertex b), .answer a.wire (.vertex a), .receive .ascending, .resume,
    .receive .ascending, .resume]

theorem fetch_promised (node : Fetcher.Node Digest Nat) (event : Fetcher.Event Digest)
    (h : event ∈ fetch) : Fetcher.Promised archive node event := by
  have hanswer (x : Vertex Digest) (hx : x ∈ branch) :
      Fetcher.Promised archive node (.answer x.wire (.vertex x)) := ⟨x, hx, rfl, rfl⟩
  simp only [fetch, List.mem_cons, List.not_mem_nil, or_false] at h
  rcases h with rfl | rfl | rfl | rfl | rfl | rfl | rfl | rfl | rfl | rfl
  · trivial
  · exact hanswer ab (by simp [branch])
  · trivial
  · trivial
  · exact hanswer b (by simp [branch])
  · exact hanswer a (by simp [branch])
  · trivial
  · trivial
  · trivial
  · trivial

/-- The tip of the branch waits for its parent. -/
theorem tryInsert_abTip : (DAG.start Vertex.wire ⟨2, 1⟩ root).tryInsert Vertex.wire .ascending abTip =
    some (.error (.missingParents [ab.wire]), refused) :=
  tryInsert_of_err (by decide +kernel)

/-- The fetch ends with nothing outstanding, whatever is asked of its events. -/
theorem fetch_quiet {E : Fetcher.Node Digest Nat → Fetcher.Event Digest → Prop}
    (hE : ∀ node, ∀ event ∈ fetch, E node event) : ∃ node,
    (Fetcher.system Vertex.wire refused 7 [ab.wire]).ReachableWhen E node ∧
    node.requestedHashes = [ab.wire, a.wire, b.wire] ∧ node.Quiet := by
  have hfetch : ∃ node ∈ fetch.foldlM (Fetcher.Node.step Vertex.wire) (.spawn refused 7 [ab.wire]),
      node.requestedHashes = [ab.wire, a.wire, b.wire] ∧
        node.phase = .receiving ∧ node.outstanding = [] ∧ node.responses = [] := by
    decide +kernel
  obtain ⟨node, hrun, hreq, hphase, hout, hresp⟩ := hfetch
  have hstart : (Fetcher.system Vertex.wire refused 7 [ab.wire]).Run []
      (.spawn refused 7 [ab.wire]) := .init rfl
  obtain ⟨later, hlater, hevents⟩ := hstart.extend fetch hrun
  refine ⟨node, hlater.reachableWhen.mono fun node event hm => hE node event ?_, hreq,
    hphase, hout, hresp⟩
  -- the run records its events with the last one first
  rw [List.append_nil] at hm
  have hmem : event ∈ later.map Prod.snd := List.mem_map_of_mem hm
  rwa [hevents, List.mem_reverse] at hmem

end Fork

/-- Fetching completes the ancestry: in whatever order the answers arrive, no hash is requested
twice, and when nothing is outstanding the vertex and all of its ancestors are inserted. -/
theorem fetching_completes (archive : Archive hash config genesis source)
    (hcf : Vertex.CollisionFree hash (insert genesis source))
    (hu : Unvoted hash config genesis source dag) (hunparked : ∀ h ∈ dag.vertex, h ∈ dag.graph)
    (hvx : vx ∈ archive.vertices) {missing : List H}
    (hrun : dag.tryInsert hash it vx = some (.error (.missingParents missing), dag')) {peer : Peer}
    {node : Fetcher.Node H Peer}
    (hnode : (Fetcher.system hash dag' peer missing).ReachableWhen
      (Fetcher.Promised archive) node) :
    node.requestedHashes.Nodup ∧ (∀ h ∈ node.requestedHashes, archive.Holds h) ∧
    (¬ node.Quiet → ∃ event node', Fetcher.Promised archive node event ∧ event.OfFetch ∧
      node.step hash event = some node') ∧
    (node.Quiet → hash vx ∈ node.dag.graph ∧
      (∀ h, TransGen (IsParentIn hash archive.vertices) h (hash vx) → h ∈ node.dag.graph) ∧
      ∀ h ∈ node.dag.vertex, h ∈ node.dag.graph) := by
  have hF := Fetcher.fetches_of_reachable hu hunparked hvx hrun hnode
  refine ⟨hF.nodup, fun h hh => hF.held h (Or.inl hh), fun hq => hF.goes_on hq .ascending,
    fun hq => ?_⟩
  have hin : hash vx ∈ node.dag.graph := hF.unparked hq (hash vx) hF.known
  exact ⟨hin, fun h hh => archive.ancestor_mem hcf hF.unvoted hh hin, hF.unparked hq⟩

theorem fetching_completes_fork : ∃ node : Fetcher.Node Digest Nat,
    (Fetcher.system Vertex.wire Fork.refused 7 [Fork.ab.wire]).ReachableWhen
      (Fetcher.Promised Fork.archive) node ∧
    node.requestedHashes = [Fork.ab.wire, Fork.a.wire, Fork.b.wire] ∧
    node.requestedHashes.Nodup ∧ node.Quiet ∧ Fork.abTip.wire ∈ node.dag.graph := by
  obtain ⟨node, hnode, hreq, hq⟩ := Fork.fetch_quiet Fork.fetch_promised
  have hinit : (Fork.system ⟨2, 1⟩).init (DAG.start Vertex.wire ⟨2, 1⟩ Fork.root) :=
    start_init rfl rfl
  obtain ⟨hnodup, _, _, hcomplete⟩ := fetching_completes Fork.archive (Vertex.wire_collisionFree _)
    (.init hinit) (fun h hh => hh) (by simp [Fork.archive, Fork.branch]) Fork.tryInsert_abTip hnode
  exact ⟨node, hnode, hreq, hnodup, hq, (hcomplete hq).1⟩

end Taurus
