import Taurus.Delivery
import Taurus.Fetcher

namespace Taurus

variable {H : Type} [LinearOrder H] {hash : Vertex H → H} {it : HashOrders H} {config : Config}
  {genesis vx x : Vertex H} {dag dag' : DAG H} {source : Set (Vertex H)} {h p : H}

/-- An attempt leaves the known vertices as they are, or adds the one it is about. -/
theorem Attempt.vertex_cases (ha : Attempt hash it x dag dag') (hd : Sound hash genesis dag) :
    dag'.vertex = dag.vertex ∨ dag'.vertex = dag.vertex.insert (hash x) x := by
  obtain ⟨_, ht⟩ := ha.tried hd
  cases ht with
  | refused hc =>
    rcases hc.park_cases with hpark | ⟨_, _, hpark⟩
    · exact Or.inl (by rw [hpark])
    · exact Or.inr (by rw [hpark])
  | inserted _ hi => exact Or.inr hi.vertex

/-- Retries know no other vertices. -/
theorem Retries.vertex_eq (hr : Retries hash it dag dag') (hd : Sound hash genesis dag) :
    dag'.vertex = dag.vertex := by
  refine (hr.induct (P := fun t => t.vertex = dag.vertex) hd rfl ?_).2
  intro s h x t hs hP hx ha
  rcases ha.vertex_cases hs with hv | hv
  · rw [hv, hP]
  · rw [hv, ← hP, hs.hash_eq h x hx]
    apply Finmap.ext_lookup
    intro k
    rw [HashMap.lookup_insert]
    split
    · next hk => rw [hk, hx]
    · rfl

/-- A new vertex that lacks a parent is refused for the parents that are not known, or else for
those that wait themselves. -/
theorem checkVertex_of_lacking (it : HashOrders H) (hs : vx.sanityChecks = .ok ())
    (hf : hash vx ∉ dag.graph) (hp : ∃ p ∈ vx.parents, p ∉ dag.graph) :
    dag.checkVertex hash it vx = .err (if ∃ p ∈ vx.parents, p ∉ dag.vertex then
      .missingParents (vx.parents.filter fun p => p ∉ dag.vertex)
    else .waitingOnParents (vx.parents.filter fun p => p ∈ dag.vertex ∧ p ∉ dag.graph)) := by
  rw [DAG.checkVertex, hs]
  simp only [if_neg hf]
  by_cases hmiss : ∃ p ∈ vx.parents, p ∉ dag.vertex
  · have hne : (vx.parents.filter fun p => p ∉ dag.vertex) ≠ [] := by
      simpa [List.filter_eq_nil_iff] using hmiss
    rw [if_pos hmiss, if_pos (by simpa using hne)]
  · have hnil : (vx.parents.filter fun p => p ∉ dag.vertex) = [] := by
      simpa [List.filter_eq_nil_iff] using hmiss
    have hne : (vx.parents.filter fun p => p ∈ dag.vertex ∧ p ∉ dag.graph) ≠ [] := by
      obtain ⟨p, hpv, hpg⟩ := hp
      have hknown : p ∈ dag.vertex := by
        by_contra hpn
        exact hmiss ⟨p, hpv, hpn⟩
      exact List.ne_nil_of_mem (List.mem_filter.mpr ⟨hpv, by simp [hknown, hpg]⟩)
    rw [if_neg hmiss, hnil]
    simp only [List.isEmpty_nil, Bool.not_true, Bool.false_eq_true, if_false]
    rw [if_pos (by simpa using hne)]

/-- Calls that submit vertices of the source, or retry, but record no results. -/
def Submits (source : Set (Vertex H)) (_ : DAG H) (call : Call H) : Prop :=
  match call.op with
  | .tryInsert vx => vx ∈ source
  | .retryPending _ => True
  | .recordQueryResult _ _ => False

instance (source : Set (Vertex H)) [DecidablePred (· ∈ source)] (dag : DAG H) (call : Call H) :
    Decidable (Submits source dag call) :=
  match call with
  | ⟨.tryInsert vx, _⟩ => inferInstanceAs (Decidable (vx ∈ source))
  | ⟨.retryPending _, _⟩ => inferInstanceAs (Decidable True)
  | ⟨.recordQueryResult _ _, _⟩ => inferInstanceAs (Decidable False)

/-- Graphs built from vertices of the source, without results. -/
abbrev Unvoted (hash : Vertex H → H) (config : Config) (genesis : Vertex H)
    (source : Set (Vertex H)) : DAG H → Prop :=
  (DAG.system hash config genesis).ReachableWhen (Submits source)

theorem Unvoted.attempt (hu : Unvoted hash config genesis source dag) (hx : x ∈ source)
    {result : Except (Error H) (HashSet H)}
    (hrun : dag.tryInsert hash it x = some (result, dag')) :
    Unvoted hash config genesis source dag' := by
  refine System.ReachableWhen.step (a := ⟨.tryInsert x, it⟩) hu hx ?_
  show (dag.tryInsert hash it x).map Prod.snd = some dag'
  rw [hrun, Option.map_some]

theorem Unvoted.retry (hu : Unvoted hash config genesis source dag) {hashes : List H}
    {successes : HashSet H} (hrun : dag.retryPending hash it hashes = some (successes, dag')) :
    Unvoted hash config genesis source dag' := by
  refine System.ReachableWhen.step (a := ⟨.retryPending hashes, it⟩) hu trivial ?_
  show (dag.retryPending hash it hashes).map Prod.snd = some dag'
  rw [hrun, Option.map_some]

/-- A vertex of the source that passes `check_vertex` once its parents are inserted. -/
structure Valid (hash : Vertex H → H) (config : Config) (genesis : Vertex H)
    (source : Set (Vertex H)) (vx : Vertex H) : Prop where
  mem : vx ∈ source
  sane : vx.sanityChecks = .ok ()
  passes : ∀ dag it, Unvoted hash config genesis source dag → hash vx ∉ dag.graph →
    (∀ p ∈ vx.parents, p ∈ dag.graph) → dag.checkVertex hash it vx = .ok ()

/-- What the consensus task makes of a valid vertex. -/
structure Handled (hash : Vertex H → H) (config : Config) (genesis : Vertex H)
    (source : Set (Vertex H)) (x : Vertex H) (dag dag' : DAG H)
    (resp : Except (Error H) (HashSet H)) : Prop where
  unvoted : Unvoted hash config genesis source dag'
  drained : dag'.Drained hash
  graph : ∀ h ∈ dag.graph, h ∈ dag'.graph
  vertex : dag'.vertex = dag.vertex ∨ dag'.vertex = dag.vertex.insert (hash x) x
  known : hash x ∈ dag'.vertex
  connected : (∀ p ∈ x.parents, p ∈ dag.graph) → hash x ∈ dag'.graph
  /-- if the vertex is parked, the response names the parents that are not known -/
  wanted : hash x ∉ dag'.graph → ∀ p ∈ x.parents,
    p ∈ dag'.vertex ∨ ∃ missing, resp = .error (.missingParents missing) ∧ p ∈ missing
  missing : ∀ missing, resp = .error (.missingParents missing) →
    ∀ p ∈ missing, p ∈ x.parents ∧ p ∉ dag.vertex

namespace Handled

variable {resp : Except (Error H) (HashSet H)}
  (hh : Handled hash config genesis source x dag dag' resp)
include hh

theorem knows (hk : h ∈ dag.vertex) : h ∈ dag'.vertex := by
  rcases hh.vertex with hv | hv
  · rwa [hv]
  · rw [hv]
    exact Finmap.mem_insert.mpr (Or.inr hk)

theorem parked_cases (hv : dag'.vertex.lookup h = some vx) (hg : h ∉ dag'.graph) :
    dag.vertex.lookup h = some vx ∧ h ∉ dag.graph ∨ h = hash x ∧ vx = x := by
  have hold : h ∉ dag.graph := fun hin => hg (hh.graph h hin)
  rcases hh.vertex with hvertex | hvertex
  · exact Or.inl ⟨hvertex ▸ hv, hold⟩
  · rw [hvertex, HashMap.lookup_insert] at hv
    split at hv
    · next he => exact Or.inr ⟨he, (Option.some.inj hv).symm⟩
    · exact Or.inl ⟨hv, hold⟩

end Handled

namespace Valid

variable (hx : Valid hash config genesis source x) (hu : Unvoted hash config genesis source dag)
  (hdr : dag.Drained hash)
include hx hu hdr

omit hu hdr in
/-- A valid vertex that lacks parents is parked. -/
theorem handled_of_lacking {e : Error H} (hc : dag.checkVertex hash it x = .err e)
    (hu' : Unvoted hash config genesis source (dag.park hash x e))
    (hdr' : (dag.park hash x e).Drained hash) (hf : hash x ∉ dag.graph)
    (hp : ∃ p ∈ x.parents, p ∉ dag.graph) :
    Handled hash config genesis source x dag (dag.park hash x e) (.error e) := by
  have he := Outcome.err.inj (hc.symm.trans (checkVertex_of_lacking it hx.sane hf hp))
  have hvertex : (dag.park hash x e).vertex = dag.vertex.insert (hash x) x := by
    rw [he]
    split <;> rfl
  refine ⟨hu', hdr', fun h hh => ?_, Or.inr hvertex, ?_, fun hin => ?_, fun _ p hpx => ?_, ?_⟩
  · rwa [park_graph]
  · rw [hvertex]
    exact Finmap.mem_insert.mpr (Or.inl rfl)
  · obtain ⟨p, hpx, hpg⟩ := hp
    exact absurd (hin p hpx) hpg
  · by_cases hpk : p ∈ dag.vertex
    · rw [hvertex]
      exact Or.inl (Finmap.mem_insert.mpr (Or.inr hpk))
    · rw [if_pos ⟨p, hpx, hpk⟩] at he
      exact Or.inr ⟨_, congrArg Except.error he, List.mem_filter.mpr ⟨hpx, by simpa using hpk⟩⟩
  · intro missing hresp p hpm
    rw [Except.error.inj hresp] at he
    split at he
    · cases he
      simpa using List.mem_filter.mp hpm
    · cases he

theorem handled_of_err {e : Error H} (hc : dag.checkVertex hash it x = .err e) :
    dag.submitVertex hash it x = some (.error e, dag.park hash x e) ∧
      Handled hash config genesis source x dag (dag.park hash x e) (.error e) := by
  have hd : Sound hash genesis dag := sound_of_reachable hu.reachable
  have hrun := tryInsert_of_err hc
  have hu' : Unvoted hash config genesis source (dag.park hash x e) :=
    Unvoted.attempt hu hx.mem hrun
  have hdr' : (dag.park hash x e).Drained hash := by
    obtain ⟨_, _, hrun', herr, _⟩ := submission_drains hd hdr it x
    cases hrun'.symm.trans hrun
    exact herr e rfl
  refine ⟨by rw [DAG.submitVertex, hrun]; rfl, ?_⟩
  -- once the parents are in the graph, nothing but a repetition is refused
  have hpasses (hr : Ready hash dag x) : False := by
    rw [hx.passes dag it hu hr.fresh hr.parents] at hc
    cases hc
  have hchecked := checkVertex_spec it x hd
  rw [hc] at hchecked
  cases hchecked with
  | vertex hs =>
    rw [hx.sane] at hs
    cases hs
  | alreadyInserted _ hin =>
    refine ⟨hu', hdr', fun h hh => hh, Or.inl rfl, hd.known hin, fun _ => hin, ?_, ?_⟩
    · exact fun hout => absurd hin hout
    · intro missing hresp
      cases hresp
  | missingParents _ hf hp => exact hx.handled_of_lacking hc hu' hdr' hf hp
  | waitingOnParents _ hf hp => exact hx.handled_of_lacking hc hu' hdr' hf hp
  | badHeight hr => exact (hpasses hr).elim
  | rejectedAncestor hr => exact (hpasses hr).elim
  | selfReferentialParent hr => exact (hpasses hr).elim
  | conflictingAncestors hr => exact (hpasses hr).elim

theorem handled_of_ok (hc : dag.checkVertex hash it x = .ok ()) : ∃ resp dag',
    dag.submitVertex hash it x = some (resp, dag') ∧
      Handled hash config genesis source x dag dag' resp := by
  have hd : Sound hash genesis dag := sound_of_reachable hu.reachable
  obtain ⟨waiting, dag₁, hrun, hi, _⟩ := tryInsert_of_ok hd hc
  have hu₁ : Unvoted hash config genesis source dag₁ := Unvoted.attempt hu hx.mem hrun
  have hd₁ : Sound hash genesis dag₁ := sound_of_reachable hu₁.reachable
  obtain ⟨_, _, hrun', _, hok⟩ := submission_drains hd hdr it x
  cases hrun'.symm.trans hrun
  obtain ⟨successes, dag', hret, hdr', _⟩ :=
    hok waiting rfl it (it.vertices.order (some (hash x)) waiting) fun w => it.vertices.mem_order _ _ w
  have hu' : Unvoted hash config genesis source dag' := Unvoted.retry hu₁ hret
  -- the retries know no other vertices, and keep what is in the graph
  have hretries := retryLoop_retries hret
  have hcont := Continues.of_retries hd₁ hretries
  have hvertex : dag'.vertex = dag.vertex.insert (hash x) x :=
    (hretries.vertex_eq hd₁).trans hi.vertex
  have hgraph (h : H) (hh : h = hash x ∨ h ∈ dag.graph) : h ∈ dag'.graph := by
    refine hcont.within.mem ?_
    rw [hi.graph]
    exact Finmap.mem_insert.mpr hh
  have hin : hash x ∈ dag'.graph := hgraph (hash x) (Or.inl rfl)
  refine ⟨.ok waiting, dag', ?_, hu', hdr', fun h hh => hgraph h (Or.inr hh), Or.inr hvertex, ?_,
    fun _ => hin, fun hout => absurd hin hout, ?_⟩
  · simp only [DAG.submitVertex, hrun, hret, Option.bind_eq_bind, Option.bind_some, Option.pure_def]
  · rw [hvertex]
    exact Finmap.mem_insert.mpr (Or.inl rfl)
  · intro missing hresp
    cases hresp

/-- Submitting a valid vertex never panics. -/
theorem handled (it : HashOrders H) : ∃ resp dag', dag.submitVertex hash it x = some (resp, dag') ∧
    Handled hash config genesis source x dag dag' resp := by
  have hd : Sound hash genesis dag := sound_of_reachable hu.reachable
  have hchecked := checkVertex_spec it x hd
  cases hc : dag.checkVertex hash it x with
  | panic =>
    rw [hc] at hchecked
    cases hchecked
  | err e =>
    obtain ⟨hrun, hh⟩ := hx.handled_of_err hu hdr hc
    exact ⟨_, _, hrun, hh⟩
  | ok u => exact hx.handled_of_ok hu hdr hc

end Valid

theorem Collected.attempt (hC : Collected hash genesis source dag) (hx : x = genesis ∨ x ∈ source)
    (ha : Attempt hash it x dag dag') : Collected hash genesis source dag' := by
  obtain ⟨_, ht⟩ := ha.tried hC.sound
  cases ht with
  | refused hc => exact hC.park hx hc
  | inserted hc hi _ => exact hC.insert hx hc hi

/-- Graphs built from the source hold what has been submitted, without rejections. -/
theorem Unvoted.collected (hu : Unvoted hash config genesis source dag) :
    Collected hash genesis source dag := by
  refine System.ReachableWhen.invariant ?_ ?_ hu
  · intro dag hi
    rw [DAG.eq_start_of_init hi]
    exact .start config hi.1
  · intro dag call dag' _ hC hg hs
    rcases apply_cases hs with ⟨x, hop, ha⟩ | ⟨hashes, _, hret⟩ | ⟨w, b, hop, _⟩
    · rw [Submits, hop] at hg
      exact hC.attempt (Or.inr hg) ha
    · -- what is retried is known, so it has been submitted before
      exact (hret.induct (P := Collected hash genesis source) hC.sound hC
        fun s h x t _ hP hx ha => hP.attempt (hP.submitted h x hx) ha).2
    · rw [Submits, hop] at hg
      exact hg.elim

/-- What some graph has inserted, any graph inserts that is built from the same source. -/
theorem Valid.of_inserted (hcf : Vertex.CollisionFree hash (insert genesis source))
    (hu : Unvoted hash config genesis source dag) (hx : x ∈ source)
    (hl : dag.graph.lookup (hash x) = some x) (hne : hash x ≠ hash genesis) :
    Valid hash config genesis source x := by
  have hE : Collected hash genesis source dag := hu.collected
  have hadm : dag.graph.Admits x := hE.admitted (hash x) x hl hne
  refine ⟨hx, hadm.sane, fun D it hD hf hp => ?_⟩
  have hC : Collected hash genesis source D := hD.collected
  -- both graphs agree on the ancestors of the vertex, and neither rejects any
  have hadm' : D.graph.Admits x :=
    (Collected.agree hcf hE hC).admits hE.sound.shaped hC.sound.shaped hp hadm
  have hchecked := checkVertex_spec it x hC.sound
  cases hc : D.checkVertex hash it x with
  | panic =>
    rw [hc] at hchecked
    cases hchecked
  | ok u => rfl
  | err e =>
    rw [hc] at hchecked
    rcases hchecked.refused_of_admits hadm' with ⟨_, hin⟩ | ⟨_, p, _, hrej⟩
    · exact absurd hin hf
    · exact absurd hrej (hC.unvoted _)

end Taurus
