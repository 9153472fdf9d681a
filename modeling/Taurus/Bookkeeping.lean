import Taurus.Attempts
import Taurus.Wire

namespace Taurus

variable {H : Type} [LinearOrder H] {hash : Vertex H → H} {it : HashOrders H}
  {config : Config} {genesis : Vertex H} {dag dag' dag'' : DAG H} {vx : Vertex H}
  {source : Set (Vertex H)} {past : List (DAG H × Call H)} {h : H}

/-- What the maps of vertices say about each other: known vertices come from the source, a
listed child is a known vertex that names its parent, and the frontier holds inserted vertices. -/
structure Indexed (source : Set (Vertex H)) (dag : DAG H) : Prop where
  known : ∀ h vx, dag.vertex.lookup h = some vx → vx ∈ source
  child_names : ∀ p s, dag.children.lookup p = some s → ∀ h ∈ s,
    ∃ vx, dag.vertex.lookup h = some vx ∧ p ∈ vx.parents
  frontier_inserted : ∀ h vx, dag.frontier.lookup h = some vx → dag.graph.lookup h = some vx

theorem lookup_eraseAll {V : Type} {l : List H} {m : HashMap H V} {v : V}
    (hv : (l.foldl (fun m p => m.erase p) m).lookup h = some v) : m.lookup h = some v := by
  induction l generalizing m with
  | nil => exact hv
  | cons p l ih =>
    rw [List.foldl_cons] at hv
    have hm := ih hv
    by_cases hp : h = p
    · subst hp
      rw [show _ = _ from Finmap.lookup_erase h m] at hm
      cases hm
    · rwa [show _ = _ from Finmap.lookup_erase_ne hp] at hm

/-- The new vertex joins the frontier, and the other entries are old ones. -/
theorem InsertedDAG.frontier_inserted (hi : InsertedDAG hash vx dag dag')
    (hf : ∀ h w, dag.frontier.lookup h = some w → dag.graph.lookup h = some w) (h : H)
    (w : Vertex H) (hw : dag'.frontier.lookup h = some w) : dag'.graph.lookup h = some w := by
  rw [hi.frontier, HashMap.lookup_insert] at hw
  rw [hi.graph, HashMap.lookup_insert]
  split at hw
  · next he => rw [if_pos he, hw]
  · next he =>
    rw [if_neg he]
    exact hf h w (lookup_eraseAll hw)

namespace Indexed

theorem start (hg : genesis ∈ source) : Indexed source (DAG.start hash config genesis) where
  known h vx hv := by
    have hl : (DAG.start hash config genesis).graph.lookup h = some vx := hv
    rw [(DAG.lookup_start hl).2]
    exact hg
  child_names p s hs h hh := by
    rw [DAG.children_start hs] at hh
    exact absurd hh (Finset.notMem_empty h)
  frontier_inserted _ _ hv := hv

/-- Listing a vertex with its parents keeps the lists right, whether or not another vertex of
the same hash was known. -/
theorem child_names_mapChild {children : HashMap H (HashSet H)}
    (hI : Indexed source dag) (hd : Sound hash genesis dag)
    (hcf : Vertex.CollisionFree hash source) (hvx : vx ∈ source)
    (hch : ∀ p s, children.lookup p = some s → ∀ h ∈ s, ∃ s', dag.children.lookup p = some s' ∧ h ∈ s')
    (p : H) (s : HashSet H) (hs : (DAG.mapChild children (hash vx) vx.parents).lookup p = some s)
    (h : H) (hh : h ∈ s) :
    ∃ wx, (dag.vertex.insert (hash vx) vx).lookup h = some wx ∧ p ∈ wx.parents := by
  rw [HashMap.lookup_insert]
  by_cases he : h = hash vx
  · refine ⟨vx, if_pos he, ?_⟩
    rcases (mem_mapChild hs).mp hh with ⟨_, hp⟩ | ⟨s', hs', hh'⟩
    · exact hp
    -- an older vertex of that hash agrees on the parents
    · obtain ⟨s₀, hs₀, hh₀⟩ := hch p s' hs' h hh'
      obtain ⟨wx, hw, hp⟩ := hI.child_names p s₀ hs₀ h hh₀
      have hwire := hcf wx (hI.known h wx hw) vx hvx ((hd.hash_eq h wx hw).trans he)
      exact hwire.2.2.1 ▸ hp
  · rw [if_neg he]
    rcases (mem_mapChild hs).mp hh with ⟨hhe, _⟩ | ⟨s', hs', hh'⟩
    · exact absurd hhe he
    · obtain ⟨s₀, hs₀, hh₀⟩ := hch p s' hs' h hh'
      exact hI.child_names p s₀ hs₀ h hh₀

theorem known_insert (hI : Indexed source dag) (hvx : vx ∈ source) (h : H) (w : Vertex H)
    (hw : (dag.vertex.insert (hash vx) vx).lookup h = some w) : w ∈ source := by
  rw [HashMap.lookup_insert] at hw
  split at hw
  · exact Option.some.inj hw ▸ hvx
  · exact hI.known h w hw

theorem attempt (hI : Indexed source dag) (hd : Sound hash genesis dag)
    (hcf : Vertex.CollisionFree hash source) (hvx : vx ∈ source)
    (ha : Attempt hash it vx dag dag') : Indexed source dag' := by
  obtain ⟨_, ht⟩ := ha.tried hd
  cases ht with
  | refused hc =>
    rcases hc.park_cases with hp | ⟨_, _, hp⟩
    · rw [hp]
      exact hI
    · rw [hp]
      refine ⟨hI.known_insert hvx, ?_, hI.frontier_inserted⟩
      exact hI.child_names_mapChild hd hcf hvx fun p s hs h hh => ⟨s, hs, hh⟩
  | inserted hc hi _ =>
    constructor
    · rw [hi.vertex]
      exact hI.known_insert hvx
    · rw [hi.vertex, hi.children]
      refine hI.child_names_mapChild hd hcf hvx fun p s hs h hh => ?_
      rw [HashMap.lookup_tryInsert] at hs
      split at hs
      · cases hs
        exact absurd hh (Finset.notMem_empty h)
      · exact ⟨s, hs, hh⟩
    · exact hi.frontier_inserted hI.frontier_inserted

theorem mono {source' : Set (Vertex H)} (hI : Indexed source dag)
    (hsub : ∀ w ∈ source, w ∈ source') : Indexed source' dag :=
  { hI with known := fun h vx hv => hsub vx (hI.known h vx hv) }

end Indexed

/-- How the pending vertices change when vertices are inserted. -/
structure Enrolls (dag dag' : DAG H) : Prop where
  inserted : ∀ h ∈ dag.graph, h ∈ dag'.graph
  pending_iff : ∀ h, h ∈ dag'.pendingQuery ↔ h ∈ dag.pendingQuery ∨ h ∈ dag'.graph ∧ h ∉ dag.graph

namespace Enrolls

omit [LinearOrder H] in
theorem refl (dag : DAG H) : Enrolls dag dag where
  inserted _ hh := hh
  pending_iff h := by simp

theorem trans (h : Enrolls dag dag') (h' : Enrolls dag' dag'') : Enrolls dag dag'' where
  inserted k hk := h'.inserted k (h.inserted k hk)
  pending_iff k := by
    rw [h'.pending_iff, h.pending_iff]
    have h1 := h.inserted k
    have h2 := h'.inserted k
    tauto

theorem of_attempt (hd : Sound hash genesis dag) (ha : Attempt hash it vx dag dag') :
    Enrolls dag dag' := by
  obtain ⟨_, ht⟩ := ha.tried hd
  cases ht with
  | @refused e hc =>
    have hp : (dag.park hash vx e).pendingQuery = dag.pendingQuery := by cases e <;> rfl
    exact ⟨fun k hk => by rwa [park_graph], fun k => by rw [hp, park_graph]; simp⟩
  | inserted hc hi _ =>
    have hf := hc.ready.fresh
    constructor
    · intro k hk
      rw [hi.graph, Finmap.mem_insert]
      exact Or.inr hk
    · intro k
      rw [hi.pendingQuery, hi.graph, Finmap.mem_insert, Finmap.mem_insert]
      constructor
      · rintro (rfl | hk)
        · exact Or.inr ⟨Or.inl rfl, hf⟩
        · exact Or.inl hk
      · rintro (hk | ⟨hk | hk, hn⟩)
        · exact Or.inr hk
        · exact Or.inl hk
        · exact absurd hk hn

theorem of_retries (hd : Sound hash genesis dag) (hr : Retries hash it dag dag') :
    Enrolls dag dag' :=
  (hr.induct (P := Enrolls dag) hd (.refl dag) fun _ _ _ _ hs hP _ ha => hP.trans (of_attempt hs ha)).2

end Enrolls

/-- Did the step record a result for the vertex, that is, did `record_query_result` return `Ok`? -/
def Records (hash : Vertex H → H) (s : DAG H × Call H) (vhash : H) : Prop :=
  ∃ stronglyPreferred dag', s.2.op = .recordQueryResult vhash stronglyPreferred ∧
    s.1.recordQueryResult hash s.2.it vhash stronglyPreferred = .ok dag'

/-- A refused result is not recorded for any vertex. -/
theorem not_records_of_err {call : Call H} {vhash k : H} {stronglyPreferred : Bool} {e : Error H}
    (ho : call.op = .recordQueryResult vhash stronglyPreferred)
    (he : dag.recordQueryResult hash call.it vhash stronglyPreferred = .err e) :
    ¬ Records hash (dag, call) k := by
  rintro ⟨b, t, ho', hok⟩
  cases ho.symm.trans ho'
  cases he.symm.trans hok

/-- What the past says about the pending vertices: a result has been recorded for the other
inserted ones, but the genesis vertex, and for none of them twice. -/
structure Booked (hash : Vertex H → H) (genesis : Vertex H) (past : List (DAG H × Call H))
    (dag : DAG H) : Prop where
  recorded_inserted : ∀ s ∈ past, ∀ h, Records hash s h → h ∈ dag.graph
  pending_iff : ∀ h, h ∈ dag.pendingQuery ↔
    h ∈ dag.graph ∧ h ≠ hash genesis ∧ ∀ s ∈ past, ¬ Records hash s h
  once : past.Pairwise fun s t => ∀ h, Records hash s h → ¬ Records hash t h

namespace Booked

theorem start (config : Config) : Booked hash genesis [] (DAG.start hash config genesis) where
  recorded_inserted _ hs := by cases hs
  pending_iff h := by
    rw [DAG.mem_pendingQuery_start]
    simp only [List.not_mem_nil, false_implies, implies_true, and_true]
  once := .nil

/-- A step that records nothing adds to the pending vertices what it inserts. -/
theorem enroll {s : DAG H × Call H} (hB : Booked hash genesis past dag)
    (hd : Sound hash genesis dag) (he : Enrolls dag dag') (hs : ∀ h, ¬ Records hash s h) :
    Booked hash genesis (s :: past) dag' where
  recorded_inserted t ht k hk := by
    rcases List.mem_cons.mp ht with rfl | ht
    · exact absurd hk (hs k)
    · exact he.inserted k (hB.recorded_inserted t ht k hk)
  pending_iff k := by
    rw [he.pending_iff, hB.pending_iff]
    simp only [List.mem_cons, forall_eq_or_imp, hs, not_false_eq_true, true_and]
    constructor
    · rintro (⟨hk, hne, hno⟩ | ⟨hk, hn⟩)
      · exact ⟨he.inserted k hk, hne, hno⟩
      · refine ⟨hk, fun hkg => hn (hkg ▸ hd.shaped.root_mem), fun t ht hr => ?_⟩
        exact hn (hB.recorded_inserted t ht k hr)
    · rintro ⟨hk, hne, hno⟩
      by_cases hm : k ∈ dag.graph
      · exact Or.inl ⟨hm, hne, hno⟩
      · exact Or.inr ⟨hk, hm⟩
  once := List.pairwise_cons.mpr ⟨fun _ _ k hk => absurd hk (hs k), hB.once⟩

/-- A step that records a result takes the vertex out of the pending ones. -/
theorem record {s : DAG H × Call H} {vhash : H} (hB : Booked hash genesis past dag)
    (hs : ∀ h, Records hash s h ↔ h = vhash) (hm : vhash ∈ dag.pendingQuery)
    (hgraph : dag'.graph = dag.graph) (hpending : dag'.pendingQuery = dag.pendingQuery.erase vhash) :
    Booked hash genesis (s :: past) dag' where
  recorded_inserted t ht k hk := by
    rw [hgraph]
    rcases List.mem_cons.mp ht with rfl | ht
    · rw [(hs k).mp hk]
      exact ((hB.pending_iff vhash).mp hm).1
    · exact hB.recorded_inserted t ht k hk
  pending_iff k := by
    rw [hgraph, hpending, Finmap.mem_erase, hB.pending_iff]
    simp only [List.mem_cons, forall_eq_or_imp, hs]
    tauto
  once := by
    refine List.pairwise_cons.mpr ⟨fun t ht k hk htk => ?_, hB.once⟩
    rw [(hs k).mp hk] at htk
    exact ((hB.pending_iff vhash).mp hm).2.2 t ht htk

/-- The bookkeeping is right after every run. -/
theorem of_run (hrun : (DAG.system hash config genesis).Run past dag) :
    Booked hash genesis past dag := by
  induction hrun with
  | init hi =>
    rw [DAG.eq_start_of_init hi]
    exact .start config
  | @step past dag dag' call hr hs ih =>
    have hd := sound_of_reachable hr.reachable
    have hnone (hop : ∀ k b, call.op ≠ .recordQueryResult k b) (k : H) :
        ¬ Records hash (dag, call) k := by
      rintro ⟨b, _, ho, _⟩
      exact hop k b ho
    rcases apply_cases hs with ⟨vx, ho, ha⟩ | ⟨hashes, ho, hret⟩ | ⟨vhash, b, ho, hrec⟩
    · exact ih.enroll hd (.of_attempt hd ha) (hnone fun _ _ h => by rw [ho] at h; cases h)
    · exact ih.enroll hd (.of_retries hd hret) (hnone fun _ _ h => by rw [ho] at h; cases h)
    · rcases hrec with ⟨⟨e, he⟩, rfl⟩ | hok
      · exact ih.enroll hd (.refl _) fun _ => not_records_of_err ho he
      · obtain ⟨vx, dag₁, cs, state, hv, hb, _, rfl⟩ := recordQueryResult_eq_ok.mp hok
        obtain ⟨state₀, active, _, rfl, _, _⟩ := beginRecord_eq_some hb
        refine ih.record (fun k => ⟨?_, ?_⟩) (Finmap.mem_of_lookup_eq_some hv) rfl rfl
        · rintro ⟨b', t, ho', _⟩
          rw [ho] at ho'
          cases ho'
          rfl
        · rintro rfl
          exact ⟨b, _, ho, hok⟩

end Booked

/-- The vertices given to a run: the genesis vertex and those submitted so far. -/
def submitted (genesis : Vertex H) (past : List (DAG H × Call H)) : Set (Vertex H) :=
  fun vx => vx = genesis ∨ ∃ s ∈ past, s.2.op = .tryInsert vx

/-- The maps of vertices are right after every run, among whose vertices no hashes collide. -/
theorem Indexed.of_run (hrun : (DAG.system hash config genesis).Run past dag)
    (hsub : ∀ vx ∈ submitted genesis past, vx ∈ source) (hcf : Vertex.CollisionFree hash source) :
    Indexed source dag := by
  induction hrun with
  | init hi =>
    rw [DAG.eq_start_of_init hi]
    exact .start (hsub genesis (Or.inl rfl))
  | @step past dag dag' call hr hs ih =>
    have hd := sound_of_reachable hr.reachable
    have hI : Indexed source dag := ih fun vx hv => hsub vx
      (hv.imp_right fun hv => hv.imp fun s hs => ⟨List.mem_cons_of_mem _ hs.1, hs.2⟩)
    rcases apply_cases hs with ⟨vx, ho, ha⟩ | ⟨hashes, ho, hret⟩ | ⟨vhash, b, ho, hrec⟩
    · exact hI.attempt hd hcf (hsub vx (Or.inr ⟨_, List.mem_cons_self, ho⟩)) ha
    -- what is retried is known, hence submitted before
    · exact (hret.induct (P := Indexed source) hd hI fun s h vx t hs hP hv ha =>
        hP.attempt hs hcf (hP.known h vx hv) ha).2
    · rcases hrec with ⟨_, rfl⟩ | hok
      · exact hI
      · obtain ⟨vx, dag₁, cs, state, hv, hb, _, rfl⟩ := recordQueryResult_eq_ok.mp hok
        obtain ⟨state₀, active, _, rfl, _, _⟩ := beginRecord_eq_some hb
        exact { hI with }

/-- The bookkeeping maps are exact. -/
theorem bookkeeping_exact (hrun : (DAG.system hash config genesis).Run past dag)
    (hcf : Vertex.CollisionFree hash (submitted genesis past)) :
    (∀ h vx, dag.graph.lookup h = some vx → dag.vertex.lookup h = some vx) ∧
    (∀ p h, (∃ s, dag.children.lookup p = some s ∧ h ∈ s) ↔
      ∃ vx, dag.vertex.lookup h = some vx ∧ p ∈ vx.parents) ∧
    (∀ h vx, dag.frontier.lookup h = some vx ↔
      dag.graph.lookup h = some vx ∧ ∀ k, ¬ dag.graph.IsParent h k) ∧
    (∀ h, h ∈ dag.pendingQuery ↔
      h ∈ dag.graph ∧ h ≠ hash genesis ∧ ∀ s ∈ past, ¬ Records hash s h) ∧
    (past.Pairwise fun s t => ∀ h, Records hash s h → ¬ Records hash t h) ∧
    ∀ it vx waiting dag', Vertex.CollisionFree hash (insert vx (submitted genesis past)) →
      dag.tryInsert hash it vx = some (.ok waiting, dag') →
      ∀ w, w ∈ waiting ↔ w ∉ dag'.graph ∧
        ∃ wx, dag'.vertex.lookup w = some wx ∧ hash vx ∈ wx.parents := by
  have hd := sound_of_reachable hrun.reachable
  have hI : Indexed (submitted genesis past) dag := .of_run hrun (fun _ hv => hv) hcf
  have hB : Booked hash genesis past dag := .of_run hrun
  refine ⟨hd.inserted_known, fun p h => ⟨?_, ?_⟩, fun h vx => ⟨fun hv => ?_, ?_⟩, hB.pending_iff,
    hB.once, fun it vx waiting dag' hcf' hr w => ?_⟩
  · rintro ⟨s, hs, hh⟩
    exact hI.child_names p s hs h hh
  · rintro ⟨vx, hv, hp⟩
    exact hd.children_listed h vx hv p hp
  · exact ⟨hI.frontier_inserted h vx hv, ((hd.frontier_iff h).mp (Finmap.mem_of_lookup_eq_some hv)).2⟩
  · -- a vertex without children is on the frontier, under the only vertex of its hash
    rintro ⟨hv, hno⟩
    have hm : h ∈ dag.frontier := (hd.frontier_iff h).mpr ⟨Finmap.mem_of_lookup_eq_some hv, hno⟩
    obtain ⟨wx, hw⟩ := Finmap.mem_iff.mp hm
    cases hv.symm.trans (hI.frontier_inserted h wx hw)
    exact hw
  · obtain ⟨r, hr', ht⟩ := tryInsert_spec it hd vx
    cases hr.symm.trans hr'
    have hI' : Indexed (insert vx (submitted genesis past)) dag' :=
      (hI.mono fun _ hv => Set.mem_insert_of_mem vx hv).attempt hd hcf' (Set.mem_insert vx _)
        ⟨_, hr⟩
    have hd' : Sound hash genesis dag' := ht.sound hd
    cases ht with
    | inserted _ _ hw =>
      rw [hw]
      refine and_congr_right fun _ => ⟨?_, ?_⟩
      · rintro ⟨s, hs, hws⟩
        exact hI'.child_names _ s hs w hws
      · rintro ⟨wx, hwx, hp⟩
        exact hd'.children_listed w wx hwx _ hp

/-- A tip that came before its parent waits among the children of that parent, and is what
the insertion of the parent returns. -/
theorem bookkeeping_exact_waiting : ∃ dag dag' : DAG Digest, ∃ waiting,
    dag.tryInsert Vertex.wire .ascending Fork.ab = some (.ok waiting, dag') ∧
      Fork.abTip.wire ∈ waiting := by
  have hrun : ∃ dag, (Fork.system ⟨2, 2⟩).Reachable dag ∧
      ∃ r ∈ dag.tryInsert Vertex.wire .ascending Fork.ab, r.1.isOk = true ∧
        Fork.abTip.wire ∉ r.2.graph ∧ r.2.vertex.lookup Fork.abTip.wire = some Fork.abTip :=
    reachable_of_run rfl rfl (Fork.run [Fork.abTip, Fork.a, Fork.b] []) (by decide +kernel)
  obtain ⟨dag, hr, ⟨result, dag'⟩, htry, hok, hn, hv⟩ := hrun
  obtain ⟨past, hpast⟩ := hr.exists_run
  cases result with
  | error e => cases hok
  | ok waiting =>
    have hexact := (bookkeeping_exact hpast (Vertex.wire_collisionFree _)).2.2.2.2.2 _ _ _ _
      (Vertex.wire_collisionFree _) htry Fork.abTip.wire
    exact ⟨dag, dag', waiting, htry, hexact.mpr ⟨hn, _, hv, by decide⟩⟩

end Taurus
