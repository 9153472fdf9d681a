import Taurus.Admission
import Taurus.Attempts
import Taurus.Wire

namespace Taurus

open Relation

variable {H : Type} [LinearOrder H] {hash : Vertex H → H} {it it' : HashOrders H}
  {config : Config} {genesis vx : Vertex H} {dag dag' dag'' : DAG H} {a b u : H}

/-- The loop of `retry_pending` never panics and never runs out of fuel. -/
theorem retryPending_total (it : HashOrders H) (hd : Sound hash genesis dag) (hashes : List H) :
    ∃ r, dag.retryPending hash it hashes = some r := by
  obtain ⟨successes, dag', hrun, _⟩ := retryPending_spec it (Q := fun _ _ => True)
    (fun _ _ _ _ _ _ => trivial) (fun _ _ _ _ _ _ _ _ _ _ => trivial)
    (fun _ _ _ _ _ _ _ _ _ _ _ _ _ => trivial) hd hashes trivial
  exact ⟨_, hrun⟩

/-- In a graph that has fewer vertices than a machine word counts, the height of a vertex
above an inserted one does not overflow. -/
theorem height_succ_lt (hd : Sound hash genesis dag) (hg : genesis.height = 0)
    (hcard : dag.vertex.keys.card < 2 ^ 64 - 1) {v : H} (hv : v ∈ dag.graph) :
    1 + dag.graph.height v < 2 ^ 64 := by
  have hb := (hd.shaped.height_bounds hv).2
  have hc : dag.graph.keys.card ≤ dag.vertex.keys.card := hd.card_le
  omega

/-- Reads and inserts never panic, and each inserted vertex can be queried. -/
theorem reads_and_inserts_total (h : (DAG.system hash config genesis).Reachable dag)
    (hg : genesis.height = 0) (hcard : dag.vertex.keys.card < 2 ^ 64 - 1) :
    (∀ it vx, dag.tryInsert hash it vx ≠ none) ∧
    (∀ it hashes, dag.retryPending hash it hashes ≠ none) ∧
    (∀ it v, dag.query hash it v ≠ .panic) ∧
    (∀ v, dag.isPreferred v ≠ .panic) ∧
    (∀ it, dag.getFrontier hash it ≠ none) ∧
    (∀ v ∈ dag.graph, 1 + dag.graph.height v < 2 ^ 64) ∧
    ∀ it, ∀ v ∈ dag.graph, ∃ result, dag.query hash it v = .ok result := by
  have hd := sound_of_reachable h
  have hquery (it : HashOrders H) (v : H) (hv : v ∈ dag.graph) :
      ∃ result, dag.query hash it v = .ok result := by
    obtain ⟨b, hb, _⟩ := query_spec it hd hv
    exact ⟨_, hb⟩
  refine ⟨fun it vx => ?_, fun it hashes => ?_, fun it v => ?_, fun v => ?_, fun it => ?_,
    fun v hv => height_succ_lt hd hg hcard hv, hquery⟩
  · obtain ⟨r, hr, _⟩ := tryInsert_spec it hd vx
    simp [hr]
  · obtain ⟨r, hr⟩ := retryPending_total it hd hashes
    simp [hr]
  · by_cases hv : v ∈ dag.graph
    · obtain ⟨result, hr⟩ := hquery it v hv
      simp [hr]
    · rcases query_outside hash it hv with hr | hr <;> simp [hr]
  · by_cases hv : v ∈ dag.graph
    · obtain ⟨vx, hvx⟩ := Finmap.mem_iff.mp hv
      obtain ⟨b, hb, _⟩ := isPreferred_spec hd hvx
      simp [hb]
    · rcases isPreferred_outside hv with hr | hr <;> simp [hr]
  · obtain ⟨l, _, hl, _⟩ := getFrontier_spec it hd
    simp [hl]

/-- The fork with one branch rejected answers on the tip of that branch. -/
theorem reads_and_inserts_total_fork : ∃ dag : DAG Digest,
    dag.decisionOn Fork.ab.wire = some false ∧
      ∃ result, dag.query Vertex.wire .ascending Fork.abTip.wire = .ok result := by
  obtain ⟨dag, _, hr, _, ⟨hin, hq, _, _, hcard⟩, _⟩ := Fork.branch_rejected
  have hrej := ((query_final_iff (sound_of_reachable hr) _ _).mp hq).2
  exact ⟨dag, hrej, (reads_and_inserts_total hr rfl hcard).2.2.2.2.2.2 _ _ hin⟩

/-- Relations that agree below a closed set have the same lines into it. -/
theorem reflTransGen_iff_of_closed {α : Type} {r s : α → α → Prop} {S : α → Prop}
    (hclosed : ∀ a b, S b → s a b → S a) (hrs : ∀ a b, S b → (r a b ↔ s a b)) {a b : α} (hb : S b) :
    ReflTransGen r a b ↔ ReflTransGen s a b := by
  constructor
  · intro h
    induction h with
    | refl => exact .refl
    | @tail c b _ hcb ih =>
      have hs := (hrs c b hb).mp hcb
      exact (ih (hclosed c b hb hs)).tail hs
  · intro h
    induction h with
    | refl => exact .refl
    | @tail c b _ hs ih => exact (ih (hclosed c b hb hs)).tail ((hrs c b hb).mpr hs)

namespace Graph

/-- Are the vertices of the first graph in the second one as well? -/
def Within (graph graph' : Graph H) : Prop :=
  ∀ h vx, graph.lookup h = some vx → graph'.lookup h = some vx

namespace Within

variable {graph graph' : Graph H} (h : graph.Within graph')
include h

theorem mem (ha : a ∈ graph) : a ∈ graph' := by
  obtain ⟨vx, hv⟩ := Finmap.mem_iff.mp ha
  exact Finmap.mem_of_lookup_eq_some (h a vx hv)

theorem lookup_eq (ha : a ∈ graph) : graph'.lookup a = graph.lookup a := by
  obtain ⟨vx, hv⟩ := Finmap.mem_iff.mp ha
  rw [hv, h a vx hv]

theorem isParent_iff (hb : b ∈ graph) : graph'.IsParent a b ↔ graph.IsParent a b := by
  rw [IsParent, h.lookup_eq hb]
  rfl

theorem height_eq (hb : b ∈ graph) : graph'.height b = graph.height b := by
  rw [height, h.lookup_eq hb]
  rfl

theorem commitments_eq (hb : b ∈ graph) : graph'.commitments b = graph.commitments b := by
  rw [commitments, h.lookup_eq hb]
  rfl

theorem registered {c : Constraint H} (hc : graph.Registered c) : graph'.Registered c := by
  obtain ⟨k, hk, hc⟩ := hc
  exact ⟨k, h.mem hk, by rwa [h.commitments_eq hk]⟩

end Within

end Graph

/-- The second graph contains the first, with the same decisions and preferences there. -/
structure Continues (dag dag' : DAG H) : Prop where
  inserted : ∀ h vx, dag.graph.lookup h = some vx → dag'.graph.lookup h = some vx
  decisions : ∀ c, dag.graph.Registered c → decisionOf dag'.state c = decisionOf dag.state c
  preferences : ∀ c, dag.graph.Registered c → (Prefers dag'.state c ↔ Prefers dag.state c)

namespace Continues

theorem refl (dag : DAG H) : Continues dag dag where
  inserted _ _ h := h
  decisions _ _ := rfl
  preferences _ _ := Iff.rfl

theorem trans (h : Continues dag dag') (h' : Continues dag' dag'') : Continues dag dag'' where
  inserted k vx hv := h'.inserted k vx (h.inserted k vx hv)
  decisions c hc :=
    (h'.decisions c (Graph.Within.registered h.inserted hc)).trans (h.decisions c hc)
  preferences c hc :=
    (h'.preferences c (Graph.Within.registered h.inserted hc)).trans (h.preferences c hc)

theorem within (h : Continues dag dag') : dag.graph.Within dag'.graph := h.inserted

section Ancestry

variable (h : Continues dag dag') (hd : Sound hash genesis dag)
include h

theorem decisionOn_eq (hb : b ∈ dag.graph) : dag'.decisionOn b = dag.decisionOn b :=
  h.decisions _ (Graph.registered_unity hb)

include hd

theorem line_iff (hb : b ∈ dag.graph) :
    ReflTransGen dag'.graph.IsParent a b ↔ ReflTransGen dag.graph.IsParent a b :=
  reflTransGen_iff_of_closed (S := (· ∈ dag.graph)) (fun _ _ _ hp => hd.shaped.parent_mem hp)
    (fun _ _ hb => h.within.isParent_iff hb) hb

theorem openLine_iff (hb : b ∈ dag.graph) :
    ReflTransGen dag'.OpenParent a b ↔ ReflTransGen dag.OpenParent a b :=
  reflTransGen_iff_of_closed (S := (· ∈ dag.graph)) (fun _ _ _ hp => hd.shaped.parent_mem hp.1)
    (fun a b hb => by rw [DAG.OpenParent, DAG.OpenParent, h.within.isParent_iff hb, h.decisionOn_eq hb]) hb

theorem endsAt_iff (hb : b ∈ dag.graph) (n : Nat) : dag'.EndsAt b n ↔ dag.EndsAt b n := by
  rw [DAG.EndsAt, DAG.EndsAt, h.decisionOn_eq hb]
  refine or_congr_left (exists_congr fun a => ?_)
  rw [h.openLine_iff hd hb]
  refine and_congr_right fun hab => ?_
  have ha : a ∈ dag.graph := hd.line_mem hb (hab.lift id fun _ _ hp => hp.1)
  rw [h.decisionOn_eq ha, h.within.height_eq ha]

variable (hin : ∀ p ∈ vx.parents, p ∈ dag.graph)
include hin

theorem precedes_iff : dag'.graph.Precedes b vx ↔ dag.graph.Precedes b vx :=
  exists_congr fun p => and_congr_right fun hp => h.line_iff hd (hin p hp)

theorem active_iff : dag'.Active a vx ↔ dag.Active a vx := by
  have hancestor : (∃ b, dag'.graph.IsParent a b ∧ dag'.graph.Precedes b vx ∧
      ∃ p ∈ vx.parents, ∃ n, dag'.EndsAt p n ∧ n < dag'.graph.height b) ↔
      ∃ b, dag.graph.IsParent a b ∧ dag.graph.Precedes b vx ∧
        ∃ p ∈ vx.parents, ∃ n, dag.EndsAt p n ∧ n < dag.graph.height b := by
    refine exists_congr fun b => ?_
    rw [h.precedes_iff hd hin, and_left_comm, and_left_comm (b := dag.graph.Precedes b vx)]
    refine and_congr_right fun hb => ?_
    obtain ⟨q, hq, hbq⟩ := hb
    have hbm := hd.line_mem (hin q hq) hbq
    rw [h.within.isParent_iff hbm, h.within.height_eq hbm]
    refine and_congr_right fun _ => exists_congr fun p => and_congr_right fun hp =>
      exists_congr fun n => ?_
    rw [h.endsAt_iff hd (hin p hp)]
  -- an active ancestor is an old vertex, whose decision has been kept
  have hold (ha : a ∈ vx.parents ∨ ∃ b, dag.graph.IsParent a b ∧ dag.graph.Precedes b vx ∧
      ∃ p ∈ vx.parents, ∃ n, dag.EndsAt p n ∧ n < dag.graph.height b) : a ∈ dag.graph := by
    rcases ha with ha | ⟨b, hab, _⟩
    · exact hin a ha
    · exact hd.shaped.parent_mem hab
  rw [DAG.Active, DAG.Active, hancestor, and_comm, and_comm (a := dag.decisionOn a = none)]
  exact and_congr_right fun ha => by rw [h.decisionOn_eq (hold ha)]

theorem activeConstraint_iff {c : Constraint H} (hv : dag.graph.lookup u = some vx) :
    dag'.ActiveConstraint c vx ↔ dag.ActiveConstraint c vx := by
  have hancestor : (∃ a, dag'.Active a vx ∧ c ∈ dag'.graph.commitments a) ↔
      ∃ a, dag.Active a vx ∧ c ∈ dag.graph.commitments a := by
    refine exists_congr fun a => ?_
    rw [h.active_iff hd hin]
    refine and_congr_right fun ha => ?_
    rw [h.within.commitments_eq (ha.mem hd hin)]
  rw [DAG.ActiveConstraint, DAG.ActiveConstraint, hancestor, and_comm,
    and_comm (a := decisionOf dag.state c = none)]
  refine and_congr_right fun hc => ?_
  rw [h.decisions c (registered_of_committed hv hc)]

end Ancestry

theorem stronglyPreferred_iff (h : Continues dag dag') (hd : Sound hash genesis dag)
    (hu : u ∈ dag.graph) : dag'.StronglyPreferred u ↔ dag.StronglyPreferred u := by
  rw [DAG.StronglyPreferred, DAG.StronglyPreferred, h.decisionOn_eq hu, h.within.lookup_eq hu]
  refine or_congr_right (and_congr_right fun hnone => exists_congr fun vx =>
    and_congr_right fun hv => forall_congr' fun c => ?_)
  obtain ⟨w, hw, hlegal⟩ := hd.exists_parent hu hnone
  cases hv.symm.trans hw
  rw [h.activeConstraint_iff hd hlegal.inserted hv]
  exact imp_congr_right fun hc => h.preferences c (registered_of_committed hv hc.2)

/-- Reads of the vertices of the first graph give the same results in the second. -/
theorem reads_eq (h : Continues dag dag') (hd : Sound hash genesis dag)
    (hd' : Sound hash genesis dag') (hu : u ∈ dag.graph) (it it' : HashOrders H) :
    dag'.query hash it' u = dag.query hash it u ∧ dag'.isPreferred u = dag.isPreferred u := by
  obtain ⟨vx, hv⟩ := Finmap.mem_iff.mp hu
  have hv' := h.inserted u vx hv
  constructor
  · obtain ⟨b, hb, hiff⟩ := query_spec it hd hu
    obtain ⟨b', hb', hiff'⟩ := query_spec it' hd' (Finmap.mem_of_lookup_eq_some hv')
    have hbb : b' = b := by
      rw [Bool.eq_iff_iff, hiff, hiff', h.stronglyPreferred_iff hd hu]
    rw [hb, hb', hbb, h.decisionOn_eq hu]
  · obtain ⟨b, hb, hiff⟩ := isPreferred_spec hd hv
    obtain ⟨b', hb', hiff'⟩ := isPreferred_spec hd' hv'
    have hbb : b' = b := by
      rw [Bool.eq_iff_iff, hiff, hiff']
      refine forall_congr' fun c => imp_congr_right fun hc => h.preferences c ?_
      exact Graph.registered_of_mem_commitments (by rwa [Graph.commitments_of_lookup hv])
    rw [hb, hb', hbb]

/-- Whether an attempt inserts the vertex or refuses it, the old graph is continued. -/
theorem of_attempt (hd : Sound hash genesis dag) (ha : Attempt hash it vx dag dag') :
    Continues dag dag' := by
  obtain ⟨result, ht⟩ := ha.tried hd
  have hg := ha.grown
  refine ⟨fun k v hv => ?_, fun c hc => hg.decisionOf_eq (hd.stores.mem_of_registered hc),
    fun c hc => hg.prefers_iff (hd.stores.mem_of_registered hc)⟩
  cases ht with
  | refused _ => rw [park_graph, hv]
  | inserted hc hi _ =>
    rw [hi.graph, HashMap.lookup_insert, if_neg, hv]
    rintro rfl
    exact hc.ready.fresh (Finmap.mem_of_lookup_eq_some hv)

theorem of_retries (hd : Sound hash genesis dag) (hr : Retries hash it dag dag') :
    Continues dag dag' := by
  refine (hr.induct (P := Continues dag) hd (.refl dag) ?_).2
  exact fun s _ vx t hs hP _ ha => hP.trans (of_attempt hs ha)

/-- A negative vote resets a counter, and decides or prefers nothing. -/
theorem voteAgainst_frame {s t : StateMap H} {c : Constraint H} (h : DAG.voteAgainst s c = some t) :
    ∀ d, decisionOf t d = decisionOf s d ∧ (Prefers t d ↔ Prefers s d) := by
  obtain ⟨cs, hcs, rfl⟩ := voteAgainst_eq_some h
  exact fun d => ⟨congrFun (decisionOf_insert_of_eq hcs (by rfl)) d,
    prefers_insert_of_eq hcs (by rfl) d⟩

theorem of_negative {vhash : H} (h : dag.recordQueryResult hash it vhash false = .ok dag') :
    Continues dag dag' := by
  obtain ⟨vx, dag₁, cs, state, _, hb, hf, rfl⟩ := recordQueryResult_eq_ok.mp h
  obtain ⟨state₀, active, haward, rfl, _, rfl⟩ := beginRecord_eq_some hb
  cases haward
  have hframe := foldlM_rel (R := fun s t => ∀ d, decisionOf t d = decisionOf s d ∧
      (Prefers t d ↔ Prefers s d)) (fun _ _ => ⟨rfl, Iff.rfl⟩)
    (fun _ _ _ h1 h2 d => ⟨(h2 d).1.trans (h1 d).1, (h2 d).2.trans (h1 d).2⟩) _
    (fun _ _ _ _ hv => voteAgainst_frame hv) hf
  exact ⟨fun _ _ hv => hv, fun c _ => (hframe c).1, fun c _ => (hframe c).2⟩

end Continues

/-- Only positive results change what is preferred: every other call leaves the reads of the
inserted vertices as they were; and a refused vertex leaves graph, votes, pending vertices and
frontier as they were. -/
theorem only_positive_results_change_reads (h : (DAG.system hash config genesis).Reachable dag) :
    (∀ call dag', dag.apply hash call = some dag' →
      (∀ vhash, call.op = .recordQueryResult vhash true →
        ∃ e, dag.recordQueryResult hash call.it vhash true = .err e) →
      ∀ u ∈ dag.graph, ∀ it it', dag'.query hash it' u = dag.query hash it u ∧
        dag'.isPreferred u = dag.isPreferred u) ∧
    ∀ it vx e dag', dag.tryInsert hash it vx = some (.error e, dag') →
      dag'.graph = dag.graph ∧ dag'.state = dag.state ∧ dag'.pendingQuery = dag.pendingQuery ∧
        dag'.frontier = dag.frontier := by
  have hd := sound_of_reachable h
  refine ⟨fun call dag' happ hneg u hu it it' => ?_, fun it vx e dag' hr => ?_⟩
  · have hd' : Sound hash genesis dag' := sound_of_reachable (.step h trivial happ)
    have hcont : Continues dag dag' := by
      rcases apply_cases happ with ⟨vx, _, ha⟩ | ⟨hashes, _, hr⟩ | ⟨vhash, b, hop, hrec⟩
      · exact .of_attempt hd ha
      · exact .of_retries hd hr
      · rcases hrec with ⟨_, rfl⟩ | hok
        · exact .refl _
        cases b with
        | false => exact .of_negative hok
        | true =>
          obtain ⟨e, he⟩ := hneg vhash hop
          rw [hok] at he
          cases he
    exact hcont.reads_eq hd hd' hu it it'
  · obtain ⟨r, hr', ht⟩ := tryInsert_spec it hd vx
    cases hr.symm.trans hr'
    cases ht with
    | refused _ => cases e <;> exact ⟨rfl, rfl, rfl, rfl⟩

/-- Inserting the other branch of the fork leaves the first one preferred. -/
theorem only_positive_results_change_reads_fork : ∃ dag dag' : DAG Digest,
    dag.apply Vertex.wire ⟨.tryInsert Fork.ba, .ascending⟩ = some dag' ∧
      dag.query Vertex.wire .ascending Fork.ab.wire = .ok (true, false) ∧
      dag'.query Vertex.wire .ascending Fork.ab.wire = .ok (true, false) := by
  have hrun : ∃ dag, (Fork.system ⟨2, 2⟩).Reachable dag ∧ Fork.ab.wire ∈ dag.graph ∧
      dag.query Vertex.wire .ascending Fork.ab.wire = .ok (true, false) ∧
      (dag.apply Vertex.wire ⟨.tryInsert Fork.ba, .ascending⟩).isSome :=
    reachable_of_run rfl rfl (Fork.run [Fork.a, Fork.b, Fork.ab] []) (by decide +kernel)
  obtain ⟨dag, hr, hin, hq, happ⟩ := hrun
  obtain ⟨dag', happ⟩ := Option.isSome_iff_exists.mp happ
  have hsame := (only_positive_results_change_reads hr).1 _ _ happ (fun _ ho => by cases ho) _ hin
    .ascending .ascending
  exact ⟨dag, dag', happ, hq, hsame.1.trans hq⟩

end Taurus
