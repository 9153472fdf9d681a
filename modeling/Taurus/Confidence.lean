import Mathlib.Data.Set.Card
import Taurus.Agreement

namespace Taurus

open Relation

variable {H : Type} [LinearOrder H] {hash : Vertex H → H} {it it' : HashOrders H}
  {config : Config} {genesis vx : Vertex H} {dag dag' : DAG H} {graph : Graph H} {root : H}
  {state s t u : StateMap H} {c d : Constraint H} {l : List (Constraint H)} {v w : H} {P : H → Prop}
  {past : List (DAG H × Call H)}

namespace Graph

/-- Is `c` a parent constraint of the vertex or of an ancestor of it, or its unity constraint? -/
def Supports (graph : Graph H) (v : H) (c : Constraint H) : Prop :=
  graph.Commits v c ∨ c = .unity v

/-- The number of the vertices `P` that support a constraint. -/
noncomputable def support (graph : Graph H) (P : H → Prop) (c : Constraint H) : Nat :=
  {v | P v ∧ graph.Supports v c}.ncard

/-- The number of those that support its opposite, if it has one. -/
noncomputable def oppSupport (graph : Graph H) (P : H → Prop) (c : Constraint H) : Nat :=
  match c.conflict with
  | some o => graph.support P o
  | none => 0

/-- A vertex supports what lies above its unity constraint in the constraint graph. -/
theorem supports_iff (hv : v ∈ graph) :
    graph.Supports v c ↔ ReflTransGen graph.constraintGraph.child c (.unity v) := by
  rw [reflTransGen_iff_eq_or_transGen, above_iff_commits, Supports, Constraint.unity_left,
    Constraint.unity_right, or_self, and_iff_right (registered_unity hv), or_comm,
    eq_comm (a := c)]

end Graph

/-- Are the chits on the unity constraints of the vertices `P`, and nowhere else? -/
def Chitted (P : H → Prop) (state : StateMap H) : Prop :=
  ∀ c, chitOf state c = some true ↔ ∃ v, P v ∧ c = .unity v

/-- The walk over the progeny of a constraint counts the vertices that support it, each once. -/
theorem confidence_eq (it : HashOrders H) (hs : graph.Shaped root genesis)
    (hS : Stores graph.Registered graph.ParentConstraint state) {depth : Nat}
    (hd : graph.keys.card ≤ depth) (hc : c.conflictSetKey ∈ state) (hP : Chitted P state)
    (hin : ∀ v, P v → v ∈ graph) :
    DAG.confidence it depth state c = some (graph.support P c) := by
  have hb := rank_bounds hs hS hc
  obtain ⟨l, hl, hmem⟩ := progenyWithChits_spec it hs hS depth c hc (by omega)
  have himage : Constraint.unity '' {v | P v ∧ graph.Supports v c} = (l.eraseDups.toFinset : Set _) := by
    ext d
    simp only [Set.mem_image, Set.mem_ofPred_eq, Finset.mem_coe, List.mem_toFinset,
      List.mem_eraseDups, hmem, hP d]
    constructor
    · rintro ⟨v, ⟨hv, hsup⟩, rfl⟩
      exact ⟨⟨v, hv, rfl⟩, (Graph.supports_iff (hin v hv)).mp hsup⟩
    · rintro ⟨⟨v, hv, rfl⟩, hcv⟩
      exact ⟨v, ⟨hv, (Graph.supports_iff (hin v hv)).mpr hcv⟩, rfl⟩
  have hinj : Function.Injective (Constraint.unity : H → Constraint H) :=
    fun a b h => (Constraint.unity_inj a b).mp h
  have hcount : graph.support P c = l.eraseDups.length := calc
    graph.support P c = (Constraint.unity '' {v | P v ∧ graph.Supports v c}).ncard :=
      (Set.ncard_image_of_injective _ hinj).symm
    _ = l.eraseDups.toFinset.card := by rw [himage, Set.ncard_coe_finset]
    _ = l.eraseDups.length := List.toFinset_card_of_nodup (Vertex.nodup_eraseDups l)
  rw [DAG.confidence, hl, hcount]
  rfl

theorem oppConfidence_eq (it : HashOrders H) (hs : graph.Shaped root genesis)
    (hS : Stores graph.Registered graph.ParentConstraint state) {depth : Nat}
    (hd : graph.keys.card ≤ depth) (hc : c.conflictSetKey ∈ state) (hP : Chitted P state)
    (hin : ∀ v, P v → v ∈ graph) :
    DAG.oppConfidence it depth state c = some (graph.oppSupport P c) := by
  unfold DAG.oppConfidence Graph.oppSupport
  cases ho : c.conflict with
  | none => rfl
  | some o =>
    have hko := Constraint.conflictSetKey_conflict c o ho
    exact confidence_eq it hs hS hd (by rwa [hko]) hP hin

/-! Where chits come from: a positive result awards one, and nothing else does. -/

/-- The second state map has the chits of the first. -/
def SameChits (s t : StateMap H) : Prop := ∀ c, chitOf t c = some true ↔ chitOf s c = some true

namespace SameChits

theorem refl (s : StateMap H) : SameChits s s := fun _ => Iff.rfl

theorem trans (hst : SameChits s t) (htu : SameChits t u) : SameChits s u :=
  fun c => (htu c).trans (hst c)

theorem of_eq (h : ∀ c, chitOf t c = chitOf s c) : SameChits s t := fun c => by rw [h]

/-- A new conflict set has no chits. -/
theorem fresh_chit (c d : Constraint H) :
    (collectMap ((ConflictSet.orientations c).zip [false, false])).lookup d ≠ some true := by
  rw [ConflictSet.lookup_orientations]
  split_ifs <;> simp

theorem insertConstraint {vertex : HashMap H (Vertex H)}
    (h : DAG.insertConstraint it vertex s c = some t) : SameChits s t := by
  obtain ⟨_, _, u, rejected, _, _, hu, rfl⟩ := insertConstraint_eq_some h
  have hregister (s t : StateMap H) (p : Constraint H) (hp : DAG.registerChild c s p = some t) :
      SameChits s t := by
    obtain ⟨cs, known, hcs, _, rfl⟩ := registerChild_eq_some hp
    exact of_eq fun d => entry_insert_of_eq hcs (by rfl) d
  refine (foldlM_rel refl (fun _ _ _ => trans) _ (fun s p _ t => hregister s t p) hu).trans fun d => ?_
  rw [chitOf, entry_tryInsert]
  split
  · next hk =>
    rw [chitOf, entry_of_notMem (hk.1 ▸ hk.2)]
    cases rejected <;> exact iff_of_false (fresh_chit c d) (by simp)
  · rfl

theorem attempt (ha : Attempt hash it vx dag dag') : SameChits dag.state dag'.state := by
  rcases ha.cases with ⟨e, _, rfl⟩ | ⟨_, hins⟩
  · rw [park_state]
    exact refl _
  · exact insert_rel refl (fun _ _ _ => trans) (fun _ _ _ _ ht => insertConstraint ht) hins

theorem loop {b : Bool} (h : l.foldlM (dag.recordConstraint it b) s = some t) : SameChits s t :=
  have hf : VoteFree (ConflictSet.chit (H := H)) := fun _ _ hchit _ _ => hchit
  of_eq fun d => hf.entry_loop h d

end SameChits

theorem chitOf_award (h : DAG.awardIfPreferred true s c = some t) (d : Constraint H) :
    chitOf t d = some true ↔ d = c ∨ chitOf s d = some true := by
  obtain ⟨cs, hcs, rfl⟩ := awardIfPreferred_true h
  rw [chitOf, entry_insert]
  split
  · next hk =>
    have hold : chitOf s d = cs.chit.lookup d := entry_of_lookup (hk ▸ hcs)
    rw [hold, HashMap.lookup_insert]
    split <;> simp_all
  · next hk =>
    rw [or_iff_right]
    · rfl
    · rintro rfl
      exact hk rfl

/-- Does the past have a step that recorded the vertex as strongly preferred? -/
def Favoured (hash : Vertex H → H) (past : List (DAG H × Call H)) (v : H) : Prop :=
  ∃ s ∈ past, s.2.op = .recordQueryResult v true ∧ Records hash s v

theorem favoured_cons {step : DAG H × Call H} : Favoured hash (step :: past) v ↔
    (step.2.op = .recordQueryResult v true ∧ Records hash step v) ∨ Favoured hash past v := by
  simp only [Favoured, List.mem_cons, exists_eq_or_imp]

/-- The chit that a positive result awards is for the vertex that it records. -/
theorem Chitted.award (hC : Chitted (Favoured hash past) dag.state)
    (haward : DAG.awardIfPreferred true dag.state (.unity w) = some s)
    (hrec : Records hash (dag, ⟨.recordQueryResult w true, it⟩) w) :
    Chitted (Favoured hash ((dag, ⟨.recordQueryResult w true, it⟩) :: past)) s := by
  intro c
  rw [chitOf_award haward, hC c]
  simp only [favoured_cons, Op.recordQueryResult.injEq, and_true]
  constructor
  · rintro (rfl | ⟨v, hv, rfl⟩)
    · exact ⟨w, Or.inl ⟨rfl, hrec⟩, rfl⟩
    · exact ⟨v, Or.inr hv, rfl⟩
  · rintro ⟨v, ⟨rfl, _⟩ | hv, rfl⟩
    · exact Or.inl rfl
    · exact Or.inr ⟨v, hv, rfl⟩

theorem Chitted.congr (hC : Chitted P s) (hst : SameChits s t) : Chitted P t :=
  fun c => (hst c).trans (hC c)

/-- The vertices with a chit are those that the run has recorded as strongly preferred. -/
theorem Chitted.of_run (hrun : (DAG.system hash config genesis).Run past dag) :
    Chitted (Favoured hash past) dag.state := by
  induction hrun with
  | @init s hi =>
    intro c
    rw [DAG.eq_start_of_init hi]
    refine iff_of_false (fun hc => ?_) (by simp [Favoured])
    rw [DAG.start, chitOf, entry_insert] at hc
    split at hc
    · exact SameChits.fresh_chit _ _ hc
    · rw [entry_of_notMem Finmap.notMem_empty] at hc
      cases hc
  | @step past s t call hr hs ih =>
    have hd := sound_of_reachable hr.reachable
    have hsame (hn : ∀ v, call.op ≠ .recordQueryResult v true) (hst : SameChits s.state t.state) :
        Chitted (Favoured hash ((s, call) :: past)) t.state := by
      intro c
      rw [hst c, ih c]
      simp only [favoured_cons, hn, false_and, false_or]
    -- insertions and negative results move no chits
    rcases apply_cases hs with ⟨vx, ho, ha⟩ | ⟨hashes, ho, hret⟩ | ⟨w, b, ho, hrec⟩
    · exact hsame (by simp [ho]) (.attempt ha)
    · refine hsame (by simp [ho]) ?_
      exact (hret.induct (P := fun t => SameChits s.state t.state) hd (.refl _)
        fun _ _ _ _ _ hP _ ha => hP.trans (.attempt ha)).2
    · rcases hrec with ⟨⟨e, he⟩, rfl⟩ | hok
      -- a refused result is not recorded
      · intro c
        rw [ih c]
        refine exists_congr fun v => and_congr_left' ?_
        rw [favoured_cons, or_iff_right]
        exact fun hv => not_records_of_err ho he hv.2
      · obtain ⟨vx, start, cs, state, hl, hf, rfl⟩ := RecordLoop.of_ok hr.reachable hok
        cases b with
        | false =>
          refine hsame (by simp [ho]) ?_
          cases hl.award
          exact .loop hf
        | true =>
          obtain ⟨op, it⟩ := call
          cases ho
          exact (ih.award hl.award ⟨true, _, rfl, hok⟩).congr (.loop hf)

/-- Turns about other conflict sets leave a conflict set as it was, up to its decisions. -/
theorem loop_kept {k : ConflictSetKey H} (hl : ∀ d ∈ l, d.conflictSetKey ≠ k)
    (h : l.foldlM (dag.recordConstraint it true) s = some t) :
    (t.lookup k).map ConflictSet.cleared = (s.lookup k).map ConflictSet.cleared := by
  refine foldlM_rel
    (R := fun s t : StateMap H =>
      (t.lookup k).map ConflictSet.cleared = (s.lookup k).map ConflictSet.cleared)
    (fun _ => rfl) (fun _ _ _ hst htu => htu.trans hst) l (fun s d hd t ht => ?_) h
  have hvote : DAG.voteFor it dag.config dag.depth s d = some t := ht
  obtain ⟨_, cs₁, _, hdec, _⟩ := voteFor_frame hvote
  rw [hdec k, HashMap.lookup_insert, if_neg (hl d hd).symm]

/-- What a turn leaves in its conflict set: the preferred constraint is `c` if it has the higher
confidence or the turn has accepted it. -/
theorem voteFor_result {depth m n : Nat} (h : DAG.voteFor it config depth s c = some t)
    (hm : DAG.confidence it depth s c = some m) (hn : DAG.oppConfidence it depth s c = some n)
    (hun : decisionOf s c ≠ some true)
    (hacc : config.threshAccepted ≤ tally s c → decisionOf t c = some true) :
    ∃ cs ct, s.lookup c.conflictSetKey = some cs ∧ t.lookup c.conflictSetKey = some ct ∧
      ct.confidence.lookup c = some m ∧
      ct.preferred = if n < m ∨ decisionOf t c = some true then c else cs.preferred := by
  obtain ⟨cs, cs', hcs, hw, hcases⟩ := voteFor_written h
  obtain ⟨m', n', hm', hn', hconf, hpref⟩ := hw.confidence
  cases hm.symm.trans hm'
  cases hn.symm.trans hn'
  have hconf' : cs'.confidence.lookup c = some m := by rw [hconf, Finmap.lookup_insert]
  rcases hcases with rfl | ⟨accepted, rfl, haccept⟩
  · refine ⟨cs, cs', hcs, Finmap.lookup_insert _, hconf', ?_⟩
    rw [hpref, decisionOf_insert_of_eq hcs hw.decision]
    simp only [hun, or_false, gt_iff_lt]
  · -- what accepting it does afterwards are decisions only
    rw [Finmap.insert_insert] at haccept
    generalize hcs'' : ({ cs' with decision := cs'.decision.insert c true, preferred := c } :
      ConflictSet H) = cs'' at haccept
    have hdec : OnlyDecides (s.insert c.conflictSetKey cs'') t ∧ decisionOf t c = some true := by
      rcases haccept with ⟨_, rfl⟩ | ⟨_, _, hthresh, hrej⟩
      · refine ⟨fun _ => rfl, ?_⟩
        rw [decisionOf, entry_insert, if_pos rfl, ← hcs'', Finmap.lookup_insert]
      · exact ⟨rejectProgeny_onlyDecides hrej, hacc hthresh⟩
    obtain ⟨ct, hct⟩ : ∃ ct, t.lookup c.conflictSetKey = some ct := by
      have hk := hdec.1 c.conflictSetKey
      rw [Finmap.lookup_insert, Option.map_some, Option.map_eq_some_iff] at hk
      exact hk.imp fun _ h => h.1
    obtain ⟨cs₀, hcs₀, _, rfl⟩ := hdec.1.lookup hct
    rw [Finmap.lookup_insert, Option.some.injEq] at hcs₀
    subst hcs₀
    refine ⟨cs, _, hcs, hct, ?_, ?_⟩
    · rw [← hcs'']
      exact hconf'
    · rw [if_pos (Or.inr hdec.2), ← hcs'']

/-- A constraint has one turn in a call, so the call accepts it if that turn does. -/
theorem Ballot.acceptsIn_iff {call : Call H} {u : DAG H × Constraint H} {w : H}
    (hb : Ballot hash genesis dag call u w) (hd : Sound hash genesis dag)
    (hu : u ∈ dag.votes hash call) (hun : decisionOf u.1.state u.2 ≠ some true) {state : StateMap H}
    (hs : u.1.recordConstraint call.it true u.1.state u.2 = some state) :
    dag.AcceptsIn hash call u.2 ↔ decisionOf state u.2 = some true := by
  constructor
  · rintro ⟨u', hu', he, _, state', hs', htrue⟩
    obtain ⟨x, hb'⟩ := DAG.exists_ballot hd hu'
    have hsame := hb'.unique hb he
    subst hsame
    cases hs.symm.trans hs'
    exact htrue
  · intro htrue
    exact ⟨u, hu, rfl, hun, state, hs, htrue⟩

/-- After a positive result the confidence of each constraint voted on is the number of vertices
recorded as strongly preferred that support it. It is the preferred constraint of its set if it
has more of them than its opposite or has been accepted; else the set prefers what it did. -/
theorem confidence_exact (hrun : (DAG.system hash config genesis).Run past dag)
    (hok : dag.recordQueryResult hash it v true = .ok dag') (hv : dag.graph.lookup v = some vx)
    (hlist : dag.getActiveAncestorConstraints hash it' vx = .ok l) (hc : c ∈ l) :
    ∃ cs cs', dag.state.lookup c.conflictSetKey = some cs ∧
      dag'.state.lookup c.conflictSetKey = some cs' ∧
      cs'.confidence.lookup c = some (dag.graph.support
        (Favoured hash ((dag, ⟨.recordQueryResult v true, it⟩) :: past)) c) ∧
      cs'.preferred =
        if dag.graph.oppSupport (Favoured hash ((dag, ⟨.recordQueryResult v true, it⟩) :: past)) c <
            dag.graph.support (Favoured hash ((dag, ⟨.recordQueryResult v true, it⟩) :: past)) c ∨
          dag.AcceptsIn hash ⟨.recordQueryResult v true, it⟩ c then c else cs.preferred := by
  have hd := sound_of_reachable hrun.reachable
  have hrecords : Records hash (dag, ⟨.recordQueryResult v true, it⟩) v := ⟨true, dag', rfl, hok⟩
  obtain ⟨wx, start, cs₀, state, hl, hf, rfl⟩ := RecordLoop.of_ok hrun.reachable hok
  cases hv.symm.trans hl.inserted
  have hchitted := (Chitted.of_run hrun).award hl.award hrecords
  have hin (u : H) (hu : Favoured hash ((dag, ⟨.recordQueryResult v true, it⟩) :: past) u) :
      u ∈ dag.graph := by
    rcases favoured_cons.mp hu with ⟨ho, _⟩ | ⟨s, hs, _, hr⟩
    · cases ho
      exact Finmap.mem_of_lookup_eq_some hv
    · exact (Booked.of_run hrun).recorded_inserted s hs u hr
  generalize Favoured hash ((dag, ⟨.recordQueryResult v true, it⟩) :: past) = P at hchitted hin ⊢
  have hlegal := hd.shaped.legal v vx hv (hd.pending_inserted v vx hl.pending).2
  have hcl : c ∈ cs₀ := (hl.mem_iff c).mpr ((mem_activeConstraints_iff hd hlegal hlist c).mp hc)
  have hne : c ≠ .unity v := (List.nodup_append.mp hl.nodup).2.2 c hcl _ (by simp)
  obtain ⟨before, after, r, r', hsplit, hbefore, hr', hafter, hvote, hb⟩ :=
    hl.turn hd hf (List.mem_append_left _ hcl)
  have hmem : c.conflictSetKey ∈ r := hb.sound.stores.mem_of_registered hb.registered
  -- the votes before this turn have moved no chits
  have hchits : Chitted P r := hchitted.congr (.loop hbefore)
  obtain ⟨r'', hr'', hacc, _⟩ := hb.recordConstraint_spec
  cases hr'.symm.trans hr''
  obtain ⟨cs, ct, hcs, hct, hconf, hpref⟩ := voteFor_result hr'
    (confidence_eq it hb.sound.shaped hb.sound.stores hb.sound.card_le hmem hchits hin)
    (oppConfidence_eq it hb.sound.shaped hb.sound.stores hb.sound.card_le hmem hchits hin)
    (hb.unaccepted.resolve_left hne) fun h => hacc (Or.inl h)
  have hkept := loop_kept (fun d hd => hl.key_ne hsplit (Or.inl hd)) hbefore
  rw [hcs, Option.map_some] at hkept
  obtain ⟨cs₁, hcs₁, hclear₁⟩ := Option.map_eq_some_iff.mp hkept.symm
  obtain ⟨cs₂, hcs₂, _, _, hpref₂⟩ := awardIfPreferred_frame hl.award hcs₁
  have hlast := loop_kept (fun d hd => hl.key_ne hsplit (Or.inr hd)) hafter
  rw [hct, Option.map_some] at hlast
  obtain ⟨cs₃, hcs₃, hclear₃⟩ := Option.map_eq_some_iff.mp hlast
  have hpreferred : cs.preferred = cs₂.preferred :=
    (congrArg ConflictSet.preferred hclear₁).symm.trans hpref₂
  have haccepts := hb.acceptsIn_iff hd hvote (hb.unaccepted.resolve_left hne) hr'
  have hconf₃ := congrArg (fun x => x.confidence.lookup c) hclear₃
  have hpref₃ := congrArg ConflictSet.preferred hclear₃
  refine ⟨cs₂, cs₃, hcs₂, hcs₃, hconf₃.trans hconf, ?_⟩
  calc
    cs₃.preferred = ct.preferred := hpref₃
    _ = if dag.graph.oppSupport P c < dag.graph.support P c ∨ decisionOf r' c = some true then c
        else cs.preferred := hpref
    _ = _ := by simp only [hpreferred, haccepts]

theorem confidence_exact_pair : ∃ (dag dag' : DAG Digest) (past : List (DAG Digest × Call Digest)),
    dag.recordQueryResult Vertex.wire .ascending Fork.abTip.wire true = .ok dag' ∧
      ∃ cs', dag'.state.lookup (Constraint.mk Fork.a.wire Fork.b.wire).conflictSetKey = some cs' ∧
        cs'.confidence.lookup ⟨Fork.a.wire, Fork.b.wire⟩ = some (dag.graph.support
          (Favoured Vertex.wire
            ((dag, ⟨.recordQueryResult Fork.abTip.wire true, .ascending⟩) :: past))
          ⟨Fork.a.wire, Fork.b.wire⟩) := by
  have hrun : ∃ dag, (Fork.system ⟨3, 2⟩).Reachable dag ∧
      dag.graph.lookup Fork.abTip.wire = some Fork.abTip ∧
      (∃ l ∈ (dag.getActiveAncestorConstraints Vertex.wire .ascending Fork.abTip).unwrap,
        ⟨Fork.a.wire, Fork.b.wire⟩ ∈ l) ∧
      (dag.recordQueryResult Vertex.wire .ascending Fork.abTip.wire true).unwrap.isSome :=
    reachable_of_run rfl rfl (Fork.run [Fork.a, Fork.b, Fork.ab, Fork.ba, Fork.abTip] [Fork.ab])
      (by decide +kernel)
  obtain ⟨dag, hr, hv, ⟨l, hl, hc⟩, hok⟩ := hrun
  obtain ⟨dag', hok⟩ := Option.isSome_iff_exists.mp hok
  rw [Outcome.unwrap_eq_some] at hok
  obtain ⟨past, hpast⟩ := hr.exists_run
  obtain ⟨_, cs', _, hcs', hconf, _⟩ :=
    confidence_exact hpast hok hv ((Outcome.unwrap_eq_some _ _).mp hl) hc
  exact ⟨dag, dag', past, hok, cs', hcs', hconf⟩

end Taurus
