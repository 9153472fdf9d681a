import Taurus.Ballots
import Taurus.Reads

namespace Taurus

open Relation

variable {H : Type} [LinearOrder H] {hash : Vertex H → H} {it : HashOrders H} {config : Config}
  {genesis vx : Vertex H} {dag dag' s t u : DAG H} {a p v w : H} {c : Constraint H}

/-- The second state holds all vertices of the first, and has decided whatever the first has. -/
structure Later (s t : DAG H) : Prop where
  within : s.graph.Within t.graph
  undecided : ∀ c, decisionOf t.state c = none → decisionOf s.state c = none

namespace Later

theorem refl (s : DAG H) : Later s s where
  within _ _ h := h
  undecided _ h := h

theorem trans (hst : Later s t) (htu : Later t u) : Later s u where
  within k x h := htu.within k x (hst.within k x h)
  undecided c h := hst.undecided c (htu.undecided c h)

theorem of_attempt (hd : Sound hash genesis s) (ha : Attempt hash it vx s t) : Later s t where
  within := (Continues.of_attempt hd ha).within
  undecided c hc := by
    by_contra hne
    obtain ⟨b, hb⟩ := Option.ne_none_iff_exists'.mp hne
    rw [ha.grown.decisionOf_eq (mem_of_entry hb)] at hc
    exact hne hc

theorem of_record {b : Bool} (h : s.recordQueryResult hash it w b = .ok t) : Later s t := by
  obtain ⟨_, _, _, _, _, hb, hf, rfl⟩ := recordQueryResult_eq_ok.mp h
  obtain ⟨_, _, haward, rfl, _⟩ := beginRecord_eq_some hb
  refine ⟨fun _ _ hk => hk, fun c hc => ?_⟩
  by_contra hne
  exact NeverClears.loop hf c (NeverClears.awardIfPreferred haward c hne) hc

section Shrinks

variable (h : Later s t) (hs : Sound hash genesis s) (hin : ∀ p ∈ vx.parents, p ∈ s.graph)
  (hnr : ∀ p ∈ vx.parents, s.decisionOn p ≠ some false)
include h hs

theorem line_iff (hp : p ∈ s.graph) :
    ReflTransGen t.graph.IsParent a p ↔ ReflTransGen s.graph.IsParent a p :=
  reflTransGen_iff_of_closed (S := (· ∈ s.graph)) (fun _ _ _ hp => hs.shaped.parent_mem hp)
    (fun _ _ hb => h.within.isParent_iff hb) hp

/-- A line that is undecided later has been undecided before. -/
theorem openLine (hp : p ∈ s.graph) (ha : ReflTransGen t.OpenParent a p) :
    ReflTransGen s.OpenParent a p := by
  induction ha using ReflTransGen.head_induction_on with
  | refl => exact .refl
  | @head b k hbk _ ih =>
    have hk : k ∈ s.graph := hs.line_mem hp (ih.lift id fun _ _ hq => hq.1)
    exact .head ⟨(h.within.isParent_iff hk).mp hbk.1, h.undecided _ hbk.2⟩ ih

/-- Where an undecided line ends later, one ended before, at that height or below. Between the
two, a rejected vertex may have been accepted; but then it was none of those on the line. -/
theorem endsAt (hp : p ∈ s.graph) (hpr : s.decisionOn p ≠ some false) {n : Nat}
    (hn : t.EndsAt p n) : ∃ m, s.EndsAt p m ∧ m ≤ n := by
  rcases hn with ⟨e, hep, _, rfl⟩ | ⟨rfl, hu⟩
  · have hline := h.openLine hs hp hep
    have he : e ∈ s.graph := hs.line_mem hp (hline.lift id fun _ _ hq => hq.1)
    have her : s.decisionOn e ≠ some false := by
      rcases ReflTransGen.cases_head hline with rfl | ⟨k, hek, _⟩
      · exact hpr
      · exact hs.parent_not_rejected hek.1 hek.2
    obtain ⟨e', he', hacc, hle⟩ := exists_end hs he her
    refine ⟨_, Or.inl ⟨e', he'.trans hline, hacc, rfl⟩, ?_⟩
    rwa [h.within.height_eq he]
  · exact ⟨_, Or.inr ⟨rfl, h.undecided _ hu⟩, le_rfl⟩

include hin hnr

/-- Whoever is an active ancestor later has been one before. -/
theorem active (ha : t.Active a vx) : s.Active a vx := by
  obtain ⟨hu, hav | ⟨b, hab, ⟨q, hq, hbq⟩, p, hp, n, hn, hlt⟩⟩ := ha
  · exact ⟨h.undecided _ hu, Or.inl hav⟩
  · have hbq' := (h.line_iff hs (hin q hq)).mp hbq
    have hb : b ∈ s.graph := hs.line_mem (hin q hq) hbq'
    obtain ⟨m, hm, hle⟩ := h.endsAt hs (hin p hp) (hnr p hp) hn
    rw [h.within.height_eq hb] at hlt
    exact ⟨h.undecided _ hu, Or.inr ⟨b, (h.within.isParent_iff hb).mp hab, ⟨q, hq, hbq'⟩, p, hp, m,
      hm, hle.trans_lt hlt⟩⟩

theorem activeConstraint (hc : t.ActiveConstraint c vx) : s.ActiveConstraint c vx := by
  obtain ⟨hu, hown | ⟨a, ha, hca⟩⟩ := hc
  · exact ⟨h.undecided c hu, Or.inl hown⟩
  · have ha' := h.active hs hin hnr ha
    rw [h.within.commitments_eq (ha'.mem hs hin)] at hca
    exact ⟨h.undecided c hu, Or.inr ⟨a, ha', hca⟩⟩

theorem consistent (hc : s.Consistent vx) : t.Consistent vx := fun c hne hact hsw =>
  hc c hne (h.activeConstraint hs hin hnr hact) (h.activeConstraint hs hin hnr hsw)

end Shrinks

end Later

/-- An attempt that passes the checks inserts the vertex, any other leaves the graph alone. -/
theorem Attempt.passes_or_kept (ha : Attempt hash it vx s t) (hd : Sound hash genesis s) :
    t.graph = s.graph ∧ t.state = s.state ∨ Passes hash s vx ∧ InsertedDAG hash vx s t := by
  rcases ha.cases with ⟨e, _, rfl⟩ | ⟨hok, hins⟩
  · exact Or.inl ⟨park_graph e, park_state e⟩
  · have hc := checkVertex_spec it vx hd
    rw [hok] at hc
    obtain ⟨t', ht', hi⟩ := insert_spec it hd.shaped hc.legal hc.ready.fresh hd.stores
      hd.inserted_known
    cases hins.symm.trans ht'
    exact Or.inr ⟨(checkVertex_eq_ok it hd).mp hok, hi⟩

/-- Has every vertex but the first passed the checks in an earlier state? -/
def DAG.Vetted (hash : Vertex H → H) (genesis : Vertex H) (dag : DAG H) : Prop :=
  ∀ v vx, dag.graph.lookup v = some vx → v ≠ hash genesis →
    ∃ s, Sound hash genesis s ∧ Later s dag ∧ Passes hash s vx

theorem DAG.Vetted.later (hV : s.Vetted hash genesis) (hl : Later s t)
    (hv : s.graph.lookup v = some vx) (hne : v ≠ hash genesis) :
    ∃ r, Sound hash genesis r ∧ Later r t ∧ Passes hash r vx := by
  obtain ⟨r, hr, hrs, hp⟩ := hV v vx hv hne
  exact ⟨r, hr, hrs.trans hl, hp⟩

theorem vetted_of_reachable (h : (DAG.system hash config genesis).Reachable dag) :
    dag.Vetted hash genesis := by
  refine reachable_induct (P := DAG.Vetted hash genesis) h ?_ ?_ ?_
  · intro _ v vx hv hne
    exact absurd (DAG.lookup_start hv).1 hne
  · intro it x s t hs hV ha v vx hv hne
    have hl := Later.of_attempt hs ha
    -- a vertex that is inserted now has passed the checks in the state before
    rcases ha.passes_or_kept hs with ⟨hg, _⟩ | ⟨hp, hi⟩
    · exact hV.later hl (hg ▸ hv) hne
    · rw [hi.graph, HashMap.lookup_insert] at hv
      split at hv
      · cases hv
        exact ⟨s, hs, hl, hp⟩
      · exact hV.later hl hv hne
  · intro it w b s t hs hV hok v vx hv hne
    have hg : t.graph = s.graph := by
      obtain ⟨_, rfl⟩ := record_eq_recording hok
      rfl
    exact hV.later (Later.of_record hok) (hg ▸ hv) hne

/-- Never are both orderings of a pair to be voted on for one vertex. The check at its insertion
sees to that for good, as the constraints to vote on only become fewer. -/
theorem consistent_of_reachable (h : (DAG.system hash config genesis).Reachable dag)
    (hv : dag.graph.lookup v = some vx) : dag.Consistent vx := by
  have hd := sound_of_reachable h
  by_cases hne : v = hash genesis
  · subst hne
    cases hv.symm.trans hd.shaped.root_lookup
    have hcommit : genesis.parentConstraints = [] := by
      rw [← Graph.commitments_of_lookup hv, hd.shaped.commitments_root]
    -- the genesis vertex has no parents, so there is nothing to vote on
    rintro c _ ⟨_, hc | ⟨a, ⟨_, ha | ⟨b, _, ⟨p, hp, _⟩, _⟩⟩, _⟩⟩
    · simp [hcommit] at hc
    · simp [hd.shaped.root_parents] at ha
    · simp [hd.shaped.root_parents] at hp
  · obtain ⟨s, hs, hl, hp⟩ := vetted_of_reachable h v vx hv hne
    exact hl.consistent hs hp.ready.parents hp.unrejected hp.consistent

/-- A call of `record_query_result` that returns: the state in which its loop starts, and the
constraints that it goes through before that of the vertex itself. -/
structure RecordLoop (hash : Vertex H → H) (genesis : Vertex H) (it : HashOrders H) (dag : DAG H)
    (w : H) (b : Bool) (vx : Vertex H) (start : StateMap H) (cs : List (Constraint H)) : Prop where
  pending : dag.pendingQuery.lookup w = some vx
  inserted : dag.graph.lookup w = some vx
  award : DAG.awardIfPreferred b dag.state (.unity w) = some start
  sound : Sound hash genesis (dag.recording w start)
  decisions : decisionOf start = decisionOf dag.state
  begins : dag.beginRecord hash it vx w b = some (dag.recording w start, cs ++ [.unity w])
  mem_iff : ∀ c, c ∈ cs ↔ dag.ActiveConstraint c vx
  nodup : (cs ++ [Constraint.unity w]).Nodup
  one_sided : ∀ c ∈ cs ++ [Constraint.unity w], c.left ≠ c.right → c.swap ∉ cs ++ [.unity w]

/-- Awarding a chit and taking the vertex out of the pending ones decides and prefers nothing. -/
theorem recording_continues {b : Bool} {state : StateMap H}
    (haward : DAG.awardIfPreferred b dag.state (.unity w) = some state) :
    Continues dag (dag.recording w state) := by
  refine ⟨fun _ _ h => h, fun c _ => congrFun (decisionOf_awardIfPreferred haward) c, fun c _ => ?_⟩
  rcases awardIfPreferred_cases haward with rfl | ⟨cs, hcs, rfl⟩
  · exact Iff.rfl
  · exact prefers_insert_of_eq hcs (by rfl) c

/-- What `get_active_ancestor_constraints` has listed are the active constraints. -/
theorem mem_activeConstraints_iff {l : List (Constraint H)} (hd : Sound hash genesis dag)
    (hlegal : dag.graph.Legal vx) (hl : dag.getActiveAncestorConstraints hash it vx = .ok l)
    (c : Constraint H) : c ∈ l ↔ dag.ActiveConstraint c vx := by
  have hnr (p : H) (hp : p ∈ vx.parents) : dag.decisionOn p ≠ some false := by
    intro hf
    rw [DAG.getActiveAncestorConstraints,
      (getActiveAncestors_spec it hd hlegal.nonempty hlegal.inserted).1 ⟨p, hp, hf⟩] at hl
    cases hl
  obtain ⟨cs, hcs, _, hmem⟩ := getActiveAncestorConstraints_spec it hd hlegal.nonempty
    hlegal.inserted hnr hlegal.antichain
  cases hl.symm.trans hcs
  exact hmem c

theorem RecordLoop.of_ok (h : (DAG.system hash config genesis).Reachable dag) {b : Bool}
    (hok : dag.recordQueryResult hash it w b = .ok dag') : ∃ vx start cs state,
      RecordLoop hash genesis it dag w b vx start cs ∧
      (cs ++ [Constraint.unity w]).foldlM ((dag.recording w start).recordConstraint it b) start = some state ∧
      dag' = { dag.recording w start with state := state } := by
  have hd := sound_of_reachable h
  obtain ⟨vx, dag₁, l, state, hv, hb, hf, rfl⟩ := recordQueryResult_eq_ok.mp hok
  obtain ⟨start, cs, haward, rfl, hlist, rfl⟩ := beginRecord_eq_some hb
  obtain ⟨hin, hne⟩ := hd.pending_inserted w vx hv
  have hlegal := hd.shaped.legal w vx hin hne
  have hcont := recording_continues haward
  obtain ⟨start', haward', _, hd₁, hnodup, _⟩ := beginRecord_updates hd hv hb
  cases haward.symm.trans haward'
  have hact (c : Constraint H) : c ∈ cs ↔ dag.ActiveConstraint c vx :=
    (mem_activeConstraints_iff hd₁ hlegal hlist c).trans
      (hcont.activeConstraint_iff hd hlegal.inserted hin)
  have hdecisions : decisionOf start = decisionOf dag.state := decisionOf_awardIfPreferred haward
  refine ⟨vx, start, cs, state, ⟨hv, hin, haward, hd₁, hdecisions, hb, hact, hnodup, ?_⟩, hf, rfl⟩
  intro c hc hne hsw
  simp only [List.mem_append, List.mem_singleton, hact] at hc hsw
  rcases hc with hc | rfl
  · rcases hsw with hsw | hsw
    · exact consistent_of_reachable h hin c hne hc hsw
    · have hlr := congrArg Constraint.left hsw
      have hrl := congrArg Constraint.right hsw
      exact hne (hrl.trans hlr.symm)
  · exact hne rfl

namespace RecordLoop

variable {start state : StateMap H} {cs : List (Constraint H)}

/-- What the loop of a positive result goes through has a turn, with turns before and after it. -/
theorem turn (hl : RecordLoop hash genesis it dag w true vx start cs) (hd : Sound hash genesis dag)
    (hf : (cs ++ [Constraint.unity w]).foldlM ((dag.recording w start).recordConstraint it true) start =
      some state) (hc : c ∈ cs ++ [Constraint.unity w]) :
    ∃ before after r r', cs ++ [Constraint.unity w] = before ++ c :: after ∧
      before.foldlM ((dag.recording w start).recordConstraint it true) start = some r ∧
      (dag.recording w start).recordConstraint it true r c = some r' ∧
      after.foldlM ((dag.recording w start).recordConstraint it true) r' = some state ∧
      (dag.recording w r, c) ∈ dag.votes hash ⟨.recordQueryResult w true, it⟩ ∧
      Ballot hash genesis dag ⟨.recordQueryResult w true, it⟩ (dag.recording w r, c) w := by
  obtain ⟨before, after, hsplit⟩ := List.append_of_mem hc
  rw [hsplit] at hf
  obtain ⟨r, r', hbefore, hr', hafter⟩ := foldlM_turn_eq_some.mp hf
  have hvote : (dag.recording w r, c) ∈ dag.votes hash ⟨.recordQueryResult w true, it⟩ := by
    simp only [DAG.votes, hl.pending, Option.bind_some, hl.begins, hsplit]
    exact List.mem_map.mpr ⟨(r, c), mem_loopStates hbefore, rfl⟩
  obtain ⟨x, hb⟩ := DAG.exists_ballot hd hvote
  have hop := hb.op
  cases hop
  exact ⟨before, after, r, r', hsplit, hbefore, hr', hafter, hvote, hb⟩

/-- The other turns are about other conflict sets. -/
theorem key_ne (hl : RecordLoop hash genesis it dag w true vx start cs)
    {before after : List (Constraint H)}
    (hsplit : cs ++ [Constraint.unity w] = before ++ c :: after) {d : Constraint H}
    (hd : d ∈ before ∨ d ∈ after) : d.conflictSetKey ≠ c.conflictSetKey := by
  have hn := hl.nodup
  rw [hsplit, List.nodup_append, List.nodup_cons] at hn
  obtain ⟨_, ⟨hafter, _⟩, hdisj⟩ := hn
  have hne : d ≠ c := by
    rintro rfl
    exact hd.elim (fun hm => hdisj _ hm _ List.mem_cons_self rfl) hafter
  intro hk
  rcases (Constraint.conflictSetKey_eq_iff d c).mp hk with he | rfl
  · exact hne he
  · have hlr : c.left ≠ c.right := fun he => hne (by
      rw [c.eq_unity_of_left_eq_right he]
      rfl)
    refine hl.one_sided c (by simp [hsplit]) hlr ?_
    rw [hsplit, List.mem_append, List.mem_cons]
    exact hd.imp_right Or.inr

end RecordLoop

end Taurus
