import Taurus.Active

namespace Taurus

open Relation

variable {H : Type} [LinearOrder H] {hash : Vertex H → H} {it : HashOrders H}
  {genesis : Vertex H} {dag : DAG H} {vx : Vertex H}

/-- No vertex among the parents is an ancestor of another. -/
def Graph.Antichain (graph : Graph H) (vx : Vertex H) : Prop :=
  ∀ p ∈ vx.parents, ∀ q ∈ vx.parents, ¬ graph.Ancestor p q

/-- Is the height one above that of the highest parent? -/
def Graph.HeightFits (graph : Graph H) (vx : Vertex H) : Prop :=
  ∃ m, (vx.parents.map graph.height).max? = some m ∧ vx.height = 1 + m

/-- A sane new vertex with all its parents in the graph. -/
structure Ready (hash : Vertex H → H) (dag : DAG H) (vx : Vertex H) : Prop where
  sane : vx.sanityChecks = .ok ()
  fresh : hash vx ∉ dag.graph
  parents : ∀ p ∈ vx.parents, p ∈ dag.graph

/-- The outcomes of `check_vertex`, with what each says about the vertex. -/
inductive Checked (hash : Vertex H → H) (dag : DAG H) (vx : Vertex H) :
    Outcome (Error H) Unit → Prop
  | vertex {e : VertexError} : vx.sanityChecks = .error e → Checked hash dag vx (.err (.vertex e))
  | alreadyInserted : vx.sanityChecks = .ok () → hash vx ∈ dag.graph →
      Checked hash dag vx (.err .alreadyInserted)
  | missingParents {l : List H} : vx.sanityChecks = .ok () → hash vx ∉ dag.graph →
      (∃ p ∈ vx.parents, p ∉ dag.graph) → Checked hash dag vx (.err (.missingParents l))
  | waitingOnParents {l : List H} : vx.sanityChecks = .ok () → hash vx ∉ dag.graph →
      (∃ p ∈ vx.parents, p ∉ dag.graph) → Checked hash dag vx (.err (.waitingOnParents l))
  | badHeight {m : Nat} : Ready hash dag vx → (vx.parents.map dag.graph.height).max? = some m →
      vx.height ≠ 1 + m → Checked hash dag vx (.err (.badHeight (1 + m) vx.height))
  | rejectedAncestor : Ready hash dag vx → dag.graph.HeightFits vx →
      (∃ p ∈ vx.parents, dag.decisionOn p = some false) →
      Checked hash dag vx (.err .rejectedAncestor)
  | selfReferentialParent : Ready hash dag vx → dag.graph.HeightFits vx →
      (∀ p ∈ vx.parents, dag.decisionOn p ≠ some false) → ¬ dag.graph.Antichain vx →
      Checked hash dag vx (.err .selfReferentialParent)
  | conflictingAncestors {cs : List (Constraint H)} : Ready hash dag vx →
      dag.graph.HeightFits vx → (∀ p ∈ vx.parents, dag.decisionOn p ≠ some false) →
      dag.graph.Antichain vx → ActiveConstraints dag vx cs →
      (∃ c ∈ cs, c.left ≠ c.right ∧ c.swap ∈ cs) →
      Checked hash dag vx (.err .conflictingAncestors)
  | ok {cs : List (Constraint H)} : Ready hash dag vx →
      dag.graph.HeightFits vx → (∀ p ∈ vx.parents, dag.decisionOn p ≠ some false) →
      dag.graph.Antichain vx → ActiveConstraints dag vx cs →
      (∀ c ∈ cs, c.left ≠ c.right → c.swap ∉ cs) → Checked hash dag vx (.ok ())

theorem hasConflict_iff (cs : List (Constraint H)) :
    DAG.hasConflict cs = true ↔ ∃ c ∈ cs, c.left ≠ c.right ∧ c.swap ∈ cs := by
  rw [DAG.hasConflict, List.any_eq_true]
  refine exists_congr fun c => and_congr_right fun _ => ?_
  cases hc : c.conflict with
  | none => simp [(Constraint.conflict_eq_none c).mp hc]
  | some o =>
    obtain ⟨hne, rfl⟩ := (Constraint.conflict_eq_some c o).mp hc
    simp [hne]

/-- The part of `check_vertex` after the parents have been found. -/
theorem checkVertex_ready_eq (it : HashOrders H) (hd : Sound hash genesis dag)
    (hr : Ready hash dag vx) : ∃ m, (vx.parents.map dag.graph.height).max? = some m ∧
      dag.checkVertex hash it vx = if 1 + m ≠ vx.height then
        .err (.badHeight (1 + m) vx.height)
      else dag.getActiveAncestorConstraints hash it vx >>= fun cs =>
        if DAG.hasConflict cs then .err .conflictingAncestors else .ok () := by
  obtain ⟨hne, hnodup⟩ := vx.sanityChecks_eq_ok hr.sane
  -- all parents are known and inserted, so nothing is missing or waited for
  have hmiss : (vx.parents.filter fun p => p ∉ dag.vertex) = [] := by
    rw [List.filter_eq_nil_iff]
    intro p hp
    simpa using hd.known (hr.parents p hp)
  have hwait : (vx.parents.filter fun p => p ∈ dag.vertex ∧ p ∉ dag.graph) = [] := by
    rw [List.filter_eq_nil_iff]
    intro p hp
    simpa using fun _ => hr.parents p hp
  have hheights : vx.parents.mapM (fun p => do
      let pvx ← (dag.vertex.lookup p : Outcome (Error H) (Vertex H))
      return pvx.height) = .ok (vx.parents.map dag.graph.height) := by
    refine Outcome.mapM_of_ok _ _ _ fun p hp => ?_
    obtain ⟨v, _, hv, hh⟩ := hd.vertex_lookup (hr.parents p hp)
    rw [hv, Outcome.lift_some, Outcome.ok_bind, hh]
    rfl
  obtain ⟨m, hm⟩ : ∃ m, (vx.parents.map dag.graph.height).max? = some m := by
    rw [← Option.isSome_iff_exists, List.isSome_max?_iff]
    simpa using hne
  refine ⟨m, hm, ?_⟩
  rw [DAG.checkVertex, hr.sane]
  simp only [if_neg hr.fresh, hmiss, hwait, List.isEmpty_nil, Bool.not_true, Bool.false_eq_true,
    ↓reduceIte]
  rw [hheights, Outcome.ok_bind, hm, Outcome.lift_some, Outcome.ok_bind]
  rfl

theorem checkVertex_of_ready (hd : Sound hash genesis dag) (hr : Ready hash dag vx) :
    Checked hash dag vx (dag.checkVertex hash it vx) := by
  obtain ⟨m, hm, hrun⟩ := checkVertex_ready_eq it hd hr
  obtain ⟨hne, _⟩ := vx.sanityChecks_eq_ok hr.sane
  rw [hrun]
  by_cases hheight : vx.height = 1 + m
  swap
  · rw [if_pos fun h => hheight h.symm]
    exact .badHeight hr hm hheight
  rw [if_neg (not_not.mpr hheight.symm)]
  have hfits : dag.graph.HeightFits vx := ⟨m, hm, hheight⟩
  obtain ⟨hrej, hself, _⟩ := getActiveAncestors_spec it hd hne hr.parents
  by_cases hf : ∃ p ∈ vx.parents, dag.decisionOn p = some false
  · rw [DAG.getActiveAncestorConstraints, hrej hf]
    exact .rejectedAncestor hr hfits hf
  have hnr : ∀ p ∈ vx.parents, dag.decisionOn p ≠ some false := fun p hp h => hf ⟨p, hp, h⟩
  by_cases ha : dag.graph.Antichain vx
  swap
  · have hex : ∃ p ∈ vx.parents, ∃ q ∈ vx.parents, dag.graph.Ancestor p q := by
      simpa [Graph.Antichain] using ha
    rw [DAG.getActiveAncestorConstraints, hself hnr hex]
    exact .selfReferentialParent hr hfits hnr ha
  obtain ⟨cs, hcs, hact, _⟩ := getActiveAncestorConstraints_spec it hd hne hr.parents hnr ha
  rw [hcs, Outcome.ok_bind]
  by_cases hc : DAG.hasConflict cs = true
  · rw [if_pos hc]
    exact .conflictingAncestors hr hfits hnr ha hact ((hasConflict_iff cs).mp hc)
  · rw [if_neg hc]
    refine .ok hr hfits hnr ha hact fun c hcm hcn hsw => hc ?_
    exact (hasConflict_iff cs).mpr ⟨c, hcm, hcn, hsw⟩

/-- `check_vertex` never panics, and each of its outcomes means what it says. -/
theorem checkVertex_spec (it : HashOrders H) (vx : Vertex H) (hd : Sound hash genesis dag) :
    Checked hash dag vx (dag.checkVertex hash it vx) := by
  cases hs : vx.sanityChecks with
  | error e =>
    rw [DAG.checkVertex, hs]
    exact .vertex hs
  | ok u =>
    by_cases hg : hash vx ∈ dag.graph
    · rw [DAG.checkVertex, hs]
      simp only [if_pos hg]
      exact .alreadyInserted hs hg
    by_cases hp : ∀ p ∈ vx.parents, p ∈ dag.graph
    · exact checkVertex_of_ready hd ⟨hs, hg, hp⟩
    have hex : ∃ p ∈ vx.parents, p ∉ dag.graph := by simpa using hp
    rw [DAG.checkVertex, hs]
    simp only [if_neg hg]
    split
    · exact .missingParents hs hg hex
    split
    · exact .waitingOnParents hs hg hex
    next hmiss hwait =>
      -- a parent outside the graph is missing or waiting
      exfalso
      obtain ⟨p, hpv, hpg⟩ := hex
      simp only [Bool.not_eq_true', Bool.not_eq_false, List.isEmpty_iff,
        List.filter_eq_nil_iff, decide_eq_true_eq] at hmiss hwait
      exact hwait p hpv ⟨not_not.mp (hmiss p hpv), hpg⟩

theorem Checked.ready (hc : Checked hash dag vx (.ok ())) : Ready hash dag vx := by
  cases hc with
  | ok hr => exact hr

/-- A vertex that passes the checks legally extends the graph. -/
theorem Checked.legal (hc : Checked hash dag vx (.ok ())) : dag.graph.Legal vx := by
  cases hc with
  | ok hr hfits _ ha =>
    obtain ⟨hne, hnodup⟩ := vx.sanityChecks_eq_ok hr.sane
    exact ⟨hne, hnodup, hr.parents, hfits, ha⟩

/-- Do the vertex and its active ancestors commit to no two opposite orderings that are both
undecided? -/
def DAG.Consistent (dag : DAG H) (vx : Vertex H) : Prop :=
  ∀ c, c.left ≠ c.right → dag.ActiveConstraint c vx → ¬ dag.ActiveConstraint c.swap vx

/-- What a vertex needs to pass the checks. -/
structure Passes (hash : Vertex H → H) (dag : DAG H) (vx : Vertex H) : Prop where
  ready : Ready hash dag vx
  height : dag.graph.HeightFits vx
  unrejected : ∀ p ∈ vx.parents, dag.decisionOn p ≠ some false
  antichain : dag.graph.Antichain vx
  consistent : dag.Consistent vx

/-- Whether a vertex passes the checks does not depend on the order of any hash set. -/
theorem checkVertex_eq_ok (it : HashOrders H) (hd : Sound hash genesis dag) :
    dag.checkVertex hash it vx = .ok () ↔ Passes hash dag vx := by
  have hlist (hr : Ready hash dag vx) (hnr : ∀ p ∈ vx.parents, dag.decisionOn p ≠ some false)
      (ha : dag.graph.Antichain vx) := getActiveAncestorConstraints_spec it hd
    (vx.sanityChecks_eq_ok hr.sane).1 hr.parents hnr ha
  constructor
  · intro hok
    have hc := checkVertex_spec it vx hd
    rw [hok] at hc
    cases hc with
    | ok hr hheight hnr ha _ _ =>
      refine ⟨hr, hheight, hnr, ha, fun c hne hc hsw => ?_⟩
      obtain ⟨m, hm, hrun⟩ := checkVertex_ready_eq it hd hr
      obtain ⟨m', hm', hfits⟩ := hheight
      cases hm.symm.trans hm'
      obtain ⟨cs, hcs, _, hmem⟩ := hlist hr hnr ha
      rw [hrun, if_neg (not_not.mpr hfits.symm), hcs, Outcome.ok_bind,
        if_pos ((hasConflict_iff cs).mpr ⟨c, (hmem c).mpr hc, hne, (hmem _).mpr hsw⟩)] at hok
      cases hok
  · intro h
    obtain ⟨m, hm, hrun⟩ := checkVertex_ready_eq it hd h.ready
    obtain ⟨m', hm', hfits⟩ := h.height
    cases hm.symm.trans hm'
    obtain ⟨cs, hcs, _, hmem⟩ := hlist h.ready h.unrejected h.antichain
    rw [hrun, if_neg (not_not.mpr hfits.symm), hcs, Outcome.ok_bind, if_neg]
    rw [hasConflict_iff]
    rintro ⟨c, hc, hne, hsw⟩
    exact h.consistent c hne ((hmem c).mp hc) ((hmem _).mp hsw)

end Taurus
