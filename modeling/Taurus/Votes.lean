import Taurus.Record
import Taurus.Graph
import Taurus.StateMap

namespace Taurus

open Relation

variable {H : Type} [LinearOrder H] {it : HashOrders H} {graph : Graph H} {root : H}
  {genesis : Vertex H} {state : StateMap H} {c : Constraint H}

namespace ConflictSet.WellFormed

variable {k : ConflictSetKey H} {cs : ConflictSet H}

/-- A map defined on the constraints of a key stays so when one of them is written. -/
theorem mem_insert_iff {V : Type} {m : HashMap (Constraint H) V} {v : V}
    (hm : ∀ d, d ∈ m ↔ d.conflictSetKey = k) (hc : c.conflictSetKey = k) (d : Constraint H) :
    d ∈ m.insert c v ↔ d.conflictSetKey = k := by
  rw [Finmap.mem_insert, hm]
  exact ⟨fun h => h.elim (fun he => he ▸ hc) id, Or.inr⟩

theorem decide (hw : cs.WellFormed k) (hc : c.conflictSetKey = k) (b : Bool) :
    { cs with decision := cs.decision.insert c b }.WellFormed k :=
  { hw with
    decision := fun d hd => by
      rcases Finmap.mem_insert.mp hd with rfl | hd
      · exact hc
      · exact hw.decision d hd }

end ConflictSet.WellFormed

/-- The second state map is the first one with the constraints of `S` rejected. -/
structure Rejects (S : Constraint H → Prop) (state state' : StateMap H) : Prop where
  shape : SameShape state state'
  inside : ∀ d, S d → decisionOf state' d = some false
  outside : ∀ d, ¬ S d → decisionOf state' d = decisionOf state d

theorem Rejects.nil (state : StateMap H) : Rejects (fun _ => False) state state where
  shape := .refl state
  inside _ h := h.elim
  outside _ _ := rfl

theorem Rejects.trans {S T : Constraint H → Prop} {s t u : StateMap H} (hst : Rejects S s t)
    (htu : Rejects T t u) : Rejects (fun d => S d ∨ T d) s u where
  shape := hst.shape.trans htu.shape
  inside d h := by
    by_cases hT : T d
    · exact htu.inside d hT
    · rw [htu.outside d hT]
      exact hst.inside d (h.resolve_right hT)
  outside d h := by
    rw [htu.outside d fun hT => h (Or.inr hT), hst.outside d fun hS => h (Or.inl hS)]

theorem Rejects.congr {S T : Constraint H → Prop} {s t : StateMap H} (h : Rejects S s t)
    (hST : ∀ d, S d ↔ T d) : Rejects T s t where
  shape := h.shape
  inside d hT := h.inside d ((hST d).mpr hT)
  outside d hT := h.outside d fun hS => hT ((hST d).mp hS)

theorem decisionOf_insert {cs cs' : ConflictSet H} {b : Bool}
    (hcs : state.lookup c.conflictSetKey = some cs) (hd : cs'.decision = cs.decision.insert c b)
    (d : Constraint H) :
    decisionOf (state.insert c.conflictSetKey cs') d = if d = c then some b else decisionOf state d := by
  rw [decisionOf, entry_insert, hd, HashMap.lookup_insert]
  by_cases hk : d.conflictSetKey = c.conflictSetKey
  · rw [if_pos hk, decisionOf, entry_of_lookup (hk ▸ hcs)]
  · have hdc : d ≠ c := fun h => hk (congrArg _ h)
    rw [if_neg hk, if_neg hdc]
    rfl

theorem decisionOf_insert_of_eq {cs cs' : ConflictSet H}
    (hcs : state.lookup c.conflictSetKey = some cs) (hd : cs'.decision = cs.decision) :
    decisionOf (state.insert c.conflictSetKey cs') = decisionOf state :=
  funext fun d => entry_insert_of_eq hcs hd d

theorem rejects_insert {cs : ConflictSet H} (hcs : state.lookup c.conflictSetKey = some cs) :
    Rejects (· = c) state
      (state.insert c.conflictSetKey { cs with decision := cs.decision.insert c false }) where
  shape := .insert hcs rfl rfl fun hw => hw.decide rfl false
  inside d h := by rw [decisionOf_insert hcs rfl, if_pos h]
  outside d h := by rw [decisionOf_insert hcs rfl, if_neg h]

section
variable (hs : graph.Shaped root genesis)
  (hS : Stores graph.Registered graph.ParentConstraint state)
include hs hS

/-- A constraint with an entry names two inserted vertices, which bounds its rank. -/
theorem rank_bounds (hc : c.conflictSetKey ∈ state) :
    genesis.height ≤ graph.rank c ∧ graph.rank c + 1 ≤ genesis.height + graph.keys.card := by
  obtain ⟨d, hd, hk⟩ := (hS.key_mem _).mp hc
  obtain ⟨hl, hr⟩ := hs.registered_mem hd
  have hbl := hs.height_bounds hl
  have hbr := hs.height_bounds hr
  have hrank : graph.rank c = graph.rank d := by
    rcases (Constraint.conflictSetKey_eq_iff d c).mp hk with rfl | rfl
    · rfl
    · exact max_comm _ _
  rw [hrank, Graph.rank]
  omega

end

/-- `reject_progeny` ends, and rejects exactly the constraint and what lies below it. -/
theorem rejectProgeny_spec (it : HashOrders H) (hs : graph.Shaped root genesis) (fuel : Nat) (state : StateMap H)
    (c : Constraint H) (hS : Stores graph.Registered graph.ParentConstraint state)
    (hc : c.conflictSetKey ∈ state)
    (hfuel : genesis.height + graph.keys.card ≤ fuel + graph.rank c) :
    ∃ state', DAG.rejectProgeny it fuel state c = some state' ∧
      Rejects (ReflTransGen graph.constraintGraph.child c) state state' := by
  induction fuel generalizing state c with
  | zero =>
    -- without fuel the bound contradicts the rank of `c`
    have hb := rank_bounds hs hS hc
    omega
  | succ fuel ih =>
    obtain ⟨cs, hcs, hw⟩ := hS.lookup hc
    obtain ⟨s, hch⟩ := Finmap.mem_iff.mp ((hw.children c).mpr rfl)
    have hchild := hS.children c s (by rw [childrenOf, entry_of_lookup hcs, hch])
    have hfirst := rejects_insert hcs
    -- the children in turn, each with what lies below it
    have hrest (l : List (Constraint H)) (hl : ∀ d ∈ l, graph.constraintGraph.child c d) :
        ∀ t, SameShape state t → ∃ u, l.foldlM (DAG.rejectProgeny it fuel) t = some u ∧
          Rejects (fun d => ∃ e ∈ l, ReflTransGen graph.constraintGraph.child e d) t u := by
      induction l with
      | nil => exact fun t _ => ⟨t, rfl, (Rejects.nil t).congr (by simp)⟩
      | cons e l ihl =>
        intro t ht
        have he := hl e (by simp)
        have hSt := hS.sameShape ht
        have hrank := hs.rank_lt he.2
        obtain ⟨u, hu, htu⟩ := ih t e hSt (hSt.mem_of_registered he.1) (by omega)
        obtain ⟨v, hv, huv⟩ := ihl (fun d hd => hl d (by simp [hd])) u (ht.trans htu.shape)
        exact ⟨v, foldlM_cons_eq_some.mpr ⟨u, hu, hv⟩, (htu.trans huv).congr (by simp)⟩
    obtain ⟨u, hu, hall⟩ := hrest (it.constraints.order c s)
      (fun d hd => (hchild d).mp ((HashOrder.mem_order _ _ _ _).mp hd)) _ hfirst.shape
    refine ⟨u, ?_, (hfirst.trans hall).congr fun d => ?_⟩
    · simp only [DAG.rejectProgeny, hcs, hch, Option.bind_eq_bind, Option.bind_some, hu]
    · rw [ReflTransGen.cases_head_iff]
      simp only [HashOrder.mem_order, hchild, @eq_comm _ d c]
      rfl

/-- `progeny_with_chits` ends on every constraint with an entry. It lists those with a chit among
the constraint and what lies below it. -/
theorem progenyWithChits_spec (it : HashOrders H) (hs : graph.Shaped root genesis)
    (hS : Stores graph.Registered graph.ParentConstraint state) (fuel : Nat) (c : Constraint H)
    (hc : c.conflictSetKey ∈ state)
    (hfuel : genesis.height + graph.keys.card ≤ fuel + graph.rank c) :
    ∃ l, DAG.progenyWithChits it state fuel c = some l ∧
      ∀ d, d ∈ l ↔ chitOf state d = some true ∧ ReflTransGen graph.constraintGraph.child c d := by
  induction fuel generalizing c with
  | zero =>
    have hb := rank_bounds hs hS hc
    omega
  | succ fuel ih =>
    -- a child has a greater rank, so the fuel lasts for what lies below it
    obtain ⟨cs, hcs, hw⟩ := hS.lookup hc
    obtain ⟨s, hch⟩ := Finmap.mem_iff.mp ((hw.children c).mpr rfl)
    obtain ⟨b, hb⟩ := Finmap.mem_iff.mp ((hw.chit c).mpr rfl)
    have hchild : ∀ d, d ∈ s ↔ graph.constraintGraph.child c d :=
      hS.children c s (by rw [childrenOf, entry_of_lookup hcs, hch])
    have hbelow (d : Constraint H) (hd : d ∈ s) : ∃ l, DAG.progenyWithChits it state fuel d = some l ∧
        ∀ e, e ∈ l ↔ chitOf state e = some true ∧ ReflTransGen graph.constraintGraph.child d e := by
      have hcd := (hchild d).mp hd
      have hrank := hs.rank_lt hcd.2
      exact ih d (hS.mem_of_registered hcd.1) (by omega)
    choose! g hg hmem using hbelow
    have hmap : (it.constraints.order c s).mapM (DAG.progenyWithChits it state fuel) =
        some ((it.constraints.order c s).map g) :=
      mapM_eq_map _ g _ fun d hd => hg d ((HashOrder.mem_order _ _ _ _).mp hd)
    refine ⟨if b then ((it.constraints.order c s).map g).flatten ++ [c]
      else ((it.constraints.order c s).map g).flatten, ?_, fun d => ?_⟩
    · simp only [DAG.progenyWithChits, hcs, hch, hb, hmap, Option.bind_eq_bind, Option.bind_some,
        Option.pure_def]
    · have hflat : d ∈ ((it.constraints.order c s).map g).flatten ↔ chitOf state d = some true ∧
          ∃ e, graph.constraintGraph.child c e ∧ ReflTransGen graph.constraintGraph.child e d := by
        simp only [List.mem_flatten, List.mem_map, exists_exists_and_eq_and, HashOrder.mem_order]
        constructor
        · rintro ⟨e, he, hd⟩
          obtain ⟨hchit, hed⟩ := (hmem e he d).mp hd
          exact ⟨hchit, e, (hchild e).mp he, hed⟩
        · rintro ⟨hchit, e, hce, hed⟩
          exact ⟨e, (hchild e).mpr hce, (hmem e ((hchild e).mpr hce) d).mpr ⟨hchit, hed⟩⟩
      -- the constraint itself comes last, if it has a chit
      have hown : chitOf state c = some b := by rw [chitOf, entry_of_lookup hcs, hb]
      rw [ReflTransGen.cases_head_iff, and_or_left, ← hflat]
      cases b with
      | true =>
        rw [if_pos rfl, List.mem_append, List.mem_singleton, or_comm, eq_comm]
        refine or_congr_left ⟨?_, And.right⟩
        rintro rfl
        exact ⟨hown, rfl⟩
      | false =>
        rw [if_neg Bool.false_ne_true, or_iff_right]
        rintro ⟨hchit, rfl⟩
        rw [hown] at hchit
        cases hchit

/-- The counter a conflict set holds for `c` after a positive vote. -/
def ConflictSet.tally (cs : ConflictSet H) (c : Constraint H) : Nat :=
  if cs.last = c then (cs.count.lookup c).getD 0 + 1 else 1

/-- The counter of `c` after a positive vote. -/
def tally (state : StateMap H) (c : Constraint H) : Nat :=
  ((state.lookup c.conflictSetKey).map fun cs => cs.tally c).getD 0

/-- Are the parent constraints stored for `c` all accepted? -/
def ParentsAccepted (state : StateMap H) (c : Constraint H) : Prop :=
  ∃ s, parentsOf state c = some s ∧ ∀ p ∈ s, decisionOf state p = some true

/-- Does a positive vote make `c` accepted? -/
def Accepts (config : Config) (state : StateMap H) (c : Constraint H) : Prop :=
  config.threshAccepted ≤ tally state c ∨
    c.left = c.right ∧ ParentsAccepted state c ∧ config.threshSafeEarlyCommit ≤ tally state c

theorem countVote_eq {cs : ConflictSet H} (hw : cs.WellFormed c.conflictSetKey) :
    DAG.countVote cs c = some { cs with last := c, count := cs.count.insert c (cs.tally c) } := by
  obtain ⟨n, hn⟩ := Finmap.mem_iff.mp ((hw.count c).mpr rfl)
  unfold DAG.countVote ConflictSet.tally
  by_cases h : cs.last = c
  · simp only [h, hn, ne_eq, not_true_eq_false, ↓reduceIte, Option.bind_eq_bind, Option.bind_some,
      Option.pure_def, Option.getD_some]
  · simp only [h, ne_eq, not_false_eq_true, ↓reduceIte]

theorem isAccepted_eq {p : Constraint H} (hp : p.conflictSetKey ∈ state) :
    DAG.isAccepted state p = some (decisionOf state p == some true) := by
  obtain ⟨cs, hcs⟩ := Finmap.mem_iff.mp hp
  rw [DAG.isAccepted, hcs, decisionOf, entry_of_lookup hcs]
  rfl

theorem canAccept_eq (it : HashOrders H) (config : Config) (n : Nat) {s : HashSet (Constraint H)}
    (hS : Stores graph.Registered graph.ParentConstraint state)
    (hp : parentsOf state c = some s) (b : Bool) (hb : b = true ↔ c.left ≠ c.right) :
    ∃ r, DAG.canAccept it config state c n s b = some r ∧ (r = true ↔
      config.threshAccepted ≤ n ∨
        c.left = c.right ∧ ParentsAccepted state c ∧ config.threshSafeEarlyCommit ≤ n) := by
  unfold DAG.canAccept
  by_cases hn : n ≥ config.threshAccepted
  · exact ⟨true, by rw [if_pos hn], by simp [hn]⟩
  · have hall := allM_eq_all (DAG.isAccepted state) (fun p => decisionOf state p == some true)
      (it.constraints.order c s) fun p hps => by
        have hpc := (hS.parents c s hp p ((HashOrder.mem_order _ _ _ _).mp hps)).2
        exact isAccepted_eq (hS.mem_of_registered (Graph.registered_of_parentConstraint hpc))
    have hpa : ParentsAccepted state c ↔ ∀ p ∈ s, decisionOf state p = some true := by
      simp [ParentsAccepted, hp]
    rw [if_neg hn, hall]
    refine ⟨_, rfl, ?_⟩
    cases b <;> simp_all

theorem confidence_total (it : HashOrders H) (hs : graph.Shaped root genesis)
    (hS : Stores graph.Registered graph.ParentConstraint state) {depth : Nat}
    (hd : graph.keys.card ≤ depth) (hc : c.conflictSetKey ∈ state) :
    ∃ n, DAG.confidence it depth state c = some n := by
  have hb := rank_bounds hs hS hc
  obtain ⟨l, hl, _⟩ := progenyWithChits_spec it hs hS depth c hc (by omega)
  exact ⟨l.eraseDups.length, by rw [DAG.confidence, hl]; rfl⟩

theorem oppConfidence_total (it : HashOrders H) (hs : graph.Shaped root genesis)
    (hS : Stores graph.Registered graph.ParentConstraint state) {depth : Nat}
    (hd : graph.keys.card ≤ depth) (hc : c.conflictSetKey ∈ state) :
    ∃ n, DAG.oppConfidence it depth state c = some n := by
  unfold DAG.oppConfidence
  cases ho : c.conflict with
  | none => exact ⟨0, rfl⟩
  | some o =>
    have hko := Constraint.conflictSetKey_conflict c o ho
    exact confidence_total it hs hS hd (by rwa [hko])

/-- Once a constraint has an entry so has its opposite, in the same conflict set. -/
theorem hasConflictSet_iff (hc : c.conflictSetKey ∈ state) :
    DAG.hasConflictSet state c = true ↔ c.left ≠ c.right := by
  unfold DAG.hasConflictSet
  cases ho : c.conflict with
  | none => simp [(Constraint.conflict_eq_none c).mp ho]
  | some o =>
    have hko := Constraint.conflictSetKey_conflict c o ho
    simp [((Constraint.conflict_eq_some c o).mp ho).1, hko, hc]

/-- Accepting a constraint writes the verdicts of the abstract acceptance step. -/
theorem accept_spec (it : HashOrders H) (hs : graph.Shaped root genesis)
    (hS : Stores graph.Registered graph.ParentConstraint state) {depth : Nat}
    (hd : graph.keys.card ≤ depth) (hc : c.conflictSetKey ∈ state) :
    ∃ state', DAG.accept it depth state c = some state' ∧ SameShape state state' ∧
      decisionOf state' = graph.constraintGraph.accepted (decisionOf state) c := by
  obtain ⟨cs, hcs⟩ := Finmap.mem_iff.mp hc
  have hshape : SameShape state (state.insert c.conflictSetKey
      { cs with decision := cs.decision.insert c true, preferred := c }) :=
    .insert hcs rfl rfl fun hw => { hw.decide rfl true with preferred := rfl }
  have hdec (d : Constraint H) : decisionOf (state.insert c.conflictSetKey
      { cs with decision := cs.decision.insert c true, preferred := c }) d =
        if d = c then some true else decisionOf state d :=
    decisionOf_insert hcs rfl d
  simp only [DAG.accept, hcs, Option.bind_eq_bind, Option.bind_some]
  generalize state.insert c.conflictSetKey
    { cs with decision := cs.decision.insert c true, preferred := c } = t at hshape hdec
  cases ho : c.conflict with
  | none =>
    refine ⟨t, rfl, hshape, funext fun d => ?_⟩
    have hna : ¬ graph.constraintGraph.Against c d := by
      rintro ⟨o, hco, _⟩
      rw [Graph.constraintGraph_opposite, ho] at hco
      cases hco
    rw [hdec, ConflictGraph.accepted, if_neg hna]
    congr
  | some o =>
    have hko := Constraint.conflictSetKey_conflict c o ho
    -- the opposite is rejected in the state in which `c` is marked
    have hSt := hS.sameShape hshape
    have hot : o.conflictSetKey ∈ t := by rwa [hshape.mem_iff, hko]
    have hb := rank_bounds hs hSt hot
    obtain ⟨u, hu, hrej⟩ := rejectProgeny_spec it hs depth t o hSt hot (by omega)
    refine ⟨u, hu, hshape.trans hrej.shape, funext fun d => ?_⟩
    have hag : graph.constraintGraph.Against c d ↔
        ReflTransGen graph.constraintGraph.child o d := by
      constructor
      · rintro ⟨o', ho', hd⟩
        rw [Graph.constraintGraph_opposite, ho] at ho'
        cases ho'
        exact hd
      · exact fun h => ⟨o, ho, h⟩
    by_cases h : ReflTransGen graph.constraintGraph.child o d
    · rw [hrej.inside d h, ConflictGraph.accepted, if_pos (hag.mpr h)]
    · rw [hrej.outside d h, ConflictGraph.accepted, if_neg (hag.not.mpr h), hdec]
      congr

/-- A positive vote on a constraint with an entry never panics. It changes the decisions
only if the constraint becomes accepted, and then by the abstract acceptance step. -/
theorem voteFor_spec (it : HashOrders H) (config : Config) (hs : graph.Shaped root genesis)
    (hS : Stores graph.Registered graph.ParentConstraint state) {depth : Nat}
    (hd : graph.keys.card ≤ depth) (hc : c.conflictSetKey ∈ state) :
    ∃ state', DAG.voteFor it config depth state c = some state' ∧ SameShape state state' ∧
      (Accepts config state c →
        decisionOf state' = graph.constraintGraph.accepted (decisionOf state) c) ∧
      (¬ Accepts config state c → decisionOf state' = decisionOf state) := by
  obtain ⟨cConf, hcConf⟩ := confidence_total it hs hS hd hc
  obtain ⟨oppConf, hoppConf⟩ := oppConfidence_total it hs hS hd hc
  obtain ⟨cs, hcs, hw⟩ := hS.lookup hc
  -- the conflict set with the confidence written, then with the vote counted
  let cs1 : ConflictSet H := { cs with
    confidence := cs.confidence.insert c cConf
    preferred := if cConf > oppConf then c else cs.preferred }
  let cs2 : ConflictSet H := { cs1 with last := c, count := cs1.count.insert c (cs.tally c) }
  have hw1 : cs1.WellFormed c.conflictSetKey :=
    { hw with
      confidence := ConflictSet.WellFormed.mem_insert_iff hw.confidence rfl
      preferred := by
        change (if cConf > oppConf then c else cs.preferred).conflictSetKey = _
        split
        · rfl
        · exact hw.preferred }
  have hw2 : cs2.WellFormed c.conflictSetKey :=
    { hw1 with
      count := ConflictSet.WellFormed.mem_insert_iff hw1.count rfl
      last := rfl }
  let t := state.insert c.conflictSetKey cs2
  have hshape : SameShape state t := .insert hcs rfl rfl fun _ => hw2
  have hdec : decisionOf t = decisionOf state := decisionOf_insert_of_eq hcs rfl
  have hSt := hS.sameShape hshape
  obtain ⟨s, hps⟩ := Finmap.mem_iff.mp ((hw.parents c).mpr rfl)
  have hpt : parentsOf t c = some s := by
    rw [hshape.parentsOf_eq, parentsOf, entry_of_lookup hcs, hps]
  obtain ⟨r, hr, hri⟩ := canAccept_eq it config (cs.tally c) hSt hpt _
    (hasConflictSet_iff hc)
  have htally : tally state c = cs.tally c := by rw [tally, hcs]; rfl
  -- the test sees the state after the counting, where no decision has changed yet
  have hiff : r = true ↔ Accepts config state c := by
    have hpa : ParentsAccepted t c ↔ ParentsAccepted state c := by
      rw [ParentsAccepted, ParentsAccepted, hshape.parentsOf_eq, hdec]
    rw [hri, hpa, Accepts, htally]
  have hvote : DAG.countVote cs1 c = some cs2 := countVote_eq hw1
  have hrun : DAG.voteFor it config depth state c =
      if r then DAG.accept it depth t c else some t := by
    simp only [DAG.voteFor, hcConf, hoppConf, hcs, Option.bind_eq_bind, Option.bind_some,
      Option.pure_def]
    change (DAG.countVote cs1 c).bind _ = _
    rw [hvote, Option.bind_some]
    rw [show cs2.count.lookup c = some (cs.tally c) from Finmap.lookup_insert _, Option.bind_some]
    change (cs.parents.lookup c).bind _ = _
    rw [hps, Option.bind_some]
    change (DAG.canAccept it config t c (cs.tally c) s (DAG.hasConflictSet state c)).bind _ = _
    rw [hr, Option.bind_some]
  rw [hrun]
  by_cases ha : Accepts config state c
  · obtain ⟨u, hu, hsu, hdu⟩ := accept_spec it hs hSt hd ((hshape.mem_iff _).mpr hc)
    rw [if_pos (hiff.mpr ha)]
    exact ⟨u, hu, hshape.trans hsu, fun _ => hdu.trans (by rw [hdec]), fun h => absurd ha h⟩
  · rw [if_neg (hiff.not.mpr ha)]
    exact ⟨t, rfl, hshape, fun h => absurd h ha, fun _ => hdec⟩

/-- A negative vote, and the award of a chit, leave the decisions alone. -/
theorem voteAgainst_spec (hS : Stores graph.Registered graph.ParentConstraint state)
    (hc : c.conflictSetKey ∈ state) :
    ∃ state', DAG.voteAgainst state c = some state' ∧ SameShape state state' ∧
      decisionOf state' = decisionOf state := by
  obtain ⟨cs, hcs, _⟩ := hS.lookup hc
  refine ⟨_, by simp only [DAG.voteAgainst, hcs, Option.bind_eq_bind, Option.bind_some]; rfl, ?_, ?_⟩
  · exact .insert hcs rfl rfl fun hw =>
      { hw with count := ConflictSet.WellFormed.mem_insert_iff hw.count rfl }
  · exact decisionOf_insert_of_eq hcs rfl

theorem awardChit_spec (hS : Stores graph.Registered graph.ParentConstraint state)
    (hc : c.conflictSetKey ∈ state) :
    ∃ state', DAG.awardChit state c = some state' ∧ SameShape state state' ∧
      decisionOf state' = decisionOf state := by
  obtain ⟨cs, hcs, _⟩ := hS.lookup hc
  refine ⟨_, by simp only [DAG.awardChit, hcs, Option.bind_eq_bind, Option.bind_some]; rfl, ?_, ?_⟩
  · exact .insert hcs rfl rfl fun hw =>
      { hw with chit := ConflictSet.WellFormed.mem_insert_iff hw.chit rfl }
  · exact decisionOf_insert_of_eq hcs rfl

end Taurus
