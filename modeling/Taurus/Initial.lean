import Taurus.Counters
import Taurus.Founding
import Taurus.Wire

namespace Taurus

variable {H : Type} [LinearOrder H] {hash : Vertex H → H} {it : HashOrders H} {config : Config}
  {dag dag' : DAG H} {vx : Vertex H} {init : List (Vertex H)} {s t u : StateMap H}
  {c : Constraint H} {U : Constraint H → Prop}

/-- Runs from a list of decided vertices. -/
def DAG.systemFrom (hash : Vertex H → H) (config : Config) (init : List (Vertex H)) :
    System (DAG H) (Call H) where
  init dag := ∃ it, DAG.new hash it config init = .ok dag
  step := DAG.apply hash

/-- Do the initial vertices settle the orderings they commit to, and is that final? -/
structure SettlesInitial (hash : Vertex H → H) (config : Config) (init : List (Vertex H)) :
    Prop where
  settled : ∀ dag, (DAG.systemFrom hash config init).init dag → ∀ vx ∈ init,
    ∀ c ∈ vx.parentConstraints, c.left ≠ c.right →
      decisionOf dag.state c = some true ∧ decisionOf dag.state c.swap = some false
  accepted : ∀ dag, (DAG.systemFrom hash config init).Reachable dag → ∀ vx ∈ init, ∀ it,
    dag.query hash it (hash vx) = .ok (true, true)
  refuted : ∀ dag, (DAG.systemFrom hash config init).Reachable dag → ∀ vx ∈ init,
    ∀ c ∈ vx.parentConstraints, c.left ≠ c.right → ∀ v, c.swap ∈ dag.graph.commitments v →
      ∀ it, dag.query hash it v = .ok (false, true)

/-- Is the constraint decided from the start? -/
def Initial (hash : Vertex H → H) (init : List (Vertex H)) (c : Constraint H) : Prop :=
  ∃ vx ∈ init, c ∈ vx.parentConstraints ++ [.unity (hash vx)]

/-- A vote does not accept the opposite of an initial ordering. -/
def Unopposed (hash : Vertex H → H) (init : List (Vertex H)) (dag : DAG H) (c : Constraint H) :
    Prop :=
  c.left ≠ c.right → Initial hash init c.swap → tally dag.state c < dag.config.threshAccepted

instance (c : Constraint H) : Decidable (Initial hash init c) :=
  inferInstanceAs (Decidable (∃ vx ∈ init, c ∈ vx.parentConstraints ++ [.unity (hash vx)]))

instance (dag : DAG H) (c : Constraint H) : Decidable (Unopposed hash init dag c) :=
  inferInstanceAs (Decidable (_ → _ → _))

/-- Are the constraints above those of a set in it, too? -/
def Apart (U : Constraint H → Prop) (s : StateMap H) : Prop :=
  ∀ p ch, childrenOf s p = some ch → ∀ c ∈ ch, U c → U p

/-- No constraint of a set that is closed towards the parents loses its acceptance. -/
def Spares (U : Constraint H → Prop) (s t : StateMap H) : Prop :=
  Apart U s → Apart U t ∧ ∀ c, U c → decisionOf s c = some true → decisionOf t c = some true

namespace Spares

theorem refl (s : StateMap H) : Spares U s s := fun h => ⟨h, fun _ _ hd => hd⟩

theorem trans (hst : Spares U s t) (htu : Spares U t u) : Spares U s u := by
  intro h
  obtain ⟨ht, hdt⟩ := hst h
  obtain ⟨hu, hdu⟩ := htu ht
  exact ⟨hu, fun c hc hd => hdu c hc (hdt c hc hd)⟩

/-- A conflict set is written, with another decision on `c` at most. -/
theorem write {cs cs' : ConflictSet H} (hcs : s.lookup c.conflictSetKey = some cs)
    (hch : cs'.children = cs.children)
    (hdec : ∀ d, U d → cs.decision.lookup d = some true → cs'.decision.lookup d = some true) :
    Spares U s (s.insert c.conflictSetKey cs') := by
  refine fun h => ⟨fun p ch hp => ?_, fun d hd hs => ?_⟩
  · rw [childrenOf, entry_insert_of_eq hcs hch] at hp
    exact h p ch hp
  · rw [decisionOf, entry_insert]
    split
    · next hk =>
      rw [decisionOf, entry_of_lookup (hk ▸ hcs)] at hs
      exact hdec d hd hs
    · exact hs

theorem accept_write {cs cs' : ConflictSet H} (hcs : s.lookup c.conflictSetKey = some cs)
    (hch : cs'.children = cs.children) (hd : cs'.decision = cs.decision.insert c true) :
    Spares U s (s.insert c.conflictSetKey cs') := by
  refine write hcs hch fun d _ hs => ?_
  rw [hd, HashMap.lookup_insert]
  split
  · rfl
  · exact hs

/-- Rejection never climbs to a parent, so it stays outside the set. -/
theorem rejectProgeny {fuel : Nat} (hc : ¬ U c) (h : DAG.rejectProgeny it fuel s c = some t) :
    Spares U s t := by
  induction fuel generalizing s c t with
  | zero => cases h
  | succ fuel ih =>
    simp only [DAG.rejectProgeny, Option.bind_eq_bind, Option.bind_eq_some_iff] at h
    obtain ⟨cs, hcs, children, hch, hf⟩ := h
    intro hs
    have hout (d : Constraint H) (hd : d ∈ children) : ¬ U d := fun hU =>
      hc (hs c children (by rw [childrenOf, entry_of_lookup hcs, hch]) d hd hU)
    have hwrite : Spares U s (s.insert c.conflictSetKey
        { cs with decision := cs.decision.insert c false }) := by
      refine write hcs rfl fun d hd htrue => ?_
      have hne : d ≠ c := fun he => hc (he ▸ hd)
      rw [HashMap.lookup_insert, if_neg hne]
      exact htrue
    refine (hwrite.trans (foldlM_rel (R := Spares U) refl (fun _ _ _ => trans) _
      (fun s d hd t ht => ih (hout d ?_) ht) hf)) hs
    rwa [HashOrder.mem_order] at hd

/-- A vote that does not accept the opposite of a constraint of the set. -/
theorem voteFor {depth : Nat}
    (hun : ∀ o, c.conflict = some o → U o → tally s c < config.threshAccepted)
    (h : DAG.voteFor it config depth s c = some t) : Spares U s t := by
  obtain ⟨cs, cs₁, hcs, hcounted, rfl | ⟨accepted, rfl, haccept⟩⟩ := voteFor_cases h
  · exact write hcs hcounted.children fun d _ hd => hcounted.decision ▸ hd
  have hfirst : Spares U s (s.insert c.conflictSetKey cs₁) :=
    write hcs hcounted.children fun d _ hd => hcounted.decision ▸ hd
  have haccepted : Spares U (s.insert c.conflictSetKey cs₁)
      ((s.insert c.conflictSetKey cs₁).insert c.conflictSetKey
        { cs₁ with decision := cs₁.decision.insert c true, preferred := c }) :=
    accept_write (Finmap.lookup_insert s) rfl rfl
  refine hfirst.trans (haccepted.trans ?_)
  rcases haccept with ⟨_, rfl⟩ | ⟨o, ho, hthresh, hrej⟩
  · exact refl _
  · exact rejectProgeny (fun hU => (hun o ho hU).not_ge hthresh) hrej

theorem voteAgainst (h : DAG.voteAgainst s c = some t) : Spares U s t := by
  obtain ⟨cs, hcs, rfl⟩ := voteAgainst_eq_some h
  exact write hcs rfl fun _ _ hd => hd

theorem awardIfPreferred {b : Bool} (h : DAG.awardIfPreferred b s c = some t) : Spares U s t := by
  rcases awardIfPreferred_cases h with rfl | ⟨cs, hcs, rfl⟩
  · exact refl _
  · exact write hcs rfl fun _ _ hd => hd

theorem markAccepted (h : DAG.markAccepted s c = some t) : Spares U s t := by
  simp only [DAG.markAccepted, Option.bind_eq_bind, Option.bind_eq_some_iff, Option.pure_def,
    Option.some.injEq] at h
  obtain ⟨cs, hcs, rfl⟩ := h
  exact accept_write hcs rfl rfl

/-- The constraint is added to the children of one of its parents. -/
theorem registerChild {p : Constraint H} (hp : U c → U p)
    (h : DAG.registerChild c s p = some t) : Spares U s t := by
  have hg : Grown (fun _ => True) s t := registerChild_grown h
  obtain ⟨cs, known, hcs, hknown, rfl⟩ := registerChild_eq_some h
  refine fun hs => ⟨fun q ch hch d hd hU => ?_, fun d _ hd => ?_⟩
  · rw [childrenOf, entry_insert] at hch
    split at hch
    swap
    · exact hs q ch hch d hd hU
    next hk =>
      have hold (ch : HashSet (Constraint H)) (hch : cs.children.lookup q = some ch)
          (hd : d ∈ ch) : U q :=
        hs q ch (by rw [childrenOf, entry_of_lookup (hk ▸ hcs), hch]) d hd hU
      rw [HashMap.lookup_insert] at hch
      split at hch
      swap
      · exact hold ch hch hd
      next hq =>
        subst hq
        cases hch
        rw [hknown, Finset.mem_insert] at hd
        rcases hd with rfl | hd
        · exact hp hU
        · cases hl : cs.children.lookup q with
          | none =>
            rw [hl] at hd
            exact absurd hd (Finset.notMem_empty d)
          | some ch =>
            rw [hl] at hd
            exact hold ch hl hd
  · rw [hg.decisionOf_eq (mem_of_entry hd), hd]

/-- The parents of a constraint of the set, as a vertex map gives them, are in the set. -/
theorem insertConstraint {vertex : HashMap H (Vertex H)}
    (hpar : U c → ∀ x y, vertex.lookup c.left = some x → vertex.lookup c.right = some y →
      ∀ p ∈ x.parentConstraints ++ y.parentConstraints, U p)
    (h : DAG.insertConstraint it vertex s c = some t) : Spares U s t := by
  have hg : Grown (fun _ => True) s t := insertConstraint_grown trivial h
  obtain ⟨x, y, u, rejected, hx, hy, hu, ht⟩ := insertConstraint_eq_some h
  have hsu : Spares U s u := foldlM_rel (R := Spares U) refl (fun _ _ _ => trans) _
    (fun s p hp t ht => registerChild (fun hU => hpar hU x y hx hy p (by
      rwa [HashOrder.mem_order, List.mem_toFinset] at hp)) ht) hu
  refine fun hs => ⟨fun q ch hch d hd hU => ?_, fun d _ hd => ?_⟩
  · rw [ht, childrenOf, entry_tryInsert] at hch
    split at hch
    · -- a new conflict set has no children
      have hempty : ch = ∅ := by
        rw [children_bornConflictSet] at hch
        split at hch
        · exact (Option.some.inj hch).symm
        split at hch
        · exact (Option.some.inj hch).symm
        · cases hch
      rw [hempty] at hd
      exact absurd hd (Finset.notMem_empty d)
    · exact (hsu hs).1 q ch hch d hd hU
  · rw [hg.decisionOf_eq (mem_of_entry hd), hd]

theorem insert
    (hpar : ∀ c, U c → ∀ x y, (dag.vertex.insert (hash vx) vx).lookup c.left = some x →
      (dag.vertex.insert (hash vx) vx).lookup c.right = some y →
        ∀ p ∈ x.parentConstraints ++ y.parentConstraints, U p)
    (h : dag.insert hash it vx = some dag') : Spares U dag.state dag'.state := by
  obtain ⟨hvertex, _, _⟩ := insert_eq_some h
  rw [← hvertex] at hpar
  exact insert_rel (R := Spares U) refl (fun _ _ _ => trans)
    (fun _ c _ _ ht => insertConstraint (hpar c) ht) h

end Spares

omit [LinearOrder H] in
/-- Every initial constraint is between initial vertices. -/
theorem Initial.ends (hl : LegalInit hash init) (hc : Initial hash init c) :
    c.left ∈ init.map hash ∧ c.right ∈ init.map hash := by
  obtain ⟨vx, hvx, hc⟩ := hc
  rcases List.mem_append.mp hc with hc | hc
  · obtain ⟨before, after, hi⟩ := List.append_of_mem hvx
    obtain ⟨hleft, hright⟩ := vx.parents_of_mem_parentConstraints c hc
    have hsub : before.map hash ⊆ init.map hash := by
      rw [hi]
      exact List.map_subset hash (List.subset_append_left before _)
    exact ⟨hsub (hl.parents_before hi _ hleft), hsub (hl.parents_before hi _ hright)⟩
  · rw [List.mem_singleton.mp hc]
    exact ⟨List.mem_map_of_mem hvx, List.mem_map_of_mem hvx⟩

/-- What is above an initial constraint is initial, if initial hashes are those of initial
vertices. -/
theorem Initial.parents {vertex : HashMap H (Vertex H)} (hl : LegalInit hash init)
    (hv : ∀ w ∈ init, ∀ x, vertex.lookup (hash w) = some x → x ∈ init)
    (hc : Initial hash init c) (x y : Vertex H) (hx : vertex.lookup c.left = some x)
    (hy : vertex.lookup c.right = some y) (p : Constraint H)
    (hp : p ∈ x.parentConstraints ++ y.parentConstraints) : Initial hash init p := by
  obtain ⟨hleft, hright⟩ := hc.ends hl
  obtain ⟨w, hw, hwl⟩ := List.mem_map.mp hleft
  obtain ⟨z, hz, hzr⟩ := List.mem_map.mp hright
  rcases List.mem_append.mp hp with hp | hp
  · exact ⟨x, hv w hw x (hwl ▸ hx), List.mem_append_left _ hp⟩
  · exact ⟨y, hv z hz y (hzr ▸ hy), List.mem_append_left _ hp⟩

/-- The initial vertices are in the graph, and their constraints accepted. -/
structure Kept (hash : Vertex H → H) (init : List (Vertex H)) (dag : DAG H) : Prop where
  known : ∀ vx ∈ init, dag.vertex.lookup (hash vx) = some vx
  inserted : ∀ vx ∈ init, dag.graph.lookup (hash vx) = some vx
  apart : Apart (Initial hash init) dag.state
  accepted : ∀ c, Initial hash init c → decisionOf dag.state c = some true

/-- `new` leaves the initial vertices in the graph, all that they commit to accepted, and
nothing rejected. -/
theorem new_kept (it : HashOrders H) (hl : LegalInit hash init)
    (hc : config.check (H := H) = .ok ()) :
    ∃ dag, DAG.new hash it config init = .ok dag ∧ Kept hash init dag ∧
      ∀ c, decisionOf dag.state c ≠ some false := by
  obtain ⟨dag, hdag, hF, hapart⟩ := new_induct it
    (P := fun _ dag => Apart (Initial hash init) dag.state) hl hc (fun _ _ h => by cases h)
    fun done vx after dag dag' hi hF hs h => by
      simp only [DAG.insertDecided, Option.bind_eq_bind, Option.bind_eq_some_iff, Option.pure_def,
        Option.some.injEq] at h
      obtain ⟨dag₁, hins, state, hstate, rfl⟩ := h
      have hv (w : Vertex H) (_ : w ∈ init) (x : Vertex H)
          (hx : (dag.vertex.insert (hash vx) vx).lookup (hash w) = some x) : x ∈ init := by
        rw [hi]
        rw [HashMap.lookup_insert] at hx
        split at hx
        · cases hx
          exact List.mem_append_right _ List.mem_cons_self
        · exact List.mem_append_left _ (hF.source _ x hx).1
      have hinsert : Spares (Initial hash init) dag.state dag₁.state :=
        .insert (fun c hc => hc.parents hl hv) hins
      have hmark : Spares (Initial hash init) dag₁.state state :=
        foldlM_rel (R := Spares _) .refl (fun _ _ _ => .trans) _ (fun _ _ _ _ => .markAccepted) hstate
      exact ((hinsert.trans hmark) hs).1
  refine ⟨dag, hdag, ⟨hF.known, hF.inserted, hapart, ?_⟩, hF.unrejected⟩
  rintro c ⟨vx, hvx, hc⟩
  exact hF.accepted vx hvx c hc

namespace Kept

theorem query (hk : Kept hash init dag) (it : HashOrders H) (hvx : vx ∈ init) :
    dag.query hash it (hash vx) = .ok (true, true) := by
  have hdec := hk.accepted (.unity (hash vx))
    ⟨vx, hvx, List.mem_append_right _ (List.mem_singleton_self _)⟩
  obtain ⟨cs, hcs, hd⟩ := Option.bind_eq_some_iff.mp hdec
  rw [DAG.query, hk.inserted vx hvx]
  simp only [hcs, Outcome.lift_some, Outcome.ok_bind, hd, Outcome.pure_def]

/-- An attempt to insert an initial vertex again changes nothing. -/
theorem attempt (hl : LegalInit hash init) (hk : Kept hash init dag)
    (h : Attempt hash it vx dag dag') : Kept hash init dag' := by
  by_cases hin : hash vx ∈ dag.graph
  · -- a vertex that is in the graph is refused without being kept
    have hsame : dag' = dag := by
      obtain ⟨result, hr⟩ := h
      rw [DAG.tryInsert, DAG.checkVertex] at hr
      cases hs : vx.sanityChecks with
      | error e =>
        rw [hs] at hr
        cases hr
        rfl
      | ok u =>
        simp only [hs, if_pos hin] at hr
        cases hr
        rfl
    exact hsame ▸ hk
  -- another one overwrites no initial vertex
  have hlookup (m : HashMap H (Vertex H)) (w : Vertex H) (hw : w ∈ init)
      (hm : m.lookup (hash w) = some w) : (m.insert (hash vx) vx).lookup (hash w) = some w := by
    have hne : hash w ≠ hash vx := fun he =>
      hin (he ▸ Finmap.mem_of_lookup_eq_some (hk.inserted w hw))
    rw [HashMap.lookup_insert, if_neg hne, hm]
  rcases h.cases with ⟨e, _, rfl⟩ | ⟨_, hins⟩
  · constructor
    · intro w hw
      cases e <;> first | exact hk.known w hw | exact hlookup _ w hw (hk.known w hw)
    · rw [park_graph]
      exact hk.inserted
    · rw [park_state]
      exact hk.apart
    · rw [park_state]
      exact hk.accepted
  · have hspare : Spares (Initial hash init) dag.state dag'.state := by
      refine .insert (fun c hc => hc.parents hl fun w hw x hx => ?_) hins
      cases hx.symm.trans (hlookup _ w hw (hk.known w hw))
      exact hw
    obtain ⟨hapart, hkeep⟩ := hspare hk.apart
    obtain ⟨hvertex, hgraph, _⟩ := insert_eq_some hins
    exact ⟨fun w hw => hvertex ▸ hlookup _ w hw (hk.known w hw),
      fun w hw => hgraph ▸ hlookup _ w hw (hk.inserted w hw), hapart,
      fun c hc => hkeep c hc (hk.accepted c hc)⟩

/-- A result none of whose votes accepts the opposite of an initial ordering. -/
theorem record {vhash : H} {b : Bool} (hk : Kept hash init dag)
    (hg : DAG.Guarded hash (Unopposed hash init) dag ⟨.recordQueryResult vhash b, it⟩)
    (h : dag.recordQueryResult hash it vhash b = .ok dag') : Kept hash init dag' := by
  obtain ⟨vx, dag₁, cs, state, hv, hb, hf, rfl⟩ := recordQueryResult_eq_ok.mp h
  obtain ⟨start, _, haward, hrec, _, _⟩ := beginRecord_eq_some hb
  have hloop : Spares (Initial hash init) dag₁.state state := by
    refine foldlM_rel_of_mem (R := Spares _) .refl (fun _ _ _ => .trans) cs (fun v hvm t ht => ?_) hf
    cases b with
    | false => exact .voteAgainst ht
    | true =>
      refine .voteFor (fun o ho hU => ?_) ht
      obtain ⟨hne, rfl⟩ := (Constraint.conflict_eq_some _ o).mp ho
      refine hg ({ dag₁ with state := v.1 }, v.2) ?_ hne hU
      simp only [DAG.votes, hv, Option.bind_some, hb, List.mem_map]
      exact ⟨v, hvm, rfl⟩
  have hstart : Spares (Initial hash init) dag.state dag₁.state := by
    rw [hrec]
    exact .awardIfPreferred haward
  obtain ⟨hapart, hkeep⟩ := (hstart.trans hloop) hk.apart
  constructor
  · rw [hrec]
    exact hk.known
  · rw [hrec]
    exact hk.inserted
  · exact hapart
  · exact fun c hc => hkeep c hc (hk.accepted c hc)

/-- In runs that accept no opposite of an initial ordering, initial vertices stay accepted. -/
theorem of_reachable (hl : LegalInit hash init) (hc : config.check (H := H) = .ok ())
    (h : (DAG.systemFrom hash config init).ReachableWhen
      (DAG.Guarded hash (Unopposed hash init)) dag) : Kept hash init dag := by
  refine h.invariant (P := Kept hash init) ?_ ?_
  · rintro s ⟨it, hs⟩
    obtain ⟨dag, hdag, hk, _⟩ := new_kept it hl hc
    cases hs.symm.trans hdag
    exact hk
  · intro s call t _ hk hg hs
    rcases apply_cases hs with ⟨vx, _, ha⟩ | ⟨hashes, _, hret⟩ | ⟨w, b, hop, ⟨_, rfl⟩ | hok⟩
    · exact hk.attempt hl ha
    · clear hs hg
      induction hret with
      | refl => exact hk
      | tail _ hlast ih =>
        obtain ⟨_, _, _, ha⟩ := hlast
        exact ih.attempt hl ha
    · exact hk
    · obtain ⟨op, it⟩ := call
      cases hop
      exact hk.record hg hok

end Kept

omit [LinearOrder H] in
/-- A vertex with two parents commits to an ordering of these. -/
theorem Vertex.exists_ordering {p q : H} (hp : p ∈ vx.parents) (hq : q ∈ vx.parents) (hne : p ≠ q) :
    ∃ c ∈ vx.parentConstraints, c.left ≠ c.right := by
  by_contra hno
  push Not at hno
  have hpair : vx.parents.Pairwise Eq := List.pairwise_iff_forall_sublist.mpr fun {a b} hab =>
    hno ⟨a, b⟩ ((vx.mem_parentConstraints _).mpr (Or.inl hab))
  exact hne (hpair.forall hp hq hne)

/-- The initial vertices settle their orderings exactly if they commit to none, as `new` does not
reject the opposites. But they stay accepted in runs that accept none of these. -/
theorem settlesInitial_iff (hl : LegalInit hash init) (hc : config.check (H := H) = .ok ()) :
    (SettlesInitial hash config init ↔
      ∀ vx ∈ init, ∀ p ∈ vx.parents, ∀ q ∈ vx.parents, p = q) ∧
    ∀ dag, (DAG.systemFrom hash config init).ReachableWhen
      (DAG.Guarded hash (Unopposed hash init)) dag → ∀ vx ∈ init,
        (∀ it, dag.query hash it (hash vx) = .ok (true, true)) ∧
          ∀ c ∈ vx.parentConstraints, decisionOf dag.state c = some true := by
  refine ⟨⟨fun hs vx hvx p hp q hq => ?_, fun hsingle => ?_⟩, fun dag h vx hvx => ?_⟩
  -- `new` rejects nothing, the opposite of an initial ordering included
  · by_contra hne
    obtain ⟨c, hcv, hcne⟩ := Vertex.exists_ordering hp hq hne
    obtain ⟨dag, hdag, _, hun⟩ := new_kept .ascending hl hc
    exact hun _ (hs.settled dag ⟨_, hdag⟩ vx hvx c hcv hcne).2
  -- without two different parents there is no ordering to settle, nor an opposite to vote for
  · have hno (vx : Vertex H) (hvx : vx ∈ init) (c : Constraint H) (hcv : c ∈ vx.parentConstraints)
        (hne : c.left ≠ c.right) : False := by
      obtain ⟨hleft, hright⟩ := vx.parents_of_mem_parentConstraints c hcv
      exact hne (hsingle vx hvx _ hleft _ hright)
    refine ⟨fun _ _ vx hvx c hcv hne => (hno vx hvx c hcv hne).elim, fun dag h vx hvx it => ?_,
      fun _ _ vx hvx c hcv hne => (hno vx hvx c hcv hne).elim⟩
    refine (Kept.of_reachable hl hc (h.mono fun dag call _ v _ hne hopp => ?_)).query it hvx
    obtain ⟨w, hw, hcw⟩ := hopp
    rcases List.mem_append.mp hcw with hcw | hcw
    · exact (hno w hw _ hcw fun he => hne he.symm).elim
    · have hu := List.mem_singleton.mp hcw
      have he : v.2.swap.left = v.2.swap.right := by rw [hu, Constraint.unity_left, Constraint.unity_right]
      exact absurd he.symm hne
  · have hk := Kept.of_reachable hl hc h
    exact ⟨fun it => hk.query it hvx, fun c hcv => hk.accepted c ⟨vx, hvx, List.mem_append_left _ hcv⟩⟩

/-- What a run computes from the initial vertices is found in a state that runs reach. -/
theorem reachable_of_runFrom {P : DAG H → Prop} {guard : DAG H → Call H → Prop}
    [∀ dag call, Decidable (guard dag call)] (it : HashOrders H)
    (hc : config.check (H := H) = .ok ()) (calls : List (Call H))
    (h : ∃ start ∈ init.foldlM (DAG.insertDecided hash it) (DAG.empty config),
      ∃ dag ∈ (DAG.systemFrom hash config init).runWhen guard start calls, P dag) :
    ∃ dag, (DAG.systemFrom hash config init).ReachableWhen guard dag ∧ P dag := by
  obtain ⟨start, hstart, dag, hrun, hP⟩ := h
  have hinit : (DAG.systemFrom hash config init).init start := by
    refine ⟨it, ?_⟩
    rw [DAG.new, hc]
    simp only [show init.foldlM (DAG.insertDecided hash it) (DAG.empty config) = some start from hstart,
      Outcome.lift_some]
  exact ⟨dag, (System.ReachableWhen.init hinit).run calls hrun, hP⟩

/-- A branch that is decided from the start. -/
def Fork.decided : List (Vertex Digest) := [root, a, b, ab]

theorem settlesInitial_iff_decided :
    SettlesInitial Vertex.wire ⟨2, 1⟩ [Fork.root, Fork.a, Fork.b] ∧
      ∃ dag : DAG Digest, Fork.baTip.wire ∈ dag.graph ∧
        dag.query Vertex.wire .ascending Fork.ab.wire = .ok (true, true) := by
  have hrun : ∃ dag, (DAG.systemFrom Vertex.wire ⟨2, 1⟩ Fork.decided).ReachableWhen
      (DAG.Guarded Vertex.wire (Unopposed Vertex.wire Fork.decided)) dag ∧
      Fork.baTip.wire ∈ dag.graph :=
    reachable_of_runFrom .ascending rfl
      (Fork.run [Fork.ba, Fork.baTip] [Fork.baTip]) (by decide +kernel)
  obtain ⟨dag, hr, hm⟩ := hrun
  exact ⟨(settlesInitial_iff (by decide) rfl).1.mpr (by decide), dag, hm,
    ((settlesInitial_iff (by decide) rfl).2 dag hr Fork.ab (by decide)).1 _⟩

/-- The opposite of an ordering decided from the start can be accepted, and the initial vertex
that commits to the ordering is rejected. -/
theorem initial_vertex_rejected : Vertex.CollisionFree Vertex.wire Set.univ ∧
    LegalInit Vertex.wire Fork.decided ∧ ¬ SettlesInitial Vertex.wire ⟨2, 1⟩ Fork.decided ∧
    ∃ dag, (DAG.systemFrom Vertex.wire ⟨2, 1⟩ Fork.decided).Reachable dag ∧
      dag.query Vertex.wire .ascending Fork.ba.wire = .ok (true, true) ∧
      dag.query Vertex.wire .ascending Fork.ab.wire = .ok (false, true) := by
  have hrun : ∃ dag, (DAG.systemFrom Vertex.wire ⟨2, 1⟩ Fork.decided).Reachable dag ∧
      dag.query Vertex.wire .ascending Fork.ba.wire = .ok (true, true) ∧
      dag.query Vertex.wire .ascending Fork.ab.wire = .ok (false, true) :=
    reachable_of_runFrom .ascending rfl
      (Fork.run [Fork.ba, Fork.baTip] [Fork.ba, Fork.baTip]) (by decide +kernel)
  obtain ⟨dag, hr, hba, hab⟩ := hrun
  refine ⟨Vertex.wire_collisionFree _, by decide, fun hs => ?_, dag, hr, hba, hab⟩
  have hkept := hs.accepted dag hr Fork.ab (by decide) .ascending
  cases hkept.symm.trans hab

end Taurus
