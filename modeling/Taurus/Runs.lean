import Taurus.Preservation
import Taurus.Transition

namespace Taurus

open Relation

variable {H : Type} [LinearOrder H] {hash : Vertex H → H} {it : HashOrders H}
  {genesis : Vertex H} {dag dag' : DAG H} {vx : Vertex H}

/-- The operations by which a graph is changed. -/
inductive Op (H : Type) where
  | tryInsert (vx : Vertex H)
  | retryPending (hashes : List H)
  | recordQueryResult (vhash : H) (stronglyPreferred : Bool)

/-- An operation, with the orders in which it meets the elements of hash sets. -/
structure Call (H : Type) where
  op : Op H
  it : HashOrders H

namespace DAG

/-- State after a call, if the call does not panic. -/
def apply (hash : Vertex H → H) (dag : DAG H) (call : Call H) : Option (DAG H) :=
  match call.op with
  | .tryInsert vx => (dag.tryInsert hash call.it vx).map Prod.snd
  | .retryPending hashes => (dag.retryPending hash call.it hashes).map Prod.snd
  | .recordQueryResult vhash stronglyPreferred =>
    match dag.recordQueryResult hash call.it vhash stronglyPreferred with
    | .ok dag' => some dag'
    | .err _ => some dag
    | .panic => none

/-- All runs from a genesis vertex without parents. -/
def system (hash : Vertex H → H) (config : Config) (genesis : Vertex H) :
    System (DAG H) (Call H) where
  init dag := genesis.parents = [] ∧ ∃ it, DAG.new hash it config [genesis] = .ok dag
  step := apply hash

theorem eq_start_of_init {config : Config} (h : (system hash config genesis).init dag) :
    dag = start hash config genesis := by
  obtain ⟨hg, it, hnew⟩ := h
  cases hc : config.check (H := H) with
  | error e =>
    simp only [new, hc] at hnew
    cases hnew
  | ok u =>
    rw [new_eq config hg hc] at hnew
    cases hnew
    rfl

/-- The positive votes a call counts: the states in which it updates a constraint, each
with the constraint. -/
def votes (hash : Vertex H → H) (dag : DAG H) (call : Call H) : List (DAG H × Constraint H) :=
  match call.op with
  | .recordQueryResult vhash true =>
    match (dag.pendingQuery.lookup vhash).bind fun vx =>
        dag.beginRecord hash call.it vx vhash true with
    | some (dag', constraints) =>
      (loopStates (dag'.recordConstraint call.it true) dag'.state constraints).map fun v =>
        ({ dag' with state := v.1 }, v.2)
    | none => []
  | _ => []

/-- Does every positive vote that the call counts meet the condition? -/
def Guarded (hash : Vertex H → H) (cond : DAG H → Constraint H → Prop) (dag : DAG H)
    (call : Call H) : Prop :=
  ∀ v ∈ dag.votes hash call, cond v.1 v.2

instance (cond : DAG H → Constraint H → Prop) [∀ dag c, Decidable (cond dag c)] (dag : DAG H)
    (call : Call H) : Decidable (Guarded hash cond dag call) :=
  inferInstanceAs (Decidable (∀ v ∈ dag.votes hash call, cond v.1 v.2))

end DAG

/-- The outcomes of `try_insert`. -/
inductive Tried (hash : Vertex H → H) (dag : DAG H) (vx : Vertex H) :
    Except (Error H) (HashSet H) × DAG H → Prop
  | refused {e : Error H} : Checked hash dag vx (.err e) →
      Tried hash dag vx (.error e, dag.park hash vx e)
  | inserted {dag' : DAG H} {waiting : HashSet H} : Checked hash dag vx (.ok ()) →
      InsertedDAG hash vx dag dag' →
      (∀ w, w ∈ waiting ↔ w ∉ dag'.graph ∧ ∃ s, dag'.children.lookup (hash vx) = some s ∧ w ∈ s) →
      Tried hash dag vx (.ok waiting, dag')

theorem tryInsert_of_err {e : Error H} (hc : dag.checkVertex hash it vx = .err e) :
    dag.tryInsert hash it vx = some (.error e, dag.park hash vx e) := by
  rw [DAG.tryInsert, hc]

/-- A vertex that passes the checks is inserted without a panic, and its known children are
those waiting for it. -/
theorem tryInsert_of_ok (hd : Sound hash genesis dag) (ho : dag.checkVertex hash it vx = .ok ()) :
    ∃ waiting dag', dag.tryInsert hash it vx = some (.ok waiting, dag') ∧
      InsertedDAG hash vx dag dag' ∧
      ∀ w, w ∈ waiting ↔ w ∉ dag'.graph ∧ ∃ s, dag'.children.lookup (hash vx) = some s ∧ w ∈ s := by
  have hc := checkVertex_spec it vx hd
  rw [ho] at hc
  obtain ⟨dag', hrun, hi⟩ := insert_spec it hd.shaped hc.legal hc.ready.fresh hd.stores
    hd.inserted_known
  obtain ⟨s, hs⟩ : ∃ s, dag'.children.lookup (hash vx) = some s := by
    have hn : hash vx ∉ vx.parents := fun hp => hc.ready.fresh (hc.ready.parents _ hp)
    rw [hi.children, lookup_mapChild, if_neg hn]
    exact Finmap.mem_iff.mp ((HashMap.mem_tryInsert _ _ _ _).mpr (Or.inl rfl))
  refine ⟨s.filter fun c => c ∉ dag'.graph, dag', ?_, hi, fun w => ?_⟩
  · simp only [DAG.tryInsert, ho, hrun, Option.bind_eq_bind, Option.bind_some,
      DAG.getKnownChildren, hs, Option.pure_def]
  · simp only [Finset.mem_filter, hs, Option.some.injEq, exists_eq_left']
    exact and_comm

/-- `try_insert` never panics. -/
theorem tryInsert_spec (it : HashOrders H) (hd : Sound hash genesis dag) (vx : Vertex H) :
    ∃ r, dag.tryInsert hash it vx = some r ∧ Tried hash dag vx r := by
  have hc := checkVertex_spec it vx hd
  cases ho : dag.checkVertex hash it vx with
  | panic =>
    rw [ho] at hc
    cases hc
  | err e =>
    rw [ho] at hc
    exact ⟨_, tryInsert_of_err ho, .refused hc⟩
  | ok u =>
    rw [ho] at hc
    obtain ⟨waiting, dag', hrun, hi, hw⟩ := tryInsert_of_ok hd ho
    exact ⟨_, hrun, .inserted hc hi hw⟩

/-- A refused vertex is either forgotten, or kept because a parent is not in the graph. -/
theorem Checked.park_cases {e : Error H} (hc : Checked hash dag vx (.err e)) :
    dag.park hash vx e = dag ∨
    (hash vx ∉ dag.graph ∧ (∃ p ∈ vx.parents, p ∉ dag.graph) ∧ dag.park hash vx e = { dag with
      children := DAG.mapChild dag.children (hash vx) vx.parents
      vertex := dag.vertex.insert (hash vx) vx }) := by
  cases hc with
  | missingParents _ hf hp => exact Or.inr ⟨hf, hp, rfl⟩
  | waitingOnParents _ hf hp => exact Or.inr ⟨hf, hp, rfl⟩
  | _ => exact Or.inl rfl

theorem Checked.park_sound {e : Error H} (hc : Checked hash dag vx (.err e))
    (hd : Sound hash genesis dag) : Sound hash genesis (dag.park hash vx e) := by
  rcases hc.park_cases with h | ⟨hf, _, _⟩
  · rw [h]
    exact hd
  · exact hd.park hf e

theorem park_graph (e : Error H) : (dag.park hash vx e).graph = dag.graph := by
  cases e <;> rfl

theorem park_config (e : Error H) : (dag.park hash vx e).config = dag.config := by
  cases e <;> rfl

theorem park_frontier (e : Error H) : (dag.park hash vx e).frontier = dag.frontier := by
  cases e <;> rfl

theorem park_state (e : Error H) : (dag.park hash vx e).state = dag.state := by
  cases e <;> rfl

theorem Tried.sound {r : Except (Error H) (HashSet H) × DAG H} (ht : Tried hash dag vx r)
    (hd : Sound hash genesis dag) : Sound hash genesis r.2 := by
  cases ht with
  | refused hc => exact hc.park_sound hd
  | inserted hc hi _ => exact hd.insert hc.ready.fresh hc.legal hi

section Retry

variable (it : HashOrders H) {Q : DAG H → List H → Prop}
  (hskip : ∀ dag h queue, Sound hash genesis dag → Q dag (h :: queue) →
    dag.vertex.lookup h = none → Q dag queue)
  (hrefused : ∀ dag h queue vx e, Sound hash genesis dag → Q dag (h :: queue) →
    dag.vertex.lookup h = some vx → dag.checkVertex hash it vx = .err e →
    Checked hash dag vx (.err e) → Q (dag.park hash vx e) queue)
  (hinserted : ∀ dag h queue vx dag' (waiting : List H), Sound hash genesis dag →
    Q dag (h :: queue) → dag.vertex.lookup h = some vx →
    (∃ result, dag.tryInsert hash it vx = some (result, dag')) → Checked hash dag vx (.ok ()) →
    InsertedDAG hash vx dag dag' →
    (∀ w, w ∈ waiting ↔ w ∉ dag'.graph ∧ ∃ s, dag'.children.lookup (hash vx) = some s ∧ w ∈ s) →
    Q dag' (waiting ++ queue))
include hskip hrefused hinserted

/-- Rule for the loop of `retry_pending`. Each turn takes a vertex off the queue; only an
insertion adds to it, at most one entry for each known vertex, and uses a waiting one up. -/
theorem retryLoop_spec (fuel : Nat) (dag : DAG H) (queue : List H) (successes : HashSet H)
    (hd : Sound hash genesis dag) (hQ : Q dag queue)
    (hfuel : queue.length + (dag.depth - dag.graph.keys.card) * (dag.depth + 1) < fuel) :
    ∃ successes' dag', DAG.retryLoop hash it fuel dag queue successes = some (successes', dag') ∧
      Sound hash genesis dag' ∧ Q dag' [] := by
  induction fuel generalizing dag queue successes with
  | zero => omega
  | succ fuel ih =>
    cases queue with
    | nil => exact ⟨successes, dag, rfl, hd, hQ⟩
    | cons h queue =>
      rw [List.length_cons] at hfuel
      cases hv : dag.vertex.lookup h with
      | none =>
        rw [DAG.retryLoop, hv]
        exact ih dag queue successes hd (hskip dag h queue hd hQ hv) (by omega)
      | some vx =>
        have hh := hd.hash_eq h vx hv
        -- a retried vertex is known, so no attempt adds to the known vertices
        have hkeys : (dag.vertex.insert (hash vx) vx).keys = dag.vertex.keys := by
          ext k
          rw [Finmap.mem_keys, Finmap.mem_keys, Finmap.mem_insert, hh]
          exact ⟨fun hk => hk.elim (fun he => he ▸ Finmap.mem_of_lookup_eq_some hv) id, Or.inr⟩
        have hc := checkVertex_spec it vx hd
        cases ho : dag.checkVertex hash it vx with
        | panic =>
          rw [ho] at hc
          cases hc
        | err e =>
          rw [ho] at hc
          have hdepth : (dag.park hash vx e).depth = dag.depth := by
            rcases hc.park_cases with h | ⟨_, _, h⟩
            · rw [h]
            · rw [h, DAG.depth, hkeys, DAG.depth]
          simp only [DAG.retryLoop, hv, tryInsert_of_err ho, Option.bind_eq_bind, Option.bind_some]
          refine ih _ queue successes (hc.park_sound hd)
            (hrefused dag h queue vx e hd hQ hv ho hc) ?_
          rw [hdepth, park_graph]
          omega
        | ok u =>
          rw [ho] at hc
          obtain ⟨waiting, dag', hr, hi, hw⟩ := tryInsert_of_ok hd ho
          have hd' := hd.insert hc.ready.fresh hc.legal hi
          have hdepth : dag'.depth = dag.depth := by
            rw [DAG.depth, hi.vertex, hkeys, DAG.depth]
          have hcard : dag'.graph.keys.card = dag.graph.keys.card + 1 := by
            rw [hi.graph, Graph.keys_insert, Finset.card_insert_of_notMem]
            rw [Finmap.mem_keys]
            exact hc.ready.fresh
          -- at most every known vertex is pushed, while the graph grows by one
          have hwait : waiting.card ≤ dag.depth := by
            rw [← hdepth]
            refine Finset.card_le_card fun w hwm => ?_
            obtain ⟨_, s, hs, hws⟩ := (hw w).mp hwm
            exact Finmap.mem_keys.mpr (hd'.children_known _ s hs w hws)
          have hroom := hd'.card_le
          obtain ⟨k, hk⟩ : ∃ k, dag.depth - dag.graph.keys.card = k + 1 :=
            ⟨dag.depth - dag.graph.keys.card - 1, by omega⟩
          simp only [DAG.retryLoop, hv, hr, Option.bind_eq_bind, Option.bind_some]
          refine ih dag' _ _ hd' (hinserted dag h queue vx dag' _ hd hQ hv ⟨_, hr⟩ hc hi
            fun w => ?_) ?_
          · rw [List.mem_reverse, HashOrder.mem_order, hw]
          · have hk' : dag'.depth - dag'.graph.keys.card = k := by omega
            rw [List.length_append, List.length_reverse, HashOrder.length_order, hk', hdepth]
            rw [hk, Nat.add_mul, one_mul] at hfuel
            omega

theorem retryPending_spec (hd : Sound hash genesis dag) (hashes : List H)
    (hQ : Q dag hashes.reverse) :
    ∃ successes dag', dag.retryPending hash it hashes = some (successes, dag') ∧
      Sound hash genesis dag' ∧ Q dag' [] := by
  refine retryLoop_spec it hskip hrefused hinserted _ dag hashes.reverse ∅ hd hQ ?_
  rw [List.length_reverse, DAG.retryFuel]
  have hle := Nat.mul_le_mul_right (dag.depth + 1) (Nat.sub_le dag.depth dag.graph.keys.card)
  omega

end Retry

end Taurus
