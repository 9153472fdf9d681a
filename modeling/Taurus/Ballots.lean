import Taurus.Bookkeeping
import Taurus.Counters

namespace Taurus

open Relation

variable {H : Type} [LinearOrder H] {hash : Vertex H → H} {it : HashOrders H} {config : Config}
  {genesis vx : Vertex H} {dag dag' : DAG H} {call : Call H} {past : List (DAG H × Call H)}
  {s t : StateMap H} {c : Constraint H} {l : List (Constraint H)} {w : H}

namespace DAG

/-- The constraints that a call updates, if it records a result. -/
def updates (hash : Vertex H → H) (dag : DAG H) (call : Call H) : List (Constraint H) :=
  match call.op with
  | .recordQueryResult vhash stronglyPreferred =>
    match (dag.pendingQuery.lookup vhash).bind fun vx =>
        dag.beginRecord hash call.it vx vhash stronglyPreferred with
    | some (_, constraints) => constraints
    | none => []
  | _ => []

/-- Does a turn of the call's loop accept the constraint, whatever later turns reject? -/
def AcceptsIn (hash : Vertex H → H) (dag : DAG H) (call : Call H) (c : Constraint H) : Prop :=
  ∃ v ∈ dag.votes hash call, v.2 = c ∧ decisionOf v.1.state c ≠ some true ∧
    ∃ state, v.1.recordConstraint call.it true v.1.state c = some state ∧
      decisionOf state c = some true

instance (dag : DAG H) (call : Call H) (c : Constraint H) : Decidable (dag.AcceptsIn hash call c) :=
  inferInstanceAs (Decidable (∃ v ∈ dag.votes hash call, v.2 = c ∧
    decisionOf v.1.state c ≠ some true ∧
    ∃ state ∈ v.1.recordConstraint call.it true v.1.state c, decisionOf state c = some true))

end DAG

/-- Does the step record the result for the vertex and update the constraint by it? -/
def Updates (hash : Vertex H → H) (s : DAG H × Call H) (vhash : H) (stronglyPreferred : Bool)
    (c : Constraint H) : Prop :=
  s.2.op = .recordQueryResult vhash stronglyPreferred ∧ Records hash s vhash ∧
    c ∈ s.1.updates hash s.2

/-- A constraint is not among what its own acceptance rejects. -/
theorem Graph.Shaped.not_against_self {graph : Graph H} {root : H} (hs : graph.Shaped root genesis)
    (c : Constraint H) : ¬ graph.constraintGraph.Against c c := by
  rintro ⟨o, ho, hoc⟩
  have hrank : graph.rank o = graph.rank c := by
    rw [((Constraint.conflict_eq_some c o).mp ho).2]
    exact max_comm _ _
  rcases reflTransGen_iff_eq_or_transGen.mp hoc with he | hlt
  · obtain ⟨hne, hsw⟩ := (Constraint.conflict_eq_some c o).mp ho
    exact hne (congrArg Constraint.left (he.trans hsw))
  · exact absurd (hs.above_rank_lt hlt) (by omega)

section AcceptsOnly

theorem rejectProgeny_accepts_none {fuel : Nat} (h : DAG.rejectProgeny it fuel s c = some t)
    (d : Constraint H) (hd : decisionOf t d = some true) : decisionOf s d = some true := by
  refine rejectProgeny_rel
    (R := fun s t : StateMap H => decisionOf t d = some true → decisionOf s d = some true)
    (fun _ => id) (fun _ _ _ hst htu hu => hst (htu hu)) (fun s c cs hcs hu => ?_) h hd
  rw [decisionOf_insert hcs rfl] at hu
  split at hu
  · cases hu
  · exact hu

/-- A positive vote accepts no other constraint. -/
theorem voteFor_accepts_only {depth : Nat} (h : DAG.voteFor it config depth s c = some t)
    (d : Constraint H) (hd : decisionOf t d = some true) : d = c ∨ decisionOf s d = some true := by
  obtain ⟨cs, cs₁, hcs, hcounted, rfl | ⟨accepted, rfl, haccept⟩⟩ := voteFor_cases h
  · exact Or.inr (decisionOf_insert_of_eq hcs hcounted.decision ▸ hd)
  have hmark := decisionOf_insert (Finmap.lookup_insert s)
    (show { cs₁ with decision := cs₁.decision.insert c true, preferred := c }.decision =
      cs₁.decision.insert c true from rfl) d
  rw [decisionOf_insert_of_eq hcs hcounted.decision] at hmark
  have hmarked : decisionOf ((s.insert c.conflictSetKey cs₁).insert c.conflictSetKey
      { cs₁ with decision := cs₁.decision.insert c true, preferred := c }) d = some true := by
    rcases haccept with ⟨_, rfl⟩ | ⟨o, _, _, hrej⟩
    · exact hd
    · exact rejectProgeny_accepts_none hrej d hd
  rw [hmark] at hmarked
  split at hmarked
  · next he => exact Or.inl he
  · exact Or.inr hmarked

theorem voteFor_loop_accepts_only (h : l.foldlM (dag.recordConstraint it true) s = some t)
    (hcl : c ∉ l) (hc : decisionOf t c = some true) : decisionOf s c = some true := by
  refine foldlM_rel
    (R := fun s t : StateMap H => decisionOf t c = some true → decisionOf s c = some true)
    (fun _ => id) (fun _ _ _ hst htu hu => hst (htu hu)) l (fun s d hd t hv ht => ?_) h hc
  refine (voteFor_accepts_only hv c ht).resolve_left ?_
  rintro rfl
  exact hcl hd

end AcceptsOnly

/-- What the loop of `record_query_result` goes through, and from which state. -/
theorem beginRecord_updates {b : Bool} {dag₁ : DAG H} (hd : Sound hash genesis dag)
    (hv : dag.pendingQuery.lookup w = some vx)
    (hb : dag.beginRecord hash it vx w b = some (dag₁, l)) :
    ∃ state, DAG.awardIfPreferred b dag.state (.unity w) = some state ∧
      dag₁ = dag.recording w state ∧ Sound hash genesis (dag.recording w state) ∧ l.Nodup ∧
      (∀ c ∈ l, (dag.recording w state).Updated w c) ∧
      ∀ c ∈ l, c = .unity w ∨ decisionOf state c = none := by
  have hnr : ∀ p ∈ vx.parents, dag.decisionOn p ≠ some false := by
    intro p hp hf
    have hnone := (beginRecord_spec it hd hv b).1 ⟨p, hp, hf⟩
    rw [hb] at hnone
    cases hnone
  obtain ⟨state, cs, hb', hd', _, hact⟩ := (beginRecord_spec it hd hv b).2 hnr
  obtain ⟨state', _, haward, hrec, _, _⟩ := beginRecord_eq_some hb
  cases hb.symm.trans hb'
  have hstate : state = state' := congrArg DAG.state hrec
  obtain ⟨hn, hup⟩ := updated_of_active hd' (hd.pending_inserted w vx hv).1 hact
  refine ⟨state, hstate ▸ haward, rfl, hd', hn, hup, fun c hc => ?_⟩
  rcases List.mem_append.mp hc with hc | hc
  · exact Or.inr (hact.undecided c hc)
  · exact Or.inl (List.mem_singleton.mp hc)

/-- A turn of the call's loop on a positive result: who is recorded, what was counted before
the turn, and what holds in the state in which it starts. -/
structure Ballot (hash : Vertex H → H) (genesis : Vertex H) (dag : DAG H) (call : Call H)
    (v : DAG H × Constraint H) (w : H) : Prop where
  op : call.op = .recordQueryResult w true
  pending : w ∈ dag.pendingQuery
  nodup : (dag.updates hash call).Nodup
  turn : ∃ state before after, DAG.awardIfPreferred true dag.state (.unity w) = some state ∧
    dag.updates hash call = before ++ v.2 :: after ∧
    before.foldlM ((dag.recording w state).recordConstraint call.it true) state = some v.1.state
  recording : v.1 = dag.recording w v.1.state
  sound : Sound hash genesis v.1
  registered : dag.graph.Registered v.2
  unaccepted : v.2 = .unity w ∨ decisionOf v.1.state v.2 ≠ some true

theorem DAG.exists_ballot (hd : Sound hash genesis dag) {v : DAG H × Constraint H}
    (hv : v ∈ dag.votes hash call) : ∃ w, Ballot hash genesis dag call v w := by
  obtain ⟨op, it⟩ := call
  simp only [DAG.votes] at hv
  split at hv
  swap
  · cases hv
  next w =>
  split at hv
  swap
  · cases hv
  next dag₁ cs hb =>
  obtain ⟨vx, hvx, hbegin⟩ := Option.bind_eq_some_iff.mp hb
  obtain ⟨state, haward, rfl, hd₁, hn, hup, hund⟩ := beginRecord_updates hd hvx hbegin
  obtain ⟨u, hu, rfl⟩ := List.mem_map.mp hv
  obtain ⟨before, after, hl, hbefore⟩ := exists_of_mem_loopStates hu
  have hupd : dag.updates hash ⟨.recordQueryResult w true, it⟩ = cs := by
    simp only [DAG.updates, hvx, Option.bind_some, hbegin]
  have hmem (d : Constraint H) (hb : d ∈ before ++ [u.2]) : d ∈ cs := by
    rw [hl]
    rcases List.mem_append.mp hb with hb | hb
    · exact List.mem_append_left _ hb
    · exact List.mem_append_right _ (List.mem_singleton.mp hb ▸ List.mem_cons_self)
  have hx : w ∈ (dag.recording w state).graph :=
    Finmap.mem_of_lookup_eq_some (hd.pending_inserted w vx hvx).1
  obtain ⟨hnb, _, hdisj⟩ := List.nodup_append.mp (hl ▸ hn)
  have hP : Stable hash genesis (fun _ _ => True) fun _ _ => True := .trivial
  -- the turns before this one keep the state sound
  obtain ⟨t, ht, hdt, _⟩ := hP.voteFor_loop (dag.recording w state) hx before state hd₁
    True.intro hnb (fun d hd => hup d (hmem d (List.mem_append_left _ hd)))
    fun _ _ => True.intro
  cases hbefore.symm.trans ht
  have hu₂ : u.2 ∈ cs := hmem _ (List.mem_append_right _ List.mem_cons_self)
  refine ⟨w, ⟨rfl, Finmap.mem_of_lookup_eq_some hvx, hupd ▸ hn, ?_, rfl, hdt,
    (hup u.2 hu₂).registered hx, ?_⟩⟩
  · exact ⟨state, before, after, haward, hupd.trans hl, hbefore⟩
  · refine (hund u.2 hu₂).imp_right fun hnone hacc => ?_
    have hub : u.2 ∉ before := fun h => hdisj _ h _ List.mem_cons_self rfl
    cases hnone.symm.trans (voteFor_loop_accepts_only hbefore hub hacc)

namespace Ballot

variable {v : DAG H × Constraint H} (h : Ballot hash genesis dag call v w)
include h

theorem mem_updates : v.2 ∈ dag.updates hash call := by
  obtain ⟨_, before, after, _, hl, _⟩ := h.turn
  rw [hl]
  exact List.mem_append_right _ List.mem_cons_self

theorem config_eq : v.1.config = dag.config := by rw [h.recording]; rfl

/-- No constraint has two turns in one call. -/
theorem unique {v' : DAG H × Constraint H} {w' : H} (h' : Ballot hash genesis dag call v' w')
    (he : v.2 = v'.2) : v = v' := by
  have hw : w = w' := by
    have ho := h.op.symm.trans h'.op
    cases ho
    rfl
  subst hw
  obtain ⟨start, before, after, haward, hl, hbefore⟩ := h.turn
  obtain ⟨start', before', after', haward', hl', hbefore'⟩ := h'.turn
  cases haward.symm.trans haward'
  have hn := h.nodup
  rw [hl, List.nodup_append, List.nodup_cons] at hn
  obtain ⟨_, ⟨hafter, _⟩, hdisj⟩ := hn
  have hsame := (List.append_cons_inj_of_notMem (he ▸ fun hm => hdisj _ hm _ List.mem_cons_self rfl)
    (he ▸ hafter)).mp (hl.symm.trans hl')
  rw [hsame.1, hbefore', Option.some.injEq] at hbefore
  exact Prod.ext (by rw [h.recording, h'.recording, hbefore]) he

/-- The turn decides its constraint if and only if the criterion for acceptance is met. -/
theorem recordConstraint_spec : ∃ state,
    v.1.recordConstraint call.it true v.1.state v.2 = some state ∧
      (Accepts v.1.config v.1.state v.2 → decisionOf state v.2 = some true) ∧
      (¬ Accepts v.1.config v.1.state v.2 → decisionOf state = decisionOf v.1.state) := by
  have hreg : v.1.graph.Registered v.2 := by
    rw [h.recording]
    exact h.registered
  obtain ⟨state, hstate, _, hacc, hrest⟩ := voteFor_spec call.it v.1.config h.sound.shaped
    h.sound.stores h.sound.card_le (h.sound.stores.mem_of_registered hreg)
  refine ⟨state, hstate, fun ha => ?_, hrest⟩
  rw [hacc ha]
  exact ConflictGraph.accepted_self (h.sound.shaped.not_against_self v.2)

end Ballot

section Counting

variable {before after : List (Constraint H)} {dag₁ : DAG H}

/-- The counter that a turn brings its constraint to continues the one from before the call,
or starts over. -/
theorem tally_of_turns (haward : DAG.awardIfPreferred true dag.state (.unity w) = some s)
    (hbefore : before.foldlM (dag₁.recordConstraint it true) s = some t) (hc : c ∉ before)
    (hmem : c.conflictSetKey ∈ t) :
    tally t c = 1 ∨ ∃ cs, dag.state.lookup c.conflictSetKey = some cs ∧ cs.last = c ∧
      tally t c = (cs.count.lookup c).getD 0 + 1 ∧ ∀ o, c.conflict = some o → o ∉ before := by
  obtain ⟨cst, hcst⟩ := Finmap.mem_iff.mp hmem
  have htally : tally t c = cst.tally c := by
    rw [tally, hcst]
    rfl
  by_cases hl : cst.last = c
  · right
    obtain ⟨css, hcss, hcount, hlast⟩ := voteFor_loop_other hc hbefore hcst
    obtain ⟨cs, hcs, hlast', hcount', _⟩ := awardIfPreferred_frame haward hcss
    obtain ⟨hls, hno⟩ := hlast hl
    refine ⟨cs, hcs, hlast'.symm.trans hls, ?_, hno⟩
    rw [htally, ConflictSet.tally, if_pos hl, hcount, hcount']
  · left
    rw [htally, ConflictSet.tally, if_neg hl]

/-- The counter that a turn brought its constraint to stays till the end of the loop. -/
theorem count_after_turn {u : StateMap H} (hc : c ∉ after)
    (hl : (c :: after).foldlM (dag₁.recordConstraint it true) t = some u) {cs' : ConflictSet H}
    (hcs' : u.lookup c.conflictSetKey = some cs') :
    c.conflictSetKey ∈ t ∧ cs'.count.lookup c = some (tally t c) ∧
      (cs'.last = c → ∀ o, c.conflict = some o → o ∉ after) := by
  obtain ⟨r, hr, hafter⟩ := foldlM_cons_eq_some.mp hl
  have hvote : DAG.voteFor it dag₁.config dag₁.depth t c = some r := hr
  obtain ⟨csr, hcsr, hcount, hlast⟩ := voteFor_loop_other hc hafter hcs'
  obtain ⟨cst, cs₁, hcst, hdec, _, hcount₁, _⟩ := voteFor_frame hvote
  obtain ⟨cs₂, hcs₂, _, rfl⟩ := hdec.lookup hcsr
  rw [Finmap.lookup_insert] at hcs₂
  cases hcs₂
  refine ⟨Finmap.mem_of_lookup_eq_some hcst, ?_, fun hl => (hlast hl).2⟩
  rw [hcount, hcount₁, Finmap.lookup_insert, tally, hcst]
  rfl

end Counting

/-- Does the step take back what was counted for the constraint, by a negative result that
updates it or by a positive one that updates its opposite? -/
def Resets (hash : Vertex H → H) (s : DAG H × Call H) (c : Constraint H) : Prop :=
  ∃ v, Updates hash s v false c ∨ ∃ o, c.conflict = some o ∧ Updates hash s v true o

theorem not_updates_of_notMem {s : DAG H × Call H} (hc : c ∉ s.1.updates hash s.2) (v : H)
    (b : Bool) : ¬ Updates hash s v b c :=
  fun hu => hc hu.2.2

/-- A result takes nothing back if it is positive and updates no opposite, or does not update
the constraint. -/
theorem not_resets {b : Bool} (ho : call.op = .recordQueryResult w b)
    (hnf : b = false → c ∉ dag.updates hash call)
    (hno : b = true → ∀ o, c.conflict = some o → o ∉ dag.updates hash call) :
    ¬ Resets hash (dag, call) c := by
  rintro ⟨v, hu | ⟨o, hco, hu⟩⟩
  · cases hu.1.symm.trans ho
    exact hnf rfl hu.2.2
  · cases hu.1.symm.trans ho
    exact hno rfl o hco hu.2.2

section StepCount

variable {cs' : ConflictSet H} {n : Nat}

/-- Does the call not update `c`, whose counter was at `n` before it, too? The conflict set after
the call is `cs'`. -/
def CountKept (hash : Vertex H → H) (dag : DAG H) (call : Call H) (c : Constraint H)
    (cs' : ConflictSet H) (n : Nat) : Prop :=
  (∀ v b, ¬ Updates hash (dag, call) v b c) ∧ ∃ cs,
    dag.state.lookup c.conflictSetKey = some cs ∧ cs.count.lookup c = some n ∧
    (cs'.last = c → cs.last = c ∧ ¬ Resets hash (dag, call) c)

/-- Does a turn of the call, for the vertex `w`, bring the counter of `c` to `n`? -/
def CountTurned (hash : Vertex H → H) (dag : DAG H) (call : Call H) (w : H) (c : Constraint H)
    (cs' : ConflictSet H) (n : Nat) : Prop :=
  ∃ v ∈ dag.votes hash call, v.2 = c ∧ n = tally v.1.state c ∧
    Updates hash (dag, call) w true c ∧ (cs'.last = c → n = 1 ∨
      ∃ cs, dag.state.lookup c.conflictSetKey = some cs ∧ cs.last = c ∧
        n = (cs.count.lookup c).getD 0 + 1 ∧ ¬ Resets hash (dag, call) c)

/-- Without a result, a conflict set is as before or has no votes. -/
theorem count_of_grown (hno : ∀ d v b, ¬ Updates hash (dag, call) v b d)
    (hg : Grown (fun _ => True) dag.state dag'.state)
    (hcs' : dag'.state.lookup c.conflictSetKey = some cs') (hn : cs'.count.lookup c = some n)
    (hn₀ : n ≠ 0) : CountKept hash dag call c cs' n := by
  by_cases hk : c.conflictSetKey ∈ dag.state
  · obtain ⟨cs, hcs⟩ := Finmap.mem_iff.mp hk
    obtain ⟨ch, hch⟩ := hg.kept _ cs hcs
    cases hcs'.symm.trans hch
    refine ⟨hno c, cs, hcs, hn, fun hl => ⟨hl, ?_⟩⟩
    rintro ⟨v, hu | ⟨o, _, hu⟩⟩
    · exact hno _ _ _ hu
    · exact hno _ _ _ hu
  · exact absurd ((hg.fresh _ cs' hcs' hk).2.2 c n hn) hn₀

/-- A negative result only leaves the counters that it does not update. -/
theorem count_of_negative (hd : Sound hash genesis dag)
    (ho : call.op = .recordQueryResult w false)
    (hok : dag.recordQueryResult hash call.it w false = .ok dag')
    (hcs' : dag'.state.lookup c.conflictSetKey = some cs') (hn : cs'.count.lookup c = some n)
    (hn₀ : n ≠ 0) : CountKept hash dag call c cs' n := by
  obtain ⟨vx, dag₁, cs, state, hv, hb, hf, rfl⟩ := recordQueryResult_eq_ok.mp hok
  obtain ⟨state₀, haward, rfl, _, _, _, _⟩ := beginRecord_updates hd hv hb
  cases haward
  have hupd : dag.updates hash call = cs := by
    simp only [DAG.updates, ho, hv, Option.bind_some, hb]
  obtain ⟨css, hcss, hlast, hcount⟩ := voteAgainst_loop_counters hf hcs'
  have hc : c ∉ cs := by
    intro hc
    rw [if_pos hc, hn] at hcount
    exact hn₀ (Option.some.inj hcount)
  rw [if_neg hc] at hcount
  refine ⟨not_updates_of_notMem (hupd ▸ hc), css, hcss, hcount.symm.trans hn, fun hl =>
    ⟨hlast.symm.trans hl, not_resets ho (fun _ => hupd ▸ hc) fun h => ?_⟩⟩
  cases h

/-- A positive result leaves a counter as it was, or brings it to its value in a turn. -/
theorem count_of_positive (hd : Sound hash genesis dag)
    (ho : call.op = .recordQueryResult w true)
    (hok : dag.recordQueryResult hash call.it w true = .ok dag')
    (hcs' : dag'.state.lookup c.conflictSetKey = some cs') (hn : cs'.count.lookup c = some n) :
    CountKept hash dag call c cs' n ∨ CountTurned hash dag call w c cs' n := by
  obtain ⟨vx, dag₁, cs, state, hv, hb, hf, rfl⟩ := recordQueryResult_eq_ok.mp hok
  obtain ⟨state₀, haward, rfl, _, hnd, _, _⟩ := beginRecord_updates hd hv hb
  have hupd : dag.updates hash call = cs := by
    simp only [DAG.updates, ho, hv, Option.bind_some, hb]
  have hres (hno : ∀ o, c.conflict = some o → o ∉ cs) : ¬ Resets hash (dag, call) c :=
    not_resets ho (fun h => by cases h) fun _ => hupd ▸ hno
  by_cases hc : c ∈ cs
  · right
    obtain ⟨before, after, rfl⟩ := List.append_of_mem hc
    obtain ⟨_, hna, hdisj⟩ := List.nodup_append.mp hnd
    have hcb : c ∉ before := fun h => hdisj c h c List.mem_cons_self rfl
    obtain ⟨t, hbefore, hafter⟩ := foldlM_append_eq_some.mp hf
    obtain ⟨hmem, hcount, hlast⟩ := count_after_turn (List.nodup_cons.mp hna).1 hafter hcs'
    have htally : n = tally t c := Option.some.inj (hn.symm.trans hcount)
    refine ⟨(dag.recording w t, c), ?_, rfl, htally, ⟨ho, ⟨true, _, ho, hok⟩, hupd ▸ hc⟩,
      fun hl => ?_⟩
    · simp only [DAG.votes, ho, hv, Option.bind_some, hb, List.mem_map]
      exact ⟨(t, c), mem_loopStates hbefore, rfl⟩
    rcases tally_of_turns haward hbefore hcb hmem with h1 | ⟨css, hcss, hls, htal, hno⟩
    · exact Or.inl (htally.trans h1)
    · refine Or.inr ⟨css, hcss, hls, htally.trans htal, hres fun o hco hm => ?_⟩
      -- the opposite is not `c` itself, and none of the turns before and after
      rcases List.mem_append.mp hm with hm | hm
      · exact hno o hco hm
      rcases List.mem_cons.mp hm with rfl | hm
      · obtain ⟨hne, hsw⟩ := (Constraint.conflict_eq_some _ _).mp hco
        exact hne (congrArg Constraint.left hsw)
      · exact hlast hl o hco hm
  · left
    obtain ⟨css, hcss, hcount, hlast⟩ := voteFor_loop_other hc hf hcs'
    obtain ⟨cs₀, hcs₀, hlast₀, hcount₀, _⟩ := awardIfPreferred_frame haward hcss
    refine ⟨not_updates_of_notMem (hupd ▸ hc), cs₀, hcs₀, by rw [← hcount₀, ← hcount, hn],
      fun hl => ?_⟩
    obtain ⟨hls, hno⟩ := hlast hl
    exact ⟨hlast₀.symm.trans hls, hres hno⟩

/-- How a step leaves the counter of a constraint other than zero: untouched, or by a turn of
its loop. -/
theorem step_count (hd : Sound hash genesis dag) (hs : dag.apply hash call = some dag')
    (hcs' : dag'.state.lookup c.conflictSetKey = some cs') (hn : cs'.count.lookup c = some n)
    (hn₀ : n ≠ 0) :
    CountKept hash dag call c cs' n ∨ ∃ w, CountTurned hash dag call w c cs' n := by
  have hother (hop : ∀ v b, call.op ≠ .recordQueryResult v b) (d : Constraint H) (v : H) (b : Bool) :
      ¬ Updates hash (dag, call) v b d := fun hu => hop v b hu.1
  rcases apply_cases hs with ⟨vx, ho, ha⟩ | ⟨hashes, ho, hret⟩ | ⟨w, b, ho, hrec⟩
  · have hno := hother fun v b h => by rw [ho] at h; cases h
    exact Or.inl (count_of_grown hno ha.grown hcs' hn hn₀)
  · have hno := hother fun v b h => by rw [ho] at h; cases h
    exact Or.inl (count_of_grown hno (hret.grown hd) hcs' hn hn₀)
  rcases hrec with ⟨⟨e, he⟩, hsame⟩ | hok
  -- a refused result updates nothing
  · have hno (d : Constraint H) (v : H) (b : Bool) : ¬ Updates hash (dag, call) v b d :=
      fun hu => not_records_of_err ho he hu.2.1
    rw [hsame] at hcs'
    exact Or.inl (count_of_grown hno (.refl _ _) hcs' hn hn₀)
  cases b with
  | false => exact Or.inl (count_of_negative hd ho hok hcs' hn hn₀)
  | true => exact (count_of_positive hd ho hok hcs' hn).imp_right fun h => ⟨w, h⟩

end StepCount

/-- The counters of the start are all zero. -/
theorem count_start {cs : ConflictSet H} {n : Nat} {k : ConflictSetKey H}
    (hcs : (DAG.start hash config genesis).state.lookup k = some cs)
    (hn : cs.count.lookup c = some n) : n = 0 := by
  rw [DAG.start, HashMap.lookup_insert] at hcs
  split at hcs
  · cases hcs
    change (collectMap ((ConflictSet.orientations _).zip [0, 0])).lookup c = some n at hn
    rw [ConflictSet.lookup_orientations] at hn
    split at hn
    · exact (Option.some.inj hn).symm
    split at hn
    · exact (Option.some.inj hn).symm
    · cases hn
  · cases hcs

theorem Records.pending (h : Records hash (dag, call) w) : w ∈ dag.pendingQuery := by
  obtain ⟨b, dag', _, hok⟩ := h
  obtain ⟨vx, _, _, _, hv, _⟩ := recordQueryResult_eq_ok.mp hok
  exact Finmap.mem_of_lookup_eq_some hv

/-- A result for a pending vertex is recorded, if the call does not panic. -/
theorem Records.of_pending {b : Bool} (hs : dag.apply hash call = some dag')
    (ho : call.op = .recordQueryResult w b) (hw : w ∈ dag.pendingQuery) :
    Records hash (dag, call) w := by
  obtain ⟨vx, hv⟩ := Finmap.mem_iff.mp hw
  simp only [DAG.apply, ho] at hs
  cases hr : dag.recordQueryResult hash call.it w b with
  | ok dag₁ => exact ⟨b, dag₁, ho, hr⟩
  | panic =>
    rw [hr] at hs
    cases hs
  | err e =>
    simp only [DAG.recordQueryResult, hv] at hr
    cases hb : dag.beginRecord hash call.it vx w b with
    | none =>
      rw [hb] at hr
      cases hr
    | some r =>
      obtain ⟨dag₁, cs⟩ := r
      simp only [hb, Outcome.lift_some, Outcome.ok_bind] at hr
      cases hf : cs.foldlM (dag₁.recordConstraint call.it b) dag₁.state with
      | none =>
        rw [hf] at hr
        cases hr
      | some state =>
        rw [hf] at hr
        cases hr

theorem config_of_reachable (h : (DAG.system hash config genesis).Reachable dag) :
    dag.config = config := by
  refine reachable_induct (P := fun dag => dag.config = config) h (fun _ => rfl) ?_ ?_
  · intro it vx s t hd hP ha
    obtain ⟨_, ht⟩ := ha.tried hd
    cases ht with
    | refused _ => exact (park_config _).trans hP
    | inserted _ hi _ => exact hi.config.trans hP
  · intro it w b s t _ hP hok
    obtain ⟨_, rfl⟩ := record_eq_recording hok
    exact hP

end Taurus
