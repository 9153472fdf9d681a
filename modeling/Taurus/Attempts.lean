import Taurus.Query

namespace Taurus

open Relation

variable {H : Type} [LinearOrder H] {hash : Vertex H → H} {it : HashOrders H}
  {config : Config} {genesis : Vertex H} {dag dag' : DAG H} {vx : Vertex H}

/-- How insertion changes the voting state: conflict sets only get more children, and a new
one prefers one of the constraints `S` and has no votes. -/
structure Grown (S : Constraint H → Prop) (state state' : StateMap H) : Prop where
  kept : ∀ k cs, state.lookup k = some cs → ∃ ch, state'.lookup k = some { cs with children := ch }
  fresh : ∀ k cs, state'.lookup k = some cs → k ∉ state → S cs.preferred ∧
    cs.preferred.conflictSetKey = k ∧ ∀ c n, cs.count.lookup c = some n → n = 0

namespace Grown

variable {S T : Constraint H → Prop} {s t u : StateMap H}

theorem refl (S : Constraint H → Prop) (s : StateMap H) : Grown S s s where
  kept _ cs h := ⟨cs.children, h⟩
  fresh _ _ h hn := absurd (Finmap.mem_of_lookup_eq_some h) hn

theorem mono (h : Grown S s t) (hST : ∀ c, S c → T c) : Grown T s t where
  kept := h.kept
  fresh k cs hk hn := (h.fresh k cs hk hn).imp_left (hST _)

theorem trans (hst : Grown S s t) (htu : Grown S t u) : Grown S s u where
  kept k cs h := by
    obtain ⟨ch, hch⟩ := hst.kept k cs h
    obtain ⟨ch', hch'⟩ := htu.kept k _ hch
    exact ⟨ch', hch'⟩
  fresh k cs h hn := by
    by_cases hk : k ∈ t
    · obtain ⟨cs₀, hcs₀⟩ := Finmap.mem_iff.mp hk
      obtain ⟨ch, hch⟩ := htu.kept k cs₀ hcs₀
      cases h.symm.trans hch
      exact hst.fresh k cs₀ hcs₀ hn
    · exact htu.fresh k cs h hk

/-- A component of an old conflict set other than its children is what it was. -/
theorem entry_eq {V : Type} {field : ConflictSet H → HashMap (Constraint H) V} (h : Grown S s t)
    (hf : ∀ cs ch, field { cs with children := ch } = field cs) {c : Constraint H}
    (hc : c.conflictSetKey ∈ s) : entry field t c = entry field s c := by
  obtain ⟨cs, hcs⟩ := Finmap.mem_iff.mp hc
  obtain ⟨ch, hch⟩ := h.kept _ cs hcs
  rw [entry_of_lookup hcs, entry_of_lookup hch, hf]

theorem decisionOf_eq (h : Grown S s t) {c : Constraint H} (hc : c.conflictSetKey ∈ s) :
    decisionOf t c = decisionOf s c := h.entry_eq (fun _ _ => rfl) hc

theorem prefers_iff (h : Grown S s t) {c : Constraint H} (hc : c.conflictSetKey ∈ s) :
    Prefers t c ↔ Prefers s c := by
  obtain ⟨cs, hcs⟩ := Finmap.mem_iff.mp hc
  obtain ⟨ch, hch⟩ := h.kept _ cs hcs
  rw [Prefers, Prefers, hcs, hch]
  simp

end Grown

/-- Registering a child adds it to the set of children of the one constraint. -/
theorem registerChild_eq_some {c p : Constraint H} {s t : StateMap H}
    (h : DAG.registerChild c s p = some t) :
    ∃ cs known, s.lookup p.conflictSetKey = some cs ∧
      known = Insert.insert c ((cs.children.lookup p).getD ∅) ∧
      t = s.insert p.conflictSetKey { cs with children := cs.children.insert p known } := by
  simp only [DAG.registerChild, Option.bind_eq_bind, Option.bind_eq_some_iff, Option.pure_def,
    Option.some.injEq] at h
  obtain ⟨cs, hcs, rfl⟩ := h
  refine ⟨cs, _, hcs, ?_, rfl⟩
  cases cs.children.lookup p <;> rfl

theorem registerChild_grown {c p : Constraint H} {S : Constraint H → Prop} {s t : StateMap H}
    (h : DAG.registerChild c s p = some t) : Grown S s t := by
  obtain ⟨cs, known, hcs, _, rfl⟩ := registerChild_eq_some h
  constructor
  · intro k cs' hk
    rw [HashMap.lookup_insert]
    by_cases he : k = p.conflictSetKey
    · rw [he, hcs] at hk
      cases hk
      exact ⟨_, if_pos he⟩
    · exact ⟨cs'.children, by rw [if_neg he, hk]⟩
  · intro k cs' hk hn
    have hne : k ≠ p.conflictSetKey := by
      rintro rfl
      exact hn (Finmap.mem_of_lookup_eq_some hcs)
    rw [HashMap.lookup_insert, if_neg hne] at hk
    exact absurd (Finmap.mem_of_lookup_eq_some hk) hn

/-- Where `insert` succeeds for one constraint, the children of its parents are written first;
then the constraint gets a conflict set, unless there is one. -/
theorem insertConstraint_eq_some {vertex : HashMap H (Vertex H)} {c : Constraint H}
    {s t : StateMap H} (h : DAG.insertConstraint it vertex s c = some t) :
    ∃ l r u rejected, vertex.lookup c.left = some l ∧ vertex.lookup c.right = some r ∧
      (it.constraints.order c (l.parentConstraints ++ r.parentConstraints).toFinset).foldlM
        (DAG.registerChild c) s = some u ∧
      t = HashMap.tryInsert u c.conflictSetKey
        (bornConflictSet c (l.parentConstraints ++ r.parentConstraints).toFinset rejected) := by
  simp only [DAG.insertConstraint, Option.bind_eq_bind, Option.bind_eq_some_iff, Option.pure_def,
    Option.some.injEq] at h
  obtain ⟨l, hl, r, hr, rejected, _, u, hu, ht⟩ := h
  exact ⟨l, r, u, rejected, hl, hr, hu, ht.symm⟩

theorem registerChildren_grown {c : Constraint H} {l : List (Constraint H)}
    {S : Constraint H → Prop} {s t : StateMap H}
    (h : l.foldlM (DAG.registerChild c) s = some t) : Grown S s t :=
  foldlM_rel (Grown.refl S) (fun _ _ _ => Grown.trans) _ (fun _ _ _ _ hp => registerChild_grown hp) h

theorem insertConstraint_grown {vertex : HashMap H (Vertex H)} {c : Constraint H}
    {S : Constraint H → Prop} {s t : StateMap H} (hc : S c)
    (h : DAG.insertConstraint it vertex s c = some t) : Grown S s t := by
  obtain ⟨l, r, u, rejected, _, _, hu, rfl⟩ := insertConstraint_eq_some h
  refine (registerChildren_grown hu).trans ?_
  -- the conflict set is there already, or it is new with `c` as its initial member
  constructor
  · intro k cs hk
    refine ⟨cs.children, ?_⟩
    rw [HashMap.lookup_tryInsert, if_neg, hk]
    rintro ⟨rfl, hn⟩
    exact hn (Finmap.mem_of_lookup_eq_some hk)
  · intro k cs hk hn
    rw [HashMap.lookup_tryInsert] at hk
    split at hk
    swap
    · exact absurd (Finmap.mem_of_lookup_eq_some hk) hn
    next he =>
      have hborn : cs.preferred = c ∧
          cs.count = collectMap ((ConflictSet.orientations c).zip [0, 0]) := by
        cases hk
        unfold bornConflictSet
        split <;> exact ⟨rfl, rfl⟩
      refine ⟨hborn.1 ▸ hc, by rw [hborn.1, he.1], fun d n hd => ?_⟩
      rw [hborn.2, ConflictSet.lookup_orientations] at hd
      split at hd
      · exact (Option.some.inj hd).symm
      split at hd
      · exact (Option.some.inj hd).symm
      · cases hd

/-- Where `insert` succeeds, the vertex is known and in the graph. -/
theorem insert_eq_some (h : dag.insert hash it vx = some dag') :
    dag'.vertex = dag.vertex.insert (hash vx) vx ∧ dag'.graph = dag.graph.insert (hash vx) vx ∧
      (it.constraints.order (.unity (hash vx)) vx.parentConstraints.toFinset ++
        [Constraint.unity (hash vx)]).foldlM (DAG.insertConstraint it dag'.vertex) dag.state =
          some dag'.state := by
  simp only [DAG.insert, Option.bind_eq_bind, Option.bind_eq_some_iff, Option.pure_def,
    Option.some.injEq] at h
  obtain ⟨state, hstate, rfl⟩ := h
  exact ⟨rfl, rfl, hstate⟩

/-- Rule for `insert`: what the turns of its loop relate, each for a constraint of the new vertex,
it relates. -/
theorem insert_rel {R : StateMap H → StateMap H → Prop} (hrefl : ∀ s, R s s)
    (htrans : ∀ s t u, R s t → R t u → R s u)
    (hturn : ∀ s c t, c ∈ vx.parentConstraints ∨ c = .unity (hash vx) →
      DAG.insertConstraint it dag'.vertex s c = some t → R s t)
    (h : dag.insert hash it vx = some dag') : R dag.state dag'.state := by
  obtain ⟨_, _, hloop⟩ := insert_eq_some h
  refine foldlM_rel hrefl htrans _ (fun s c hc t ht => hturn s c t ?_ ht) hloop
  rwa [List.mem_append, HashOrder.mem_order, List.mem_toFinset, List.mem_singleton] at hc

/-- Insertion adds conflict sets of constraints of the new vertex at most. -/
theorem insert_grown (h : dag.insert hash it vx = some dag') :
    Grown (fun c => c ∈ vx.parentConstraints ∨ c = .unity (hash vx)) dag.state dag'.state :=
  insert_rel (Grown.refl _) (fun _ _ _ => Grown.trans)
    (fun _ _ _ hc ht => insertConstraint_grown hc ht) h

/-- What a call of `try_insert` on the vertex leaves behind. -/
def Attempt (hash : Vertex H → H) (it : HashOrders H) (vx : Vertex H) (dag dag' : DAG H) : Prop :=
  ∃ result, dag.tryInsert hash it vx = some (result, dag')

/-- Attempts to insert known vertices, one after the other. -/
def Retries (hash : Vertex H → H) (it : HashOrders H) : DAG H → DAG H → Prop :=
  ReflTransGen fun dag dag' => ∃ h vx, dag.vertex.lookup h = some vx ∧ Attempt hash it vx dag dag'

/-- An attempt keeps the vertex for later at most, or inserts it. -/
theorem Attempt.tried (h : Attempt hash it vx dag dag') (hd : Sound hash genesis dag) :
    ∃ result, Tried hash dag vx (result, dag') := by
  obtain ⟨result, hr⟩ := h
  obtain ⟨r, hr', ht⟩ := tryInsert_spec it hd vx
  cases hr.symm.trans hr'
  exact ⟨result, ht⟩

theorem Attempt.sound (h : Attempt hash it vx dag dag') (hd : Sound hash genesis dag) :
    Sound hash genesis dag' := by
  obtain ⟨_, ht⟩ := h.tried hd
  exact ht.sound hd

/-- An attempt parks the vertex or inserts it. -/
theorem Attempt.cases (h : Attempt hash it vx dag dag') :
    (∃ e, dag.checkVertex hash it vx = .err e ∧ dag' = dag.park hash vx e) ∨
      dag.checkVertex hash it vx = .ok () ∧ dag.insert hash it vx = some dag' := by
  obtain ⟨result, hr⟩ := h
  unfold DAG.tryInsert at hr
  cases hc : dag.checkVertex hash it vx with
  | panic =>
    rw [hc] at hr
    cases hr
  | err e =>
    rw [hc] at hr
    cases hr
    exact Or.inl ⟨e, rfl, rfl⟩
  | ok u =>
    simp only [hc, Option.bind_eq_bind, Option.bind_eq_some_iff] at hr
    obtain ⟨dag₁, hins, hr⟩ := hr
    have hsame : dag' = dag₁ := by
      split at hr <;> exact (congrArg Prod.snd (Option.some.inj hr)).symm
    exact Or.inr ⟨rfl, hsame ▸ hins⟩

/-- An attempt adds conflict sets of constraints of the vertex at most. -/
theorem Attempt.grown_within (h : Attempt hash it vx dag dag') :
    Grown (fun c => c ∈ vx.parentConstraints ∨ c = .unity (hash vx)) dag.state dag'.state := by
  rcases h.cases with ⟨e, _, rfl⟩ | ⟨_, hins⟩
  · rw [park_state]
    exact .refl _ _
  · exact insert_grown hins

theorem Attempt.grown (h : Attempt hash it vx dag dag') :
    Grown (fun _ => True) dag.state dag'.state :=
  h.grown_within.mono fun _ _ => trivial

/-- The loop of `retry_pending` is a sequence of attempts. -/
theorem retryLoop_retries {fuel : Nat} {queue : List H} {successes successes' : HashSet H}
    (h : DAG.retryLoop hash it fuel dag queue successes = some (successes', dag')) :
    Retries hash it dag dag' := by
  induction fuel generalizing dag queue successes with
  | zero => cases h
  | succ fuel ih =>
    cases queue with
    | nil =>
      cases h
      exact .refl
    | cons vhash queue =>
      rw [DAG.retryLoop] at h
      cases hv : dag.vertex.lookup vhash with
      | none =>
        rw [hv] at h
        exact ih h
      | some vx =>
        simp only [hv, Option.bind_eq_bind, Option.bind_eq_some_iff] at h
        obtain ⟨⟨result, dag₁⟩, hr, h⟩ := h
        refine .head ⟨vhash, vx, hv, result, hr⟩ ?_
        cases result with
        | error e => exact ih h
        | ok waiting => exact ih h

theorem Retries.induct {P : DAG H → Prop} (h : Retries hash it dag dag')
    (hd : Sound hash genesis dag) (hP : P dag)
    (hstep : ∀ s h vx t, Sound hash genesis s → P s → s.vertex.lookup h = some vx →
      Attempt hash it vx s t → P t) : Sound hash genesis dag' ∧ P dag' := by
  induction h with
  | refl => exact ⟨hd, hP⟩
  | tail _ hlast ih =>
    obtain ⟨h, vx, hv, ha⟩ := hlast
    exact ⟨ha.sound ih.1, hstep _ h vx _ ih.1 ih.2 hv ha⟩

theorem Retries.grown (h : Retries hash it dag dag') (hd : Sound hash genesis dag) :
    Grown (fun _ => True) dag.state dag'.state :=
  (h.induct (P := fun t => Grown (fun _ => True) dag.state t.state) hd (.refl _ _)
    fun _ _ _ _ _ hP _ ha => hP.trans ha.grown).2

theorem voteAgainst_eq_some {c : Constraint H} {s t : StateMap H}
    (h : DAG.voteAgainst s c = some t) : ∃ cs, s.lookup c.conflictSetKey = some cs ∧
      t = s.insert c.conflictSetKey { cs with count := cs.count.insert c 0 } := by
  simp only [DAG.voteAgainst, Option.bind_eq_bind, Option.bind_eq_some_iff, Option.pure_def,
    Option.some.injEq] at h
  obtain ⟨cs, hcs, rfl⟩ := h
  exact ⟨cs, hcs, rfl⟩

/-- A positive result puts a chit on the constraint. -/
theorem awardIfPreferred_true {c : Constraint H} {s t : StateMap H}
    (h : DAG.awardIfPreferred true s c = some t) : ∃ cs, s.lookup c.conflictSetKey = some cs ∧
      t = s.insert c.conflictSetKey { cs with chit := cs.chit.insert c true } := by
  rw [DAG.awardIfPreferred, if_pos rfl, DAG.awardChit] at h
  simp only [Option.bind_eq_bind, Option.bind_eq_some_iff, Option.pure_def, Option.some.injEq] at h
  obtain ⟨cs, hcs, rfl⟩ := h
  exact ⟨cs, hcs, rfl⟩

theorem awardIfPreferred_cases {c : Constraint H} {s t : StateMap H} {b : Bool}
    (h : DAG.awardIfPreferred b s c = some t) : t = s ∨ ∃ cs,
      s.lookup c.conflictSetKey = some cs ∧
      t = s.insert c.conflictSetKey { cs with chit := cs.chit.insert c true } := by
  cases b with
  | false =>
    cases h
    exact Or.inl rfl
  | true => exact Or.inr (awardIfPreferred_true h)

/-- The award of a chit changes no other field. -/
theorem entry_awardIfPreferred {V : Type} {field : ConflictSet H → HashMap (Constraint H) V}
    (hf : ∀ cs chit, field { cs with chit := chit } = field cs) {c : Constraint H} {s t : StateMap H}
    {b : Bool} (h : DAG.awardIfPreferred b s c = some t) (d : Constraint H) :
    entry field t d = entry field s d := by
  rcases awardIfPreferred_cases h with rfl | ⟨cs, hcs, rfl⟩
  · rfl
  · exact entry_insert_of_eq hcs (hf cs _) d

theorem decisionOf_awardIfPreferred {c : Constraint H} {s t : StateMap H} {b : Bool}
    (h : DAG.awardIfPreferred b s c = some t) : decisionOf t = decisionOf s :=
  funext (entry_awardIfPreferred (fun _ _ => rfl) h)

/-- What each rejection of a constraint relates, the rejection of its progeny relates. -/
theorem rejectProgeny_rel {R : StateMap H → StateMap H → Prop} (hrefl : ∀ s, R s s)
    (htrans : ∀ s t u, R s t → R t u → R s u)
    (hwrite : ∀ s (c : Constraint H) cs, s.lookup c.conflictSetKey = some cs →
      R s (s.insert c.conflictSetKey { cs with decision := cs.decision.insert c false }))
    {fuel : Nat} {c : Constraint H} {s t : StateMap H}
    (h : DAG.rejectProgeny it fuel s c = some t) : R s t := by
  induction fuel generalizing s c t with
  | zero => cases h
  | succ fuel ih =>
    simp only [DAG.rejectProgeny, Option.bind_eq_bind, Option.bind_eq_some_iff] at h
    obtain ⟨cs, hcs, children, _, hf⟩ := h
    exact htrans _ _ _ (hwrite s c cs hcs)
      (foldlM_rel hrefl htrans _ (fun _ _ _ _ hd => ih hd) hf)

theorem countVote_eq_some {c : Constraint H} {cs cs' : ConflictSet H}
    (h : DAG.countVote cs c = some cs') :
    cs' = { cs with last := c, count := cs.count.insert c (cs.tally c) } := by
  unfold DAG.countVote at h
  unfold ConflictSet.tally
  split at h
  · next hne =>
    rw [if_neg hne]
    exact (Option.some.inj h).symm
  · next he =>
    simp only [Option.bind_eq_bind, Option.bind_eq_some_iff, Option.pure_def, Option.some.injEq] at h
    obtain ⟨n, hn, rfl⟩ := h
    have hlast : cs.last = c := not_ne_iff.mp he
    rw [if_pos hlast, hn, ← hlast]
    rfl

/-- The second conflict set is the first one with a positive vote for `c` counted. -/
structure VoteCounted (c : Constraint H) (cs cs' : ConflictSet H) : Prop where
  last : cs'.last = c
  count : cs'.count = cs.count.insert c (cs.tally c)
  preferred : cs'.preferred = c ∨ cs'.preferred = cs.preferred
  children : cs'.children = cs.children
  decision : cs'.decision = cs.decision

/-- All that a positive vote for `c` writes to its conflict set before it is decided. -/
structure VoteWritten (it : HashOrders H) (depth : Nat) (s : StateMap H) (c : Constraint H)
    (cs cs' : ConflictSet H) : Prop extends VoteCounted c cs cs' where
  chit : cs'.chit = cs.chit
  parents : cs'.parents = cs.parents
  confidence : ∃ m n, DAG.confidence it depth s c = some m ∧
    DAG.oppConfidence it depth s c = some n ∧ cs'.confidence = cs.confidence.insert c m ∧
    cs'.preferred = if m > n then c else cs.preferred

/-- What a positive vote for `c` makes of the state, once it has written the conflict set: nothing
more, or `c` is accepted. Then the progeny of its opposite is rejected, which takes a counter at the
acceptance threshold. -/
def VoteSettled (it : HashOrders H) (config : Config) (depth : Nat) (s : StateMap H)
    (c : Constraint H) (cs' : ConflictSet H) (t : StateMap H) : Prop :=
  t = s.insert c.conflictSetKey cs' ∨
    ∃ accepted, accepted = (s.insert c.conflictSetKey cs').insert c.conflictSetKey
        { cs' with decision := cs'.decision.insert c true, preferred := c } ∧
      (c.conflict = none ∧ t = accepted ∨
        ∃ o, c.conflict = some o ∧ config.threshAccepted ≤ tally s c ∧
          DAG.rejectProgeny it depth accepted o = some t)

/-- A positive vote is counted, and then settled. -/
theorem voteFor_written {depth : Nat} {c : Constraint H} {s t : StateMap H}
    (h : DAG.voteFor it config depth s c = some t) :
    ∃ cs cs', s.lookup c.conflictSetKey = some cs ∧ VoteWritten it depth s c cs cs' ∧
      VoteSettled it config depth s c cs' t := by
  simp only [DAG.voteFor, Option.bind_eq_bind, Option.bind_eq_some_iff, Option.pure_def] at h
  obtain ⟨cConf, hm, oppConf, hn, cs, hcs, cs', hvote, k, hk, ps, _, r, hr, h⟩ := h
  have hcs' := countVote_eq_some hvote
  have hwritten : VoteWritten it depth s c cs cs' := by
    rw [hcs']
    exact ⟨⟨rfl, rfl, ite_eq_or_eq _ _ _, rfl, rfl⟩, rfl, rfl, cConf, oppConf, hm, hn, rfl, rfl⟩
  refine ⟨cs, cs', hcs, hwritten, ?_⟩
  cases r with
  | false =>
    cases h
    exact Or.inl rfl
  | true =>
    simp only [if_true, DAG.accept, Option.bind_eq_bind, Finmap.lookup_insert, Option.bind_some] at h
    refine Or.inr ⟨_, rfl, ?_⟩
    cases ho : c.conflict with
    | none =>
      rw [ho] at h
      exact Or.inl ⟨rfl, (Option.some.inj h).symm⟩
    | some o =>
      rw [ho] at h
      refine Or.inr ⟨o, rfl, ?_, h⟩
      -- the opposite has the same conflict set, so only the acceptance threshold decides
      have hconf : DAG.hasConflictSet s c = true := by
        rw [DAG.hasConflictSet, ho]
        refine decide_eq_true ?_
        rw [Constraint.conflictSetKey_conflict c o ho]
        exact Finmap.mem_of_lookup_eq_some hcs
      have htally : k = tally s c := by
        rw [hwritten.count, Finmap.lookup_insert, Option.some.injEq] at hk
        rw [tally, hcs, ← hk]
        rfl
      by_contra hlt
      rw [DAG.canAccept, if_neg (htally ▸ hlt), hconf] at hr
      simp [Option.bind_eq_some_iff] at hr

theorem voteFor_cases {depth : Nat} {c : Constraint H} {s t : StateMap H}
    (h : DAG.voteFor it config depth s c = some t) :
    ∃ cs cs', s.lookup c.conflictSetKey = some cs ∧ VoteCounted c cs cs' ∧
      VoteSettled it config depth s c cs' t := by
  obtain ⟨cs, cs', hcs, hwritten, h⟩ := voteFor_written h
  exact ⟨cs, cs', hcs, hwritten.toVoteCounted, h⟩

/-- What the parts of a successful `record_query_result` did. -/
theorem recordQueryResult_eq_ok {vhash : H} {stronglyPreferred : Bool} :
    dag.recordQueryResult hash it vhash stronglyPreferred = .ok dag' ↔
      ∃ vx dag₁ cs state, dag.pendingQuery.lookup vhash = some vx ∧
        dag.beginRecord hash it vx vhash stronglyPreferred = some (dag₁, cs) ∧
        cs.foldlM (dag₁.recordConstraint it stronglyPreferred) dag₁.state = some state ∧
        dag' = { dag₁ with state := state } := by
  unfold DAG.recordQueryResult
  cases hv : dag.pendingQuery.lookup vhash with
  | none =>
    simp only [reduceCtorEq, false_and, exists_false, iff_false]
    split_ifs <;> simp
  | some vx =>
    simp only [Outcome.bind_eq_ok, Outcome.lift_eq_ok, Outcome.pure_def, Outcome.ok.injEq]
    constructor
    · rintro ⟨⟨dag₁, cs⟩, hb, state, hf, rfl⟩
      exact ⟨vx, dag₁, cs, state, rfl, hb, hf, rfl⟩
    · rintro ⟨w, dag₁, cs, state, hw, hb, hf, rfl⟩
      cases hw
      exact ⟨(dag₁, cs), hb, state, hf, rfl⟩

/-- What `record_query_result` has at hand when its loop begins. -/
theorem beginRecord_eq_some {vhash : H} {stronglyPreferred : Bool} {dag₁ : DAG H}
    {cs : List (Constraint H)}
    (h : dag.beginRecord hash it vx vhash stronglyPreferred = some (dag₁, cs)) :
    ∃ state active, DAG.awardIfPreferred stronglyPreferred dag.state (.unity vhash) = some state ∧
      dag₁ = dag.recording vhash state ∧
      dag₁.getActiveAncestorConstraints hash it vx = .ok active ∧ cs = active ++ [.unity vhash] := by
  simp only [DAG.beginRecord, Option.bind_eq_bind, Option.bind_eq_some_iff, Option.pure_def,
    Option.some.injEq, Prod.mk.injEq] at h
  obtain ⟨state, hstate, active, hactive, rfl, rfl⟩ := h
  exact ⟨state, active, hstate, rfl, (Outcome.unwrap_eq_some _ _).mp hactive, rfl⟩

/-- A recorded result changes conflict sets and the vertices that wait for a query, only. -/
theorem record_eq_recording {w : H} {b : Bool}
    (hok : dag.recordQueryResult hash it w b = .ok dag') : ∃ state, dag' = dag.recording w state := by
  obtain ⟨vx, dag₁, cs, state, _, hb, _, rfl⟩ := recordQueryResult_eq_ok.mp hok
  obtain ⟨_, _, _, rfl, _⟩ := beginRecord_eq_some hb
  exact ⟨state, rfl⟩

/-- The kinds of calls, with what they leave behind. -/
theorem apply_cases {call : Call H} (h : dag.apply hash call = some dag') :
    (∃ vx, call.op = .tryInsert vx ∧ Attempt hash call.it vx dag dag') ∨
    (∃ hashes, call.op = .retryPending hashes ∧ Retries hash call.it dag dag') ∨
    ∃ vhash stronglyPreferred, call.op = .recordQueryResult vhash stronglyPreferred ∧
      ((∃ e, dag.recordQueryResult hash call.it vhash stronglyPreferred = .err e) ∧ dag' = dag ∨
        dag.recordQueryResult hash call.it vhash stronglyPreferred = .ok dag') := by
  obtain ⟨op, it⟩ := call
  cases op with
  | tryInsert vx =>
    simp only [DAG.apply, Option.map_eq_some_iff] at h
    obtain ⟨⟨result, dag₁⟩, hr, rfl⟩ := h
    exact Or.inl ⟨vx, rfl, result, hr⟩
  | retryPending hashes =>
    simp only [DAG.apply, Option.map_eq_some_iff] at h
    obtain ⟨⟨successes, dag₁⟩, hr, rfl⟩ := h
    exact Or.inr (Or.inl ⟨hashes, rfl, retryLoop_retries hr⟩)
  | recordQueryResult vhash stronglyPreferred =>
    refine Or.inr (Or.inr ⟨vhash, stronglyPreferred, rfl, ?_⟩)
    cases hr : dag.recordQueryResult hash it vhash stronglyPreferred with
    | ok dag₁ =>
      simp only [DAG.apply, hr, Option.some.injEq] at h
      exact Or.inr (h ▸ rfl)
    | err e =>
      simp only [DAG.apply, hr, Option.some.injEq] at h
      exact Or.inl ⟨⟨e, rfl⟩, h.symm⟩
    | panic =>
      simp only [DAG.apply, hr] at h
      cases h

/-- Induction over runs: what holds at the start, and is kept by every attempt to insert a
vertex and by every recorded result, holds of every reachable graph. -/
theorem reachable_induct {P : DAG H → Prop}
    (h : (DAG.system hash config genesis).Reachable dag)
    (hstart : genesis.parents = [] → P (DAG.start hash config genesis))
    (hattempt : ∀ it vx s t, Sound hash genesis s → P s → Attempt hash it vx s t → P t)
    (hrecord : ∀ it w b s t, Sound hash genesis s → P s →
      s.recordQueryResult hash it w b = .ok t → P t) : P dag := by
  refine System.ReachableWhen.invariant (P := P) ?_ ?_ h
  · intro s hs
    rw [DAG.eq_start_of_init hs]
    exact hstart hs.1
  · intro s call t hr hP _ hs
    have hd : Sound hash genesis s := sound_of_reachable hr
    rcases apply_cases hs with ⟨vx, _, ha⟩ | ⟨hashes, _, hret⟩ | ⟨w, b, _, ⟨_, rfl⟩ | hok⟩
    · exact hattempt _ vx s t hd hP ha
    · exact (hret.induct (P := P) hd hP fun _ _ vx _ hs hP _ ha => hattempt _ vx _ _ hs hP ha).2
    · exact hP
    · exact hrecord _ w b s t hd hP hok

end Taurus
