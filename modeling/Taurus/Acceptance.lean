import Taurus.Growth
import Taurus.Streaks

namespace Taurus

open Relation

variable {H : Type} [LinearOrder H] {hash : Vertex H → H} {it : HashOrders H} {config : Config}
  {genesis : Vertex H} {dag dag' : DAG H} {call : Call H} {past : List (DAG H × Call H)}
  {c : Constraint H} {w : H}

theorem Graph.Within.supports {graph graph' : Graph H} (h : graph.Within graph')
    (hs : graph.Supports w c) : graph'.Supports w c := by
  rcases hs with ⟨a, haw, hc⟩ | rfl
  · refine Or.inl ⟨a, ?_, ?_⟩
    · refine ReflTransGen.mono (fun p k hp => ?_) _ _ haw
      obtain ⟨vx, hv, hpv⟩ := hp
      exact ⟨vx, h k vx hv, hpv⟩
    · have ha : a ∈ graph := by
        by_contra hn
        rw [Graph.commitments, Finmap.lookup_eq_none.mpr hn] at hc
        cases hc
      rwa [h.commitments_eq ha]
  · exact Or.inr rfl

/-- A run starts only with thresholds in order. -/
theorem thresholds_of_reachable (h : (DAG.system hash config genesis).Reachable dag) :
    config.threshSafeEarlyCommit ≤ config.threshAccepted := by
  refine h.invariant (P := fun _ => config.threshSafeEarlyCommit ≤ config.threshAccepted) ?_
    fun _ _ _ _ hP _ _ => hP
  rintro dag ⟨_, it, hnew⟩
  by_contra hlt
  have hc : config.check (H := H) = .error .badCfgThreshold := if_pos (Nat.lt_of_not_le hlt)
  simp only [DAG.new, hc] at hnew
  cases hnew

theorem Streak.updates {voters : List H} (h : Streak hash past c voters) {v : H} (hv : v ∈ voters) :
    ∃ s ∈ past, Updates hash s v true c := by
  obtain ⟨between, s, older, first, others, rfl, rfl, hu, hothers, _⟩ := h
  rcases List.mem_append.mp hv with hv | hv
  · obtain ⟨t, ht, hut⟩ := hothers v hv
    exact ⟨t, List.mem_append_left _ ht, hut⟩
  · rw [List.mem_singleton.mp hv]
    exact ⟨s, List.mem_append_right _ List.mem_cons_self, hu⟩

/-- Distinct vertices whose positive results updated the constraint, as many as the smaller
threshold asks for, and at least one. -/
def Carried (hash : Vertex H → H) (config : Config) (past : List (DAG H × Call H))
    (c : Constraint H) : Prop :=
  ∃ voters : List H, voters.Nodup ∧ max 1 config.threshSafeEarlyCommit ≤ voters.length ∧
    ∀ w ∈ voters, ∃ s ∈ past, Updates hash s w true c

/-- A turn that meets the criterion has the voters for it: those of a streak, and the vertex whose
result is recorded. -/
theorem Ballot.carried {v : DAG H × Constraint H} (hb : Ballot hash genesis dag call v w)
    (hr : (DAG.system hash config genesis).Run past dag) (hs : dag.apply hash call = some dag')
    (ha : Accepts v.1.config v.1.state v.2) :
    Carried hash config ((dag, call) :: past) v.2 := by
  have hthresh : config.threshSafeEarlyCommit ≤ tally v.1.state v.2 := by
    have hle := thresholds_of_reachable hr.reachable
    rw [Accepts, hb.config_eq.trans (config_of_reachable hr.reachable)] at ha
    rcases ha with ha | ⟨_, _, ha⟩
    · exact hle.trans ha
    · exact ha
  obtain ⟨state, before, after, haward, hl, hbefore⟩ := hb.turn
  have hcb : v.2 ∉ before := fun h =>
    (List.nodup_append.mp (hl ▸ hb.nodup)).2.2 _ h _ List.mem_cons_self rfl
  have hmem : v.2.conflictSetKey ∈ v.1.state := by
    refine hb.sound.stores.mem_of_registered ?_
    rw [hb.recording]
    exact hb.registered
  -- the tally counts the streak of earlier voters, and this one
  obtain ⟨voters, hst, hnd, hlen⟩ : ∃ voters, (voters = [] ∨ Streak hash past v.2 voters) ∧
      (w :: voters).Nodup ∧ (w :: voters).length = tally v.1.state v.2 := by
    refine voters_of_tally (.of_run hr) (.of_run hr) hb.pending ?_
    refine (tally_of_turns haward hbefore hcb hmem).imp_right ?_
    rintro ⟨cs, hcs, hls, htal, _⟩
    exact ⟨cs, hcs, hls, htal⟩
  have hone : 1 ≤ (w :: voters).length := Nat.le_add_left 1 voters.length
  refine ⟨w :: voters, hnd, max_le hone (hlen ▸ hthresh), fun u hu => ?_⟩
  rcases List.mem_cons.mp hu with rfl | hu
  · exact ⟨(dag, call), List.mem_cons_self, hb.op, .of_pending hs hb.op hb.pending, hb.mem_updates⟩
  · rcases hst with rfl | hst
    · cases hu
    · obtain ⟨s, hs, hup⟩ := hst.updates hu
      exact ⟨s, List.mem_cons_of_mem _ hs, hup⟩

/-- If only constraints of `S` are ever accepted, then what is accepted is of `S`, the genesis
vertex apart. -/
theorem acceptedFrom_stable (S : Constraint H → Prop) :
    Stable hash genesis (fun dag c => Accepts dag.config dag.state c → S c)
      fun _ D => ∀ c, D c = some true → c = .unity (hash genesis) ∨ S c where
  insert dag dag' vx hd hP hc hi c hacc :=
    hP c ((hi.state.decisions.origin c true hacc).resolve_right fun h => by cases h.1)
  accept dag x c hd hP hx hup hg ha d hacc := by
    rcases (ConflictGraph.of_accepted_eq_true hacc).2 with rfl | hold
    · exact Or.inr (hg ha)
    · exact hP d hold

theorem carried_of_accepted (hrun : (DAG.system hash config genesis).Run past dag)
    (hacc : decisionOf dag.state c = some true) :
    c = .unity (hash genesis) ∨ Carried hash config past c := by
  have hP : Stable hash genesis _ _ := acceptedFrom_stable (Carried hash config past)
  refine (hP.reachable (fun c hc => ?_) (hrun.reachableWhen.mono fun s call hm v hv ha => ?_)).2 c hacc
  · rw [DAG.decisionOf_start] at hc
    split at hc
    · next he => exact Or.inl he
    · cases hc
  · obtain ⟨later, older, rfl⟩ := List.append_of_mem hm
    -- the turn that accepts is one of the past, and its voters come before it
    obtain ⟨hr, dag', hs⟩ := hrun.before
    obtain ⟨w, hb⟩ := DAG.exists_ballot (sound_of_reachable hr.reachable) hv
    obtain ⟨voters, hnd, hlen, hvoters⟩ := hb.carried hr hs ha
    refine ⟨voters, hnd, hlen, fun u hu => ?_⟩
    obtain ⟨t, ht, hup⟩ := hvoters u hu
    exact ⟨t, List.mem_append_right _ ht, hup⟩

/-- What a run has gone through has grown into what it has reached. -/
theorem grows_of_mem_past (hrun : (DAG.system hash config genesis).Run past dag)
    {s : DAG H × Call H} (hs : s ∈ past) : s.1.Grows dag := by
  obtain ⟨hreach, hl⟩ := hrun.leads_of_mem hs
  exact .of_leads hreach hl

/-- A result updates constraints that its vertex supports. -/
theorem Updates.supports {s : DAG H × Call H} {b : Bool} (hd : Sound hash genesis s.1)
    (h : Updates hash s w b c) : s.1.graph.Supports w c := by
  obtain ⟨ho, ⟨b', dag', ho', hok⟩, hc⟩ := h
  cases ho.symm.trans ho'
  obtain ⟨vx, dag₁, cs, state, hv, hb, _, _⟩ := recordQueryResult_eq_ok.mp hok
  obtain ⟨state₀, _, rfl, _, _, hup, _⟩ := beginRecord_updates hd hv hb
  have hcs : c ∈ cs := by
    simpa only [DAG.updates, ho, hv, Option.bind_some, hb] using hc
  exact (hup c hcs).symm.imp_left And.left

/-- The voters of an accepted constraint support it, and hold chits. -/
theorem Carried.supporters (hrun : (DAG.system hash config genesis).Run past dag)
    (h : Carried hash config past c) : ∃ voters : Finset H,
      max 1 config.threshSafeEarlyCommit ≤ voters.card ∧ ∀ w ∈ voters,
        dag.graph.Supports w c ∧ chitOf dag.state (.unity w) = some true := by
  obtain ⟨voters, hnd, hlen, hvoters⟩ := h
  refine ⟨voters.toFinset, ?_, fun w hw => ?_⟩
  · rwa [List.toFinset_card_of_nodup hnd]
  · obtain ⟨s, hs, hup⟩ := hvoters w (List.mem_toFinset.mp hw)
    obtain ⟨later, older, rfl⟩ := List.append_of_mem hs
    refine ⟨(grows_of_mem_past hrun hs).inserted.supports ?_, ?_⟩
    · exact hup.supports (sound_of_reachable hrun.before.1.reachable)
    · exact (Chitted.of_run hrun _).mpr ⟨w, ⟨s, hs, hup.1, hup.2.1⟩, rfl⟩

end Taurus
