import Taurus.Requests

namespace Taurus

namespace P2p

/-- The inbound request that the input brings, with the channel for its response. -/
def Input.asks {L : Libp2p} : Input L → Option (L.InboundRequestId × L.ResponseChannel)
  | event (.message (.request rid _ ch)) => some (rid, ch)
  | _ => none

variable {L : Libp2p} {history later : List (Input L)} {input : Input L} {task task' : Task L}
  {past : List (Task L × Input L)} {s t : Task L × Input L} {rid : L.InboundRequestId}
  {ch ch' : L.ResponseChannel} {response : L.Response}

def Asked (history : List (Input L)) (rid : L.InboundRequestId) (ch : L.ResponseChannel) : Prop :=
  ∃ input ∈ history, input.asks = some (rid, ch)

/-- Has the request come in, and nobody responded to it since? -/
def Unanswered (history : List (Input L)) (rid : L.InboundRequestId) (ch : L.ResponseChannel) :
    Prop :=
  ∃ later input earlier, history = later ++ input :: earlier ∧ input.asks = some (rid, ch) ∧
    ∀ response, .respond rid response ∉ later

/-- What the network keeps to for inbound requests, the last input first: each has a fresh id. -/
def FreshAsks : List (Input L) → Prop
  | [] => True
  | input :: history =>
    (∀ rid ch, input.asks = some (rid, ch) → ∀ ch', ¬ Asked history rid ch') ∧ FreshAsks history

theorem Unanswered.asked (h : Unanswered history rid ch) : Asked history rid ch := by
  obtain ⟨later, input, earlier, rfl, ha, _⟩ := h
  exact ⟨input, List.mem_append_right _ List.mem_cons_self, ha⟩

theorem unanswered_cons : Unanswered (input :: history) rid ch ↔ input.asks = some (rid, ch) ∨
    Unanswered history rid ch ∧ ∀ response, input ≠ .respond rid response := by
  constructor
  · rintro ⟨later, asking, earlier, he, ha, hno⟩
    cases later with
    | nil =>
      cases he
      exact Or.inl ha
    | cons last later =>
      cases he
      refine Or.inr ⟨⟨later, asking, earlier, rfl, ha, fun response hm => ?_⟩, ?_⟩
      · exact hno response (List.mem_cons_of_mem _ hm)
      · rintro response rfl
        exact hno response List.mem_cons_self
  · rintro (ha | ⟨⟨later, asking, earlier, rfl, ha, hno⟩, hne⟩)
    · exact ⟨[], input, history, rfl, ha, fun _ h => (List.not_mem_nil h).elim⟩
    · refine ⟨input :: later, asking, earlier, rfl, ha, fun response hm => ?_⟩
      rcases List.mem_cons.mp hm with he | hm
      · exact hne response he.symm
      · exact hno response hm

theorem FreshAsks.of_append (h : FreshAsks (later ++ history)) : FreshAsks history := by
  induction later with
  | nil => exact h
  | cons _ _ ih => exact ih h.2

/-- A request that has been answered does not come in again. -/
theorem not_unanswered_of_answered (hf : FreshAsks (later ++ .respond rid response :: history))
    (ha : Asked history rid ch) :
    ¬ Unanswered (later ++ .respond rid response :: history) rid ch' := by
  induction later with
  | nil =>
    intro hu
    rcases unanswered_cons.mp hu with he | ⟨_, hne⟩
    · cases he
    · exact hne response rfl
  | cons input later ih =>
    intro hu
    rcases unanswered_cons.mp hu with he | ⟨hu, _⟩
    · obtain ⟨asking, hm, hasks⟩ := ha
      refine hf.1 rid ch' he ch ⟨asking, ?_, hasks⟩
      exact List.mem_append_right _ (List.mem_cons_of_mem _ hm)
    · exact ih hf.2 hu

/-- Does the task hold exactly the requests without an answer, each with its own channel? -/
def AwaitsResponses (history : List (Input L)) (task : Task L) : Prop :=
  ∀ rid ch, task.pendingResponses.lookup rid = some ch ↔ Unanswered history rid ch

namespace AwaitsResponses

variable (h : AwaitsResponses history task)
include h

/-- An input that neither brings a request nor answers one leaves the map alone. -/
theorem other (ha : input.asks = none) (hr : ∀ rid response, input ≠ .respond rid response)
    (ht : task'.pendingResponses = task.pendingResponses) :
    AwaitsResponses (input :: history) task' := by
  intro rid ch
  rw [ht, h, unanswered_cons, ha]
  simp only [reduceCtorEq, false_or, hr, ne_eq, not_false_eq_true, implies_true, and_true]

theorem request {r : L.InboundRequestId} {request : L.Request} {c : L.ResponseChannel}
    (hf : FreshAsks (.event (.message (.request r request c)) :: history))
    (ht : task'.pendingResponses = task.pendingResponses.insert r c) :
    AwaitsResponses (.event (.message (.request r request c)) :: history) task' := by
  intro rid ch
  rw [ht, HashMap.lookup_insert, unanswered_cons]
  by_cases he : rid = r
  · subst he
    have hno : ¬ Unanswered history rid ch := fun hu => hf.1 rid c rfl ch hu.asked
    simp only [if_pos, Input.asks, Option.some.injEq, Prod.mk.injEq, true_and, hno, false_and,
      or_false]
  · rw [if_neg he, h]
    simp only [Input.asks, Option.some.injEq, Prod.mk.injEq, Ne.symm he, false_and, false_or, ne_eq,
      reduceCtorEq, not_false_eq_true, implies_true, and_true]

theorem respond {r : L.InboundRequestId} {response : L.Response}
    (ht : task'.pendingResponses = task.pendingResponses.erase r) :
    AwaitsResponses (.respond r response :: history) task' := by
  intro rid ch
  rw [ht, unanswered_cons]
  by_cases he : rid = r
  · subst he
    have hno : ¬ ∀ response', Input.respond (L := L) rid response ≠ .respond rid response' :=
      fun hall => hall response rfl
    simp only [Finmap.lookup_erase, Input.asks, reduceCtorEq, hno, and_false, or_false]
  · rw [Finmap.lookup_erase_ne he, h]
    simp only [Input.asks, reduceCtorEq, false_or, ne_eq, Input.respond.injEq, Ne.symm he,
      false_and, not_false_eq_true, implies_true, and_true]

end AwaitsResponses

theorem awaitsResponses_of_run (hrun : (system L).Run past task)
    (hf : FreshAsks (past.map Prod.snd)) : AwaitsResponses (past.map Prod.snd) task := by
  induction hrun with
  | @init s hs =>
    intro rid ch
    rw [show s = Task.new from hs]
    refine iff_of_false (by simp [Task.new]) ?_
    rintro ⟨later, input, earlier, he, _⟩
    simp at he
  | @step past s s' input _ hs ih =>
    have h := ih hf.2
    obtain ⟨⟨t, output⟩, hhandle, rfl⟩ := Option.map_eq_some_iff.mp hs
    cases input with
    | request request optPeer respCh rid =>
      rw [Task.handle, Task.handleRequest, Option.bind_eq_bind, Option.bind_eq_some_iff] at hhandle
      obtain ⟨_, _, ht⟩ := hhandle
      cases ht
      exact h.other rfl (fun _ _ he => by cases he) rfl
    | respond requestId response =>
      cases hhandle
      exact h.respond rfl
    | event event =>
      have ht : t = (s.handleRequestResponse event).1 :=
        (congrArg Prod.fst (Option.some.inj hhandle)).symm
      rw [ht]
      cases event with
      | message message =>
        cases message with
        | request => exact h.request hf rfl
        | response => exact h.other rfl (fun _ _ he => by cases he) rfl
      | outboundFailure => exact h.other rfl (fun _ _ he => by cases he) rfl
      | inboundFailure => exact h.other rfl (fun _ _ he => by cases he) rfl
      | responseSent => exact h.other rfl (fun _ _ he => by cases he) rfl

/-- Does the step write the response to the request on the channel? -/
def Writes (s : Task L × Input L) (rid : L.InboundRequestId) (ch : L.ResponseChannel)
    (response : L.Response) : Prop :=
  s.2 = .respond rid response ∧ (s.1.handleRespond rid response).2 = some (.sendResponse ch response)

theorem writes_iff (hrun : (system L).Run past task) (hf : FreshAsks (past.map Prod.snd)) :
    Writes (task, input) rid ch response ↔
      input = .respond rid response ∧ Unanswered (past.map Prod.snd) rid ch := by
  rw [← awaitsResponses_of_run hrun hf rid ch, Writes, Task.handleRespond]
  simp only [Option.map_eq_some_iff, Output.sendResponse.injEq, and_true, exists_eq_right]

theorem writes_before (hrun : (system L).Run past task) (hf : FreshAsks (past.map Prod.snd))
    {after earlier : List (Task L × Input L)} (hpast : past = after ++ s :: earlier) :
    FreshAsks (earlier.map Prod.snd) ∧ ∀ rid ch response, Writes s rid ch response ↔
      s.2 = .respond rid response ∧ Unanswered (earlier.map Prod.snd) rid ch := by
  subst hpast
  rw [List.map_append, List.map_cons] at hf
  have hfe := hf.of_append.2
  exact ⟨hfe, fun rid ch response => writes_iff hrun.before.1 hfe⟩

/-- The responses to inbound requests go out as they should, in any interleaving of requests,
responses and other events: an action to respond writes to the channel that came with the request,
if the request has come in and not been answered before, and otherwise nowhere. So each request is
answered once at most. -/
theorem answered_once (hrun : (system L).Run past task) (hf : FreshAsks (past.map Prod.snd)) :
    (∀ after s earlier, past = after ++ s :: earlier → ∀ rid ch response,
      Writes s rid ch response ↔
        s.2 = .respond rid response ∧ Unanswered (earlier.map Prod.snd) rid ch) ∧
    past.Pairwise fun s t => ∀ rid ch ch' response response',
      Writes s rid ch response → ¬ Writes t rid ch' response' := by
  refine ⟨fun after s earlier hpast => (writes_before hrun hf hpast).2, ?_⟩
  induction hrun with
  | init => exact List.Pairwise.nil
  | @step past s s' input hr _ ih =>
    refine List.pairwise_cons.mpr ⟨fun t ht rid ch ch' response response' hw hw' => ?_, ih hf.2⟩
    obtain ⟨later, earlier, hpast⟩ := List.append_of_mem ht
    obtain ⟨_, hbefore⟩ := writes_before hr hf.2 hpast
    -- the older step has answered the request, so it does not come in again
    obtain ⟨hop, hun⟩ := (hbefore rid ch' response').mp hw'
    obtain ⟨_, hun'⟩ := (writes_iff hr hf.2).mp hw
    rw [hpast, List.map_append, List.map_cons, hop] at hun'
    refine not_unanswered_of_answered ?_ hun.asked hun'
    rw [← hop, ← List.map_cons, ← List.map_append, ← hpast]
    exact hf.2

namespace Numbered

/-- A request that is responded to twice. -/
def respondedTwice : List (Input net) :=
  [.respond 5 31, .respond 5 30, .event (.message (.request 5 20 15))]

end Numbered

theorem answered_once_twice : ∃ (past : List (Task Numbered.net × Input Numbered.net))
    (s : Task Numbered.net × Input Numbered.net) (earlier : List (Task Numbered.net × Input Numbered.net)),
    past = s :: earlier ∧ s.2 = .respond 5 31 ∧ ∀ ch, ¬ Writes s 5 ch 31 := by
  obtain ⟨past, task, hrun, hmap, -⟩ := Numbered.run_of_inputs Numbered.respondedTwice
    (P := fun _ => True) (by decide)
  have hf : FreshAsks (past.map Prod.snd) := by
    rw [hmap]
    simp [Numbered.respondedTwice, FreshAsks, Asked, Input.asks]
  obtain ⟨s, earlier, rfl, hs, hrest⟩ := List.map_eq_cons_iff.mp hmap
  refine ⟨_, s, earlier, rfl, hs, fun ch hw => ?_⟩
  have hun := (((answered_once hrun hf).1 [] s earlier rfl 5 ch 31).mp hw).2
  rw [hrest, unanswered_cons] at hun
  rcases hun with he | ⟨_, hne⟩
  · cases he
  · exact hne 30 rfl

end P2p

end Taurus
