import Taurus.DAG

namespace Taurus

variable {H : Type} [LinearOrder H] (hash : Vertex H → H) (it : HashOrders H)

namespace DAG

/-- Every constraint with a chit in the progeny of `c`, with repetitions. -/
def progenyWithChits (state : StateMap H) : Nat → Constraint H → Option (List (Constraint H))
  | 0, _ => none
  | fuel + 1, c => do
    let cState ← state.lookup c.conflictSetKey
    let children ← cState.children.lookup c
    let chits ← (it.constraints.order c children).mapM (progenyWithChits state fuel)
    let chit ← cState.chit.lookup c
    return if chit then chits.flatten ++ [c] else chits.flatten

/-- Marks a constraint and its progeny as rejected. -/
def rejectProgeny : Nat → StateMap H → Constraint H → Option (StateMap H)
  | 0, _, _ => none
  | fuel + 1, state, c => do
    let cState ← state.lookup c.conflictSetKey
    let state := state.insert c.conflictSetKey
      { cState with decision := cState.decision.insert c false }
    let children ← cState.children.lookup c
    (it.constraints.order c children).foldlM (rejectProgeny fuel) state

/-- Increments the counter if the previous vote in the set was the same, else restarts it. -/
def countVote (cState : ConflictSet H) (c : Constraint H) : Option (ConflictSet H) :=
  if cState.last ≠ c then
    some { cState with last := c, count := cState.count.insert c 1 }
  else do
    let n ← cState.count.lookup c
    return { cState with count := cState.count.insert c (n + 1) }

/-- Is the decision on `p` that it was accepted? -/
def isAccepted (state : StateMap H) (p : Constraint H) : Option Bool := do
  let pState ← state.lookup p.conflictSetKey
  return pState.decision.lookup p == some true

/-- A decision can be made if the count reaches the acceptance threshold, or under the
"safe early commitment" criteria: parents accepted, no conflict, and a lower threshold. -/
def canAccept (config : Config) (state : StateMap H) (c : Constraint H) (cCount : Nat)
    (cParents : HashSet (Constraint H)) (hasConflict : Bool) : Option Bool :=
  if cCount ≥ config.threshAccepted then
    -- this branch does not ask for the parents
    some true
  else do
    let settled ← (it.constraints.order c cParents).allM (isAccepted state)
    return settled && !hasConflict && decide (cCount ≥ config.threshSafeEarlyCommit)

/-- Accepts a constraint and rejects the progeny of its opposite. -/
def accept (depth : Nat) (state : StateMap H) (c : Constraint H) : Option (StateMap H) := do
  let cState ← state.lookup c.conflictSetKey
  let state := state.insert c.conflictSetKey
    { cState with decision := cState.decision.insert c true, preferred := c }
  match c.conflict with
  | some opp => rejectProgeny it depth state opp
  | none => return state

/-- Number of distinct constraints with a chit in the progeny of `c`. -/
def confidence (depth : Nat) (state : StateMap H) (c : Constraint H) : Option Nat := do
  let chits ← progenyWithChits it state depth c
  return chits.eraseDups.length

/-- Confidence of the opposite constraint, if there is one. -/
def oppConfidence (depth : Nat) (state : StateMap H) (c : Constraint H) : Option Nat :=
  match c.conflict with
  | some opp => confidence it depth state opp
  | none => some 0

/-- Has the constraint an opposite with a conflict set in the state map? -/
def hasConflictSet (state : StateMap H) (c : Constraint H) : Bool :=
  match c.conflict with
  | some opp => decide (opp.conflictSetKey ∈ state)
  | none => false

/-- Update of one undecided constraint by a positive result. -/
def voteFor (config : Config) (depth : Nat) (state : StateMap H) (c : Constraint H) :
    Option (StateMap H) := do
  -- both confidences are computed before the conflict set is written
  let cConf ← confidence it depth state c
  let hasConflict := hasConflictSet state c
  let oppConf ← oppConfidence it depth state c
  let cState ← state.lookup c.conflictSetKey
  let cState := { cState with
    confidence := cState.confidence.insert c cConf
    preferred := if cConf > oppConf then c else cState.preferred }
  let cState ← countVote cState c
  let state := state.insert c.conflictSetKey cState
  let cCount ← cState.count.lookup c
  let cParents ← cState.parents.lookup c
  -- the verdict that is already there, if any, is not looked at
  if ← canAccept it config state c cCount cParents hasConflict then
    accept it depth state c
  else
    return state

/-- Update of one undecided constraint by a negative result. -/
def voteAgainst (state : StateMap H) (c : Constraint H) : Option (StateMap H) := do
  let cState ← state.lookup c.conflictSetKey
  return state.insert c.conflictSetKey { cState with count := cState.count.insert c 0 }

/-- Awards a chit to the unity constraint of a vertex. -/
def awardChit (state : StateMap H) (c : Constraint H) : Option (StateMap H) := do
  let cState ← state.lookup c.conflictSetKey
  return state.insert c.conflictSetKey { cState with chit := cState.chit.insert c true }

def awardIfPreferred (stronglyPreferred : Bool) (state : StateMap H) (c : Constraint H) :
    Option (StateMap H) :=
  if stronglyPreferred then awardChit state c else some state

/-- The graph with a vertex taken out of the pending ones, and another voting state. -/
def recording (dag : DAG H) (vhash : H) (state : StateMap H) : DAG H :=
  { dag with pendingQuery := dag.pendingQuery.erase vhash, state := state }

/-- The part of `record_query_result` before its loop: takes the vertex out of the
pending ones, awards the chit, and lists the constraints to update. -/
def beginRecord (dag : DAG H) (vx : Vertex H) (vhash : H) (stronglyPreferred : Bool) :
    Option (DAG H × List (Constraint H)) := do
  let unity := Constraint.unity vhash
  let state ← awardIfPreferred stronglyPreferred dag.state unity
  let dag := dag.recording vhash state
  -- the unwrap that fails when a parent has been rejected
  let constraints ← (dag.getActiveAncestorConstraints hash it vx).unwrap
  -- the own unity constraint is updated even if it is decided
  return (dag, constraints ++ [unity])

/-- Body of the loop of `record_query_result`. -/
def recordConstraint (dag : DAG H) (stronglyPreferred : Bool) (state : StateMap H)
    (c : Constraint H) : Option (StateMap H) :=
  if stronglyPreferred then voteFor it dag.config dag.depth state c else voteAgainst state c

/-- Records the result of a preference query for the vertex. An error leaves the graph
as it was. -/
def recordQueryResult (dag : DAG H) (vhash : H) (stronglyPreferred : Bool) :
    Outcome (Error H) (DAG H) :=
  match dag.pendingQuery.lookup vhash with
  | some vx => do
    let (dag, constraints) ← dag.beginRecord hash it vx vhash stronglyPreferred
    let state ← (constraints.foldlM (dag.recordConstraint it stronglyPreferred) dag.state :
      Option (StateMap H))
    return { dag with state := state }
  | none =>
    if vhash ∈ dag.graph then .err .alreadyRecorded
    else if vhash ∈ dag.vertex then .err .waitingOnInsert
    else .err .notFound

end DAG

end Taurus
