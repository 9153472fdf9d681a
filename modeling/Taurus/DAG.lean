import Taurus.Outcome
import Taurus.Vertex
import Taurus.ConflictSet

namespace Taurus

variable {H : Type}

inductive Error (H : Type) where
  | alreadyInserted
  | alreadyRecorded
  | badCfgThreshold
  | badHeight (expected found : Nat)
  | conflictingAncestors
  | missingParents (missing : List H)
  | notFound
  | rejectedAncestor
  | selfReferentialParent
  | vertex (e : VertexError)
  | waitingOnParents (waiting : List H)
  | waitingOnInsert
deriving DecidableEq, Repr

/-- The two counter values at which a constraint is accepted. -/
structure Config where
  threshAccepted : Nat
  threshSafeEarlyCommit : Nat
deriving DecidableEq, Repr

def DFLT_ACCEPTANCE_THRESHOLD : Nat := 9
def DFLT_SAFE_EARLY_COMMIT_THRESHOLD : Nat := 6

instance : Inhabited Config where
  default :=
    { threshAccepted := DFLT_ACCEPTANCE_THRESHOLD
      threshSafeEarlyCommit := DFLT_SAFE_EARLY_COMMIT_THRESHOLD }

def Config.check (config : Config) : Except (Error H) Unit :=
  if config.threshAccepted < config.threshSafeEarlyCommit then .error .badCfgThreshold else .ok ()

theorem Config.check_default : (default : Config).check = (.ok () : Except (Error H) Unit) := rfl

/-- The order in which the hash sets met during one call are iterated. A set of
vertices is tagged by the vertex it belongs to (`none` for the frontier map), a set of
constraints by the constraint it belongs to. -/
structure HashOrders (H : Type) where
  vertices : HashOrder (Option H) H
  constraints : HashOrder (Constraint H) (Constraint H)

/-- Inserted vertices by hash. -/
abbrev Graph (H : Type) := HashMap H (Vertex H)

/-- A graph of vertices, and the voting state of the constraints they commit to. -/
structure DAG (H : Type) where
  config : Config
  /-- every known vertex, inserted or waiting -/
  vertex : HashMap H (Vertex H)
  graph : Graph H
  pendingQuery : HashMap H (Vertex H)
  children : HashMap H (HashSet H)
  state : StateMap H
  frontier : HashMap H (Vertex H)

/-- Seed of the `try_reduce` over decided heights. -/
def u64Max : Nat := 2 ^ 64 - 1

namespace DAG

variable [LinearOrder H] (hash : Vertex H → H) (it : HashOrders H)

/-- Bound on the depth of the recursions over the graph, which take one step for each
vertex on a path. -/
def depth (dag : DAG H) : Nat := dag.vertex.keys.card

/-- Height at which all ancestors of `vhash` have been decided. -/
def decidedHeight (dag : DAG H) : Nat → H → Outcome (Error H) Nat
  | 0, _ => .panic
  | fuel + 1, vhash => do
    let unity := Constraint.unity vhash
    let state ← dag.state.lookup unity.conflictSetKey
    match state.decision.lookup unity with
    -- a rejected vertex ends the search with an error, an accepted one with its own height
    | some false => .err .rejectedAncestor
    | some true => do
      let vx ← dag.vertex.lookup vhash
      return vx.height
    | none => do
      let vx ← dag.vertex.lookup vhash
      let heights ← vx.parents.mapM (decidedHeight dag fuel)
      -- the fold of `try_reduce` starts from `u64::MAX`
      return heights.foldr min u64Max

/-- Ancestors of `vhash` back to the specified height. -/
def gatherAncestors (dag : DAG H) (toHeight : Nat) : Nat → H → Outcome (Error H) (HashSet H)
  | 0, _ => .panic
  | fuel + 1, vhash => do
    let vx ← dag.vertex.lookup vhash
    if vx.height > toHeight then do
      let gathered ← vx.parents.mapM (gatherAncestors dag toHeight fuel)
      return gathered.foldr (· ∪ ·) vx.parents.toFinset
    else
      -- at the cut-off the search ends, without the parents
      return ∅

/-- Is the unity constraint of `vhash` still without a decision? -/
def isUndecided (dag : DAG H) (vhash : H) : Outcome (Error H) Bool := do
  let unity := Constraint.unity vhash
  let state ← dag.state.lookup unity.conflictSetKey
  return decide (unity ∉ state.decision)

def sortedByHeight (dag : DAG H) (hashes : List H) : Outcome (Error H) (List H) := do
  let keyed ← hashes.mapM fun vhash => do
    let vx ← dag.vertex.lookup vhash
    return (vx.height, vhash)
  return (keyed.insertionSort fun a b => a.1 ≤ b.1).map Prod.snd

/-- Ancestors back to the point where all have been accepted, in ascending height. -/
def getActiveAncestors (dag : DAG H) (vx : Vertex H) : Outcome (Error H) (List H) :=
  if vx.parents.any (fun p => p ∉ dag.vertex) then
    .err .notFound
  else do
    -- the decided heights also find out whether a parent is rejected
    let minHeights ← vx.parents.mapM (dag.decidedHeight dag.depth)
    let toHeight ← minHeights.min?
    let gathered ← vx.parents.mapM (dag.gatherAncestors toHeight dag.depth)
    let ancestorsOfParents := gathered.foldr (· ∪ ·) ∅
    if vx.parents.any (fun p => p ∈ ancestorsOfParents) then
      .err .selfReferentialParent
    else do
      -- a parent is undecided or accepted here; only the undecided ones are kept below
      let candidates := it.vertices.order (some (hash vx)) ancestorsOfParents ++ vx.parents
      let active ← candidates.filterM dag.isUndecided
      dag.sortedByHeight active

/-- Undecided constraints of the active ancestors and of the vertex itself. -/
def getActiveAncestorConstraints (dag : DAG H) (vx : Vertex H) :
    Outcome (Error H) (List (Constraint H)) := do
  let ancestors ← dag.getActiveAncestors hash it vx
  let constraints ← ancestors.mapM fun vhash => do
    let avx ← dag.vertex.lookup vhash
    return avx.parentConstraints
  return (constraints.flatten ++ vx.parentConstraints).eraseDups.filter fun c =>
    match dag.state.lookup c.conflictSetKey with
    | some s => decide (c ∉ s.decision)
    -- a constraint without a conflict set is undecided
    | none => true

/-- Does the list contain a constraint together with its opposite? -/
def hasConflict (constraints : List (Constraint H)) : Bool :=
  constraints.any fun c =>
    match c.conflict with
    | some cflct => constraints.contains cflct
    | none => false

/-- Checks a vertex must pass before it is inserted. -/
def checkVertex (dag : DAG H) (vx : Vertex H) : Outcome (Error H) Unit :=
  match vx.sanityChecks with
  | .error e => .err (.vertex e)
  | .ok () =>
    if hash vx ∈ dag.graph then
      .err .alreadyInserted
    else
      -- unknown parents, and known ones that are not inserted
      let missing := vx.parents.filter fun p => p ∉ dag.vertex
      let waiting := vx.parents.filter fun p => p ∈ dag.vertex ∧ p ∉ dag.graph
      if !missing.isEmpty then
        .err (.missingParents missing)
      else if !waiting.isEmpty then
        .err (.waitingOnParents waiting)
      else do
        -- all parents are inserted from here on
        let heights ← vx.parents.mapM fun p => do
          let pvx ← dag.vertex.lookup p
          return pvx.height
        let maxHeight ← heights.max?
        if 1 + maxHeight ≠ vx.height then
          .err (.badHeight (1 + maxHeight) vx.height)
        else do
          let ancestorConstraints ← dag.getActiveAncestorConstraints hash it vx
          if hasConflict ancestorConstraints then .err .conflictingAncestors else return ()

/-- Body of the loop of `map_child`. -/
def addChild (vhash : H) (children : HashMap H (HashSet H)) (parent : H) : HashMap H (HashSet H) :=
  match children.lookup parent with
  | some known => children.insert parent (Insert.insert vhash known)
  | none => children.insert parent {vhash}

/-- Adds `vhash` as a known child to each of its parents. -/
def mapChild (children : HashMap H (HashSet H)) (vhash : H) (parents : List H) :
    HashMap H (HashSet H) :=
  parents.foldl (addChild vhash) children

/-- Registers `c` as a child of one of its parent constraints. -/
def registerChild (c : Constraint H) (state : StateMap H) (parent : Constraint H) :
    Option (StateMap H) := do
  let pState ← state.lookup parent.conflictSetKey
  let known := match pState.children.lookup parent with
    | some children => Insert.insert c children
    | none => {c}
  return state.insert parent.conflictSetKey
    { pState with children := pState.children.insert parent known }

/-- Body of the loop of `insert` over the constraints of the new vertex. -/
def insertConstraint (vertex : HashMap H (Vertex H)) (state : StateMap H) (c : Constraint H) :
    Option (StateMap H) := do
  let left ← vertex.lookup c.left
  let right ← vertex.lookup c.right
  let cParents := (left.parentConstraints ++ right.parentConstraints).toFinset
  -- a constraint is born rejected if one of its parents is
  let rejected ← (it.constraints.order c cParents).anyM fun p => do
    let pState ← state.lookup p.conflictSetKey
    return pState.decision.lookup p == some false
  let state ← (it.constraints.order c cParents).foldlM (registerChild c) state
  let newState := ConflictSet.new c cParents
  let newState := if rejected then
      { newState with decision := newState.decision.insert c false }
    else newState
  -- the conflict set stays as it is if the opposite has made it before
  return HashMap.tryInsert state c.conflictSetKey newState

/-- Inserts a vertex without checking it. Panics if its parents are not in the graph. -/
def insert (dag : DAG H) (vx : Vertex H) : Option (DAG H) := do
  let vhash := hash vx
  let vertex := dag.vertex.insert vhash vx
  let unity := Constraint.unity vhash
  -- the unity constraint of the vertex comes last, its parents are all there by then
  let constraints := it.constraints.order unity vx.parentConstraints.toFinset ++ [unity]
  let state ← constraints.foldlM (insertConstraint it vertex) dag.state
  return { dag with
    vertex := vertex
    state := state
    children := mapChild (HashMap.tryInsert dag.children vhash ∅) vhash vx.parents
    graph := dag.graph.insert vhash vx
    pendingQuery := dag.pendingQuery.insert vhash vx
    frontier := (vx.parents.foldl (fun frontier p => frontier.erase p) dag.frontier).insert vhash vx }

def getKnownChildren (dag : DAG H) (vhash : H) : Except (Error H) (HashSet H) :=
  match dag.children.lookup vhash with
  | some children => .ok children
  | none => .error .notFound

/-- What `try_insert` does with a refused vertex: one that only lacks parents is kept. -/
def park (dag : DAG H) (vx : Vertex H) : Error H → DAG H
  | .missingParents _ | .waitingOnParents _ =>
    { dag with
      children := mapChild dag.children (hash vx) vx.parents
      vertex := dag.vertex.insert (hash vx) vx }
  | _ => dag

/-- Inserts a vertex, and returns the known children waiting for it. -/
def tryInsert (dag : DAG H) (vx : Vertex H) : Option (Except (Error H) (HashSet H) × DAG H) :=
  match dag.checkVertex hash it vx with
  | .panic => none
  | .err e => some (.error e, dag.park hash vx e)
  | .ok () => do
    let dag ← dag.insert hash it vx
    -- the vertex is in the graph by now; its known children may wait for other parents, too
    match dag.getKnownChildren (hash vx) with
    | .error e => return (.error e, dag)
    | .ok children => return (.ok (children.filter fun c => c ∉ dag.graph), dag)

/-- Work loop of `retry_pending`. The head of the list is the end of the source's
vector, the place where it pushes and pops. -/
def retryLoop : Nat → DAG H → List H → HashSet H → Option (HashSet H × DAG H)
  | 0, _, _, _ => none
  | _ + 1, dag, [], successes => some (successes, dag)
  | fuel + 1, dag, vhash :: queue, successes =>
    match dag.vertex.lookup vhash with
    -- a hash nobody knows is dropped
    | none => retryLoop fuel dag queue successes
    | some vx => do
      let (result, dag) ← dag.tryInsert hash it vx
      match result with
      | .error _ => retryLoop fuel dag queue successes
      | .ok waiting =>
        retryLoop fuel dag ((it.vertices.order (some vhash) waiting).reverse ++ queue)
          (Insert.insert vhash successes)

/-- Each success takes a vertex out of the waiting ones and pushes at most all others. -/
def retryFuel (dag : DAG H) (queue : List H) : Nat :=
  queue.length + dag.depth * (dag.depth + 1) + 1

def retryPending (dag : DAG H) (hashes : List H) : Option (HashSet H × DAG H) :=
  retryLoop hash it (dag.retryFuel hashes) dag hashes.reverse ∅

/-- Marks constraints as accepted, without rejecting their opposites. -/
def markAccepted (state : StateMap H) (c : Constraint H) : Option (StateMap H) := do
  let cState ← state.lookup c.conflictSetKey
  return state.insert c.conflictSetKey { cState with decision := cState.decision.insert c true }

/-- Body of the loop of `new` over the initial vertices. -/
def insertDecided (dag : DAG H) (vx : Vertex H) : Option (DAG H) := do
  let dag ← dag.insert hash it vx
  let constraints := vx.parentConstraints ++ [Constraint.unity (hash vx)]
  let state ← constraints.foldlM markAccepted dag.state
  return { dag with pendingQuery := dag.pendingQuery.erase (hash vx), state := state }

def empty (config : Config) : DAG H :=
  { config := config, vertex := ∅, graph := ∅, pendingQuery := ∅, children := ∅, state := ∅,
    frontier := ∅ }

/-- A graph with the given configuration and initial decided vertices. -/
def new (config : Config) (init : List (Vertex H)) : Outcome (Error H) (DAG H) :=
  match config.check with
  | .error e => .err e
  | .ok () => do
    let dag ← (init.foldlM (insertDecided hash it) (empty config) : Option (DAG H))
    return dag

def isPreferred (dag : DAG H) (vhash : H) : Outcome (Error H) Bool :=
  match dag.vertex.lookup vhash with
  | none => .err .notFound
  | some vx =>
    match dag.graph.lookup vhash with
    | none => .err .waitingOnInsert
    | some _ => do
      let preferred ← vx.parentConstraints.allM fun c => do
        let cState ← dag.state.lookup c.conflictSetKey
        return decide (cState.preferred = c)
      return preferred

/-- Is the vertex strongly preferred, and is that final? -/
def query (dag : DAG H) (vhash : H) : Outcome (Error H) (Bool × Bool) :=
  match dag.graph.lookup vhash with
  | some vx => do
    let unity := Constraint.unity vhash
    let state ← dag.state.lookup unity.conflictSetKey
    match state.decision.lookup unity with
    | some decision => return (decision, true)
    | none => do
      let constraints ← dag.getActiveAncestorConstraints hash it vx
      let states ← constraints.mapM fun c => do
        let cState ← dag.state.lookup c.conflictSetKey
        let s := match cState.decision.lookup c with
          | some true => (true, true)
          | some false => (false, true)
          | none => (decide (cState.preferred = c), false)
        -- the assertion "found rejected vertex in ancestry"
        if s.1 || !s.2 then return s else .panic
      return (states.all (·.1), false)
  | none => if vhash ∈ dag.vertex then .err .waitingOnInsert else .err .notFound

/-- Frontier vertices that are strongly preferred, in the order they were observed. -/
def getFrontier (dag : DAG H) : Option (List (Vertex H)) := do
  let kept ← (it.vertices.order none dag.frontier.keys).filterM fun vhash =>
    match dag.query hash it vhash with
    | .ok (preferred, _) => some preferred
    | .err _ => some false
    | .panic => none
  let vertices := kept.filterMap fun vhash => dag.frontier.lookup vhash
  return vertices.insertionSort fun a b => a.timestamp ≤ b.timestamp

/-- What the consensus task does with a submitted vertex: insert it, then retry the
vertices that were waiting for it. -/
def submit (dag : DAG H) (vx : Vertex H) : Option (DAG H) := do
  let (result, dag) ← dag.tryInsert hash it vx
  match result with
  | .error _ => return dag
  | .ok waiting =>
    let (_, dag) ← dag.retryPending hash it (it.vertices.order (some (hash vx)) waiting)
    return dag

end DAG

end Taurus
