import Taurus.Fetcher
import Taurus.Pollster

namespace Taurus

/-- `IndexSet<T>`: distinct values, in the order of their insertion. -/
structure IndexSet (α : Type) where
  values : List α
  nodup : values.Nodup

namespace IndexSet

variable {α : Type}

def empty : IndexSet α := ⟨[], List.nodup_nil⟩

def insert [DecidableEq α] (s : IndexSet α) (a : α) : IndexSet α :=
  if h : a ∈ s.values then s
  else ⟨s.values ++ [a], by
    rw [List.nodup_append]
    refine ⟨s.nodup, List.nodup_singleton a, ?_⟩
    rintro x hx y hy rfl
    exact h (List.mem_singleton.mp hy ▸ hx)⟩

theorem mem_insert [DecidableEq α] (s : IndexSet α) (a b : α) :
    b ∈ (s.insert a).values ↔ b = a ∨ b ∈ s.values := by
  unfold insert
  split
  · next h => exact ⟨Or.inr, fun hb => hb.elim (fun he => he ▸ h) id⟩
  · rw [List.mem_append, List.mem_singleton]
    exact or_comm

end IndexSet

/-- A generator of random indices. Below every bound it draws each index in time; the draws are
independent for different vertices. -/
structure Rng (H : Type) where
  draws : (n : Nat) → H → List (Fin n)
  mem_draws : ∀ n vhash i, i ∈ draws n vhash

/-- The draws hold as many distinct indices as there are. -/
theorem Rng.length_eraseDups {H : Type} (rng : Rng H) (n : Nat) (vhash : H) :
    (rng.draws n vhash).eraseDups.length = n := by
  have hperm : (rng.draws n vhash).eraseDups.Perm (List.finRange n) := by
    rw [List.perm_ext_iff_of_nodup (Vertex.nodup_eraseDups _) (List.nodup_finRange n)]
    intro i
    simp only [List.mem_eraseDups, rng.mem_draws, List.mem_finRange]
  rw [hperm.length_eq, List.length_finRange]

/-- Draws every index once, in ascending order. -/
def Rng.ascending {H : Type} : Rng H where
  draws n _ := List.finRange n
  mem_draws _ _ i := List.mem_finRange i

/-- Actions that the consensus task performs; most come with a channel for the result. -/
inductive Action (H P Ch : Type) where
  | addValidator (validator : P)
  | getAcceptedFrontier (resultCh : Ch)
  | getPreference (vhash : H) (resultCh : Ch)
  | getVertex (vhash : H) (resultCh : Ch)
  | recordPeerPreference (vhash : H) (preference : Bool)
  | submitVertex (vertex : Vertex H) (resultCh : Ch)

/-- What the consensus task does while it performs an action, apart from changing its state. -/
inductive Effect (H P Ch : Type) where
  | sendFrontier (resultCh : Ch) (frontier : List (Vertex H))
  | sendPreference (resultCh : Ch) (preference : Option (Bool × Bool))
  | sendVertex (resultCh : Ch) (vertex : Option (Vertex H))
  | sendInserted (resultCh : Ch) (resp : Except (Error H) (HashSet H))
  | startPollster (pollster : Pollster H P)
  /-- the event for the subscribers of the task -/
  | newFrontier (frontier : List (Vertex H))

/-- State of the consensus task. -/
structure Task (H P : Type) where
  config : Task.Config
  dag : DAG H
  validators : IndexSet P

/-- The genesis vertex; `zero` is the hash of zeros. -/
def GenesisConfig.toVertex {H : Type} (zero : H) : Vertex H where
  version := 1
  height := 0
  parents := []
  namespaceId := zero
  root := zero
  timestamp := 1424301369

namespace Task

variable {H P Ch : Type} [LinearOrder H] [DecidableEq P] (hash : Vertex H → H) (it : HashOrders H)
  (rng : Rng H)

/-- A new task, on a graph of the genesis vertex alone. -/
def new (config : Config) (genesis : Vertex H) : Outcome (Error ⊕ Taurus.Error H) (Task H P) :=
  match config.check with
  | .error e => .err (.inl e)
  | .ok () =>
    match DAG.new hash it config.dag [genesis] with
    | .ok dag => .ok { config := config, dag := dag, validators := .empty }
    | .err e => .err (.inr e)
    | .panic => .panic

/-- Pollsters for the vertices of a frontier, each with validators of its own; none as long as
there are not enough of them. -/
def pollsters (task : Task H P) (frontier : List (Vertex H)) : List (Pollster H P) :=
  frontier.filterMap fun vx =>
    (getValidatorsForQuery task.config task.validators.values
        (rng.draws task.validators.values.length (hash vx))).toOption.map fun peers =>
      { vhash := hash vx, peersToPoll := peers, quorumSize := task.config.quorumSize }

/-- The body of the task's loop. -/
def handle (task : Task H P) : Action H P Ch → Option (Task H P × List (Effect H P Ch))
  | .addValidator validator =>
    some ({ task with validators := task.validators.insert validator }, [])
  | .getAcceptedFrontier resultCh => do
    let frontier ← task.dag.getFrontier hash it
    return (task, [.sendFrontier resultCh frontier])
  | .getPreference vhash resultCh =>
    match task.dag.query hash it vhash with
    | .ok preference => some (task, [.sendPreference resultCh (some preference)])
    | .err _ => some (task, [.sendPreference resultCh none])
    | .panic => none
  | .getVertex vhash resultCh =>
    some (task, [.sendVertex resultCh (task.dag.vertex.lookup vhash)])
  | .recordPeerPreference vhash preference =>
    match task.dag.recordQueryResult hash it vhash preference with
    | .ok dag => some ({ task with dag := dag }, [])
    -- the error is dropped
    | .err _ => some (task, [])
    | .panic => none
  | .submitVertex vertex resultCh => do
    let (resp, dag) ← task.dag.submitVertex hash it vertex
    match resp with
    | .ok _ =>
      -- every vertex of the frontier is polled, those that were polled before, too
      let frontier ← dag.getFrontier hash it
      return ({ task with dag := dag },
        (task.pollsters hash rng frontier).map .startPollster ++
          [.newFrontier frontier, .sendInserted resultCh resp])
    | .error _ => return ({ task with dag := dag }, [.sendInserted resultCh resp])

end Task

end Taurus
