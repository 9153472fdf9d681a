import Mathlib.Data.List.Lex
import Mathlib.Data.Prod.Lex
import Taurus.Query

namespace Taurus

section

variable {H : Type} [LinearOrder H] {hash : Vertex H → H} {config : Config}
  {genesis : Vertex H} {guard : DAG H → Call H → Prop} [∀ dag call, Decidable (guard dag call)]

/-- Lexicographic order of constraints. -/
instance : LinearOrder (Constraint H) :=
  LinearOrder.lift' (fun c => toLex (c.left, c.right)) fun c d h => by
    cases c
    cases d
    simpa using h

/-- Hash sets that yield their elements in ascending order. -/
def HashOrders.ascending : HashOrders H := ⟨HashOrder.ascending, HashOrder.ascending⟩

namespace Op

/-- Calls of operations that meet the elements of hash sets in ascending order. -/
def calls (ops : List (Op H)) : List (Call H) := ops.map fun op => ⟨op, .ascending⟩

end Op

theorem start_init (hg : genesis.parents = []) (hc : config.check (H := H) = .ok ()) :
    (DAG.system hash config genesis).init (DAG.start hash config genesis) :=
  ⟨hg, .ascending, DAG.new_eq config hg hc⟩

/-- What a guarded run computes is found in a state that guarded runs reach. -/
theorem reachable_of_run {P : DAG H → Prop} (hg : genesis.parents = [])
    (hc : config.check (H := H) = .ok ()) (calls : List (Call H))
    (h : ∃ dag ∈ (DAG.system hash config genesis).runWhen guard
      (DAG.start hash config genesis) calls, P dag) :
    ∃ dag, (DAG.system hash config genesis).ReachableWhen guard dag ∧ P dag := by
  obtain ⟨dag, hrun, hP⟩ := h
  exact ⟨dag, (System.ReachableWhen.init (start_init hg hc)).run calls hrun, hP⟩

theorem leads_of_run {P : DAG H → DAG H → Prop} (hg : genesis.parents = [])
    (hc : config.check (H := H) = .ok ()) (before after : List (Call H))
    (h : ∃ dag ∈ (DAG.system hash config genesis).runWhen guard
      (DAG.start hash config genesis) before,
        ∃ dag' ∈ (DAG.system hash config genesis).runWhen guard dag after, P dag dag') :
    ∃ dag dag', (DAG.system hash config genesis).ReachableWhen guard dag ∧
      (DAG.system hash config genesis).LeadsWhen guard dag dag' ∧ P dag dag' := by
  obtain ⟨dag, hrun, dag', hrun', hP⟩ := h
  exact ⟨dag, dag', (System.ReachableWhen.init (start_init hg hc)).run before hrun,
    (System.LeadsWhen.refl dag).run after hrun', hP⟩

end

/-- A byte string, as a hash to run the model on. -/
structure Digest where
  bytes : List Nat

namespace Digest

theorem bytes_injective : Function.Injective bytes := fun a b h => by
  cases a
  cases b
  rw [mk.injEq]
  exact h

instance : LinearOrder Digest := LinearOrder.lift' bytes bytes_injective

/-- The bytes with their number in front. -/
def block (d : Digest) : List Nat := d.bytes.length :: d.bytes

theorem block_append_inj (a b : Digest) (s t : List Nat) (h : a.block ++ s = b.block ++ t) :
    a = b ∧ s = t := by
  obtain ⟨hlen, happ⟩ := List.cons.inj h
  obtain ⟨hbytes, hst⟩ := List.append_inj happ hlen
  exact ⟨bytes_injective hbytes, hst⟩

theorem blocks_append_inj (l l' : List Digest) (s t : List Nat) (hlen : l.length = l'.length)
    (h : l.flatMap block ++ s = l'.flatMap block ++ t) : l = l' ∧ s = t := by
  induction l generalizing l' with
  | nil =>
    cases l' with
    | nil => exact ⟨rfl, h⟩
    | cons _ _ => cases hlen
  | cons a l ih =>
    cases l' with
    | nil => cases hlen
    | cons b l' =>
      rw [List.flatMap_cons, List.flatMap_cons, List.append_assoc, List.append_assoc] at h
      obtain ⟨rfl, hrest⟩ := block_append_inj a b _ _ h
      obtain ⟨rfl, hst⟩ := ih l' (Nat.succ.inj hlen) hrest
      exact ⟨rfl, hst⟩

end Digest

namespace Vertex

/-- The serialized fields of a vertex. -/
def wire (vx : Vertex Digest) : Digest :=
  ⟨vx.version :: vx.height :: vx.parents.length ::
    (vx.parents.flatMap Digest.block ++ (vx.namespaceId.block ++ vx.root.block))⟩

theorem wire_sameWire (u v : Vertex Digest) (h : u.wire = v.wire) : u.SameWire v := by
  injection h with h
  injection h with hversion h
  injection h with hheight h
  injection h with hlen h
  obtain ⟨hparents, h⟩ := Digest.blocks_append_inj _ _ _ _ hlen h
  obtain ⟨hns, h⟩ := Digest.block_append_inj _ _ u.root.block v.root.block h
  obtain ⟨hroot, _⟩ := Digest.block_append_inj u.root v.root [] [] (by simpa using h)
  exact ⟨hversion, hheight, hparents, hns, hroot⟩

/-- Hashing a vertex to its own serialization is free of collisions altogether. -/
theorem wire_collisionFree (vertices : Set (Vertex Digest)) : CollisionFree wire vertices :=
  fun u _ v _ => wire_sameWire u v

/-- The `n`-th batch, on top of the given vertices. -/
def batch (n height : Nat) (parents : List (Vertex Digest)) : Vertex Digest where
  version := VERSION
  height := height
  parents := parents.map wire
  namespaceId := ⟨[]⟩
  root := ⟨[n]⟩
  timestamp := 0

end Vertex

/-! Two vertices on one genesis vertex, and two branches that put them in opposite orders. -/

namespace Fork

open Vertex

def root : Vertex Digest := batch 0 0 []
def a : Vertex Digest := batch 1 1 [root]
def b : Vertex Digest := batch 2 1 [root]
def ab : Vertex Digest := batch 3 2 [a, b]
def ba : Vertex Digest := batch 4 2 [b, a]
def abTip : Vertex Digest := batch 5 3 [ab]
def baTip : Vertex Digest := batch 6 3 [ba]
def both : Vertex Digest := batch 7 3 [ab, ba]
def abTwin : Vertex Digest := batch 8 2 [a, b]

/-- Runs from the genesis vertex of the fork. -/
abbrev system (config : Config) : System (DAG Digest) (Call Digest) :=
  DAG.system wire config root

/-- Submits the vertices, then reports that they are strongly preferred. -/
def run (submitted preferred : List (Vertex Digest)) : List (Call Digest) :=
  Op.calls (submitted.map Op.tryInsert ++
    preferred.map fun vx => Op.recordQueryResult vx.wire true)

/-- With both thresholds at one, a vote for one branch rejects the other, and with it the parent
of a vertex whose result is still to come; a later vote accepts it all the same. -/
theorem branch_rejected : ∃ dag dag', (system ⟨1, 1⟩).Reachable dag ∧
    (system ⟨1, 1⟩).LeadsWhen (fun _ _ => True) dag dag' ∧
    (abTip.wire ∈ dag.graph ∧ dag.query wire .ascending ab.wire = .ok (false, true) ∧
      dag.Orphaned abTip.wire ∧ ¬ dag.Orphaned ab.wire ∧ dag.vertex.keys.card < 2 ^ 64 - 1) ∧
    (∃ c ∈ dag'.graph.commitments ab.wire, decisionOf dag'.state c = some false) ∧
    dag'.query wire .ascending ab.wire = .ok (true, true) :=
  leads_of_run rfl rfl (run [a, b, ab, ba, abTip] [ba]) (run [] [ab]) (by decide +kernel)

/-- With both thresholds at two, votes for both branches and for a child of each accept both
branches, but not the ordering of one; a vertex on top of the two is inserted. -/
theorem branches_accepted : ∃ dag, (system ⟨2, 2⟩).Reachable dag ∧
    dag.query wire .ascending ab.wire = .ok (true, true) ∧
    dag.query wire .ascending ba.wire = .ok (true, true) ∧
    ⟨a.wire, b.wire⟩ ∈ dag.graph.commitments ab.wire ∧
    ⟨b.wire, a.wire⟩ ∈ dag.graph.commitments ba.wire ∧
    decisionOf dag.state ⟨a.wire, b.wire⟩ ≠ some true ∧
    dag.graph.lookup both.wire = some both ∧
    dag.query wire .ascending both.wire ≠ .ok (false, true) :=
  reachable_of_run rfl rfl (run [a, b, ab, ba, abTip, baTip] [ab, ba, abTip, baTip] ++ run [both] [])
    (by decide +kernel)

end Fork

end Taurus
