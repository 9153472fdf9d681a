import Taurus.Vertex

namespace Taurus

/-! Messages as they are generated from the protocol buffer definitions. Integers keep the width of
the fields that they are copied from and to, so they are not reduced here either. -/

namespace Proto

structure Hash where
  hash : List UInt8
deriving DecidableEq

structure Vertex where
  version : Nat
  height : Nat
  parents : List Hash
  namespaceId : Option Hash
  root : Option Hash
deriving DecidableEq

structure Preference where
  preferred : Bool
deriving DecidableEq

inductive RequestData where
  | getVertex (hash : Hash)
  | getPreference (hash : Hash)
deriving DecidableEq

structure Request where
  requestData : Option RequestData
deriving DecidableEq

inductive ResponseData where
  /-- the number of an error code -/
  | error (code : Int)
  | vertex (vx : Vertex)
  | preference (preference : Preference)
deriving DecidableEq

structure Response where
  responseData : Option ResponseData
deriving DecidableEq

structure Broadcast where
  vertex : Option Vertex
deriving DecidableEq

end Proto

section Except

variable {ε ε' α β : Type}

theorem Except.ok_bind (a : α) (f : α → Except ε β) : (Except.ok a >>= f) = f a := rfl

theorem Except.bind_eq_ok {x : Except ε α} {f : α → Except ε β} {b : β} :
    (x >>= f) = .ok b ↔ ∃ a, x = .ok a ∧ f a = .ok b := by
  cases x with
  | error e => exact iff_of_false (fun h => by cases h) (by simp)
  | ok a => simp [Except.ok_bind]

/-- An optional check, before anything else. -/
theorem Except.check_eq_ok {check : Bool} {x : Except ε Unit} {y : Except ε α} {a : α} :
    (if check = true then x >>= fun _ => y else y) = .ok a ↔
      (check = true → x = .ok ()) ∧ y = .ok a := by
  cases check with
  | false => simp
  | true =>
    rw [if_pos rfl, Except.bind_eq_ok]
    constructor
    · rintro ⟨_, hx, hy⟩
      exact ⟨fun _ => hx, hy⟩
    · rintro ⟨hx, hy⟩
      exact ⟨(), hx rfl, hy⟩

theorem Except.mapError_eq_ok {x : Except ε α} {f : ε → ε'} {a : α} :
    x.mapError f = .ok a ↔ x = .ok a := by
  cases x <;> simp [Except.mapError]

/-- Two conversions that undo each other do so on lists, too. -/
theorem mapM_eq_ok_iff {f : α → Except ε β} {g : β → Except ε' α}
    (h : ∀ a b, f a = .ok b ↔ g b = .ok a) (l : List α) (l' : List β) :
    l.mapM f = .ok l' ↔ l'.mapM g = .ok l := by
  induction l generalizing l' with
  | nil =>
    cases l' with
    | nil => exact iff_of_true rfl rfl
    | cons b l' => simp [List.mapM_cons, Except.bind_eq_ok, pure, Except.pure]
  | cons a l ih =>
    cases l' with
    | nil => simp [List.mapM_cons, Except.bind_eq_ok, pure, Except.pure]
    | cons b l' =>
      simp only [List.mapM_cons, Except.bind_eq_ok, pure, Except.pure, Except.ok.injEq,
        List.cons.injEq, exists_eq_right_right, ← ih, ← h]

end Except

/-- Encoder and decoder of a generated message. -/
structure Prost (M : Type) where
  encode : M → Option (List UInt8)
  decode : List UInt8 → Option M

/-- What is encoded decodes to what it was. -/
def Prost.Inverse {M : Type} (prost : Prost M) : Prop :=
  ∀ m, ∃ bytes, prost.encode m = some bytes ∧ prost.decode bytes = some m

/-- Conversions between a type and its message, each with or without checks, and the errors of the
type for a message that cannot be encoded or decoded. -/
structure WireFormat (α M ε : Type) where
  toProtobuf : α → Bool → Except ε M
  fromProtobuf : M → Bool → Except ε α
  prostEncode : ε
  prostDecode : ε

def HASH_LEN : Nat := 32

structure Hash where
  bytes : List UInt8
  length_eq : bytes.length = HASH_LEN
deriving DecidableEq

namespace WireFormat

variable {α M ε : Type} (F : WireFormat α M ε) (prost : Prost M)

def toWire (a : α) (check : Bool) : Except ε (List UInt8) := do
  let protobuf ← F.toProtobuf a check
  match prost.encode protobuf with
  | some bytes => .ok bytes
  | none => .error F.prostEncode

def fromWire (bytes : List UInt8) (check : Bool) : Except ε α :=
  match prost.decode bytes with
  | some protobuf => F.fromProtobuf protobuf check
  | none => .error F.prostDecode

/-- Hash of the serialized data. Panics if there is none. -/
def hash (blake3 : List UInt8 → Hash) (a : α) : Option Hash :=
  match F.toWire prost a false with
  | .ok bytes => some (blake3 bytes)
  | .error _ => none

/-- A value can be read from exactly those messages that it is written to, where `fresh` says what
is set anew in reading. -/
def Lossless (fresh : α → Prop) : Prop :=
  ∀ m a check, F.fromProtobuf m check = .ok a ↔ F.toProtobuf a check = .ok m ∧ fresh a

end WireFormat

inductive HashError where
  | prostDecode
  | prostEncode
  | tryFromSlice
deriving DecidableEq

namespace Hash

def toProtobuf (hash : Hash) (_check : Bool) : Except HashError Proto.Hash :=
  .ok ⟨hash.bytes⟩

def fromProtobuf (proto : Proto.Hash) (_check : Bool) : Except HashError Hash :=
  if h : proto.hash.length = HASH_LEN then .ok ⟨proto.hash, h⟩ else .error .tryFromSlice

def wireFormat : WireFormat Hash Proto.Hash HashError where
  toProtobuf := toProtobuf
  fromProtobuf := fromProtobuf
  prostEncode := .prostEncode
  prostDecode := .prostDecode

end Hash

namespace Vertex

/-- The errors of a vertex: those of its checks, and those that its wire format adds. -/
inductive WireError where
  | vertex (error : VertexError)
  | hash (error : HashError)
  | prostDecode
  | prostEncode
deriving DecidableEq

def toProtobuf (vx : Vertex Hash) (check : Bool) : Except WireError Proto.Vertex := do
  if check then
    vx.sanityChecks.mapError .vertex
  let parents ← (vx.parents.mapM fun p => Hash.toProtobuf p check).mapError .hash
  let namespaceId ← (vx.namespaceId.toProtobuf check).mapError .hash
  let root ← (vx.root.toProtobuf check).mapError .hash
  return {
    version := vx.version
    height := vx.height
    parents := parents
    namespaceId := some namespaceId
    root := some root }

/-- The vertex of a message that arrives at the time `now`. -/
def fromProtobuf (now : Int) (vertex : Proto.Vertex) (check : Bool) :
    Except WireError (Vertex Hash) := do
  let parents ← (vertex.parents.mapM fun p => Hash.fromProtobuf p check).mapError .hash
  let some namespaceId := vertex.namespaceId
    | .error (.vertex (.missingField "namespace"))
  let namespaceId ← (Hash.fromProtobuf namespaceId check).mapError .hash
  let some root := vertex.root
    | .error (.vertex (.missingField "root"))
  let root ← (Hash.fromProtobuf root check).mapError .hash
  let vx : Vertex Hash := {
    version := vertex.version
    height := vertex.height
    parents := parents
    namespaceId := namespaceId
    root := root
    timestamp := now }
  if check then
    vx.sanityChecks.mapError .vertex
  return vx

def wireFormat (now : Int) : WireFormat (Vertex Hash) Proto.Vertex WireError where
  toProtobuf := toProtobuf
  fromProtobuf := fromProtobuf now
  prostEncode := .prostEncode
  prostDecode := .prostDecode

end Vertex

namespace P2p

inductive Request (H : Type) where
  | getVertex (hash : H)
  | getPreference (hash : H)
deriving DecidableEq

inductive ErrorCode where
  | unknown
  | notFound
deriving DecidableEq

inductive Response (H : Type) where
  | error (code : ErrorCode)
  | vertex (vx : Vertex H)
  | preference (preferred : Bool)
deriving DecidableEq

inductive BroadcastData (H : Type) where
  | vertex (vx : Vertex H)
deriving DecidableEq

/-- Errors of requests and responses. -/
inductive RequestError where
  | hash (error : HashError)
  | incompleteResponse
  | incompleteRequest
  | invalidErrorCode (code : Int)
  | prostDecode
  | prostEncode
  | vertex (error : Vertex.WireError)
deriving DecidableEq

inductive BroadcastError where
  | emptyBroadcast
  | prostDecode
  | prostEncode
  | vertex (error : Vertex.WireError)
deriving DecidableEq

namespace Request

def toProtobuf (request : Request Hash) (check : Bool) : Except RequestError Proto.Request := do
  match request with
  | getVertex hash =>
    let hash ← (hash.toProtobuf check).mapError .hash
    return ⟨some (.getVertex hash)⟩
  | getPreference hash =>
    let hash ← (hash.toProtobuf check).mapError .hash
    return ⟨some (.getPreference hash)⟩

def fromProtobuf (req : Proto.Request) (check : Bool) : Except RequestError (Request Hash) := do
  match req.requestData with
  | some (.getVertex message) =>
    return getVertex (← (Hash.fromProtobuf message check).mapError .hash)
  | some (.getPreference message) =>
    return getPreference (← (Hash.fromProtobuf message check).mapError .hash)
  | none => .error .incompleteRequest

def wireFormat : WireFormat (Request Hash) Proto.Request RequestError where
  toProtobuf := toProtobuf
  fromProtobuf := fromProtobuf
  prostEncode := .prostEncode
  prostDecode := .prostDecode

end Request

namespace ErrorCode

def toInt : ErrorCode → Int
  | unknown => 0
  | notFound => 1

def ofInt (value : Int) : Except RequestError ErrorCode :=
  if value = 0 then .ok unknown
  else if value = 1 then .ok notFound
  else .error (.invalidErrorCode value)

end ErrorCode

namespace Response

def toProtobuf (response : Response Hash) (check : Bool) : Except RequestError Proto.Response := do
  match response with
  | error code => return ⟨some (.error code.toInt)⟩
  | vertex vx =>
    let vx ← (vx.toProtobuf check).mapError .vertex
    return ⟨some (.vertex vx)⟩
  | preference preferred => return ⟨some (.preference ⟨preferred⟩)⟩

def fromProtobuf (now : Int) (resp : Proto.Response) (check : Bool) :
    Except RequestError (Response Hash) := do
  match resp.responseData with
  | some (.error code) => return error (← ErrorCode.ofInt code)
  | some (.vertex v) => return vertex (← (Vertex.fromProtobuf now v check).mapError .vertex)
  | some (.preference h) => return preference h.preferred
  | none => .error .incompleteResponse

def wireFormat (now : Int) : WireFormat (Response Hash) Proto.Response RequestError where
  toProtobuf := toProtobuf
  fromProtobuf := fromProtobuf now
  prostEncode := .prostEncode
  prostDecode := .prostDecode

end Response

namespace BroadcastData

def toProtobuf (data : BroadcastData Hash) (check : Bool) : Except BroadcastError Proto.Broadcast := do
  match data with
  | vertex vx =>
    let vx ← (vx.toProtobuf check).mapError .vertex
    return ⟨some vx⟩

def fromProtobuf (now : Int) (broadcast : Proto.Broadcast) (check : Bool) :
    Except BroadcastError (BroadcastData Hash) := do
  let some vx := broadcast.vertex
    | .error .emptyBroadcast
  return vertex (← (Vertex.fromProtobuf now vx check).mapError .vertex)

def wireFormat (now : Int) : WireFormat (BroadcastData Hash) Proto.Broadcast BroadcastError where
  toProtobuf := toProtobuf
  fromProtobuf := fromProtobuf now
  prostEncode := .prostEncode
  prostDecode := .prostDecode

end BroadcastData

end P2p

section Lossless

variable {now : Int}

theorem Hash.fromProtobuf_eq_ok (m : Proto.Hash) (hash : Hash) (check : Bool) :
    Hash.fromProtobuf m check = .ok hash ↔ hash.toProtobuf check = .ok m := by
  obtain ⟨bytes⟩ := m
  obtain ⟨bytes', hlen⟩ := hash
  unfold Hash.fromProtobuf Hash.toProtobuf
  constructor
  · intro h
    split at h
    · cases h
      rfl
    · cases h
  · intro h
    cases h
    exact dif_pos hlen

theorem Hash.lossless : Hash.wireFormat.Lossless fun _ => True := fun m hash check =>
  (Hash.fromProtobuf_eq_ok m hash check).trans (and_iff_left trivial).symm

namespace Vertex

/-- The vertex as it is first observed at that time. -/
def observe (now : Int) (vx : Vertex Hash) : Vertex Hash := { vx with timestamp := now }

/-- What a vertex is written to, field by field. -/
theorem toProtobuf_eq_ok (vx : Vertex Hash) (m : Proto.Vertex) (check : Bool) :
    vx.toProtobuf check = .ok m ↔ (check = true → vx.sanityChecks = .ok ()) ∧
      m.version = vx.version ∧ m.height = vx.height ∧
      (m.parents.mapM fun p => Hash.fromProtobuf p check) = .ok vx.parents ∧
      (∃ ns, m.namespaceId = some ns ∧ Hash.fromProtobuf ns check = .ok vx.namespaceId) ∧
      ∃ root, m.root = some root ∧ Hash.fromProtobuf root check = .ok vx.root := by
  obtain ⟨version, height, parents, ns, root⟩ := m
  have hparents := mapM_eq_ok_iff (fun p h => Hash.fromProtobuf_eq_ok p h check) parents vx.parents
  simp only [hparents, Hash.fromProtobuf_eq_ok]
  simp only [toProtobuf, Except.check_eq_ok, Except.bind_eq_ok, Except.mapError_eq_ok, pure,
    Except.pure, Except.ok.injEq, Proto.Vertex.mk.injEq]
  refine and_congr_right' ⟨?_, ?_⟩
  · rintro ⟨parents', hps, ns', hns, root', hroot, rfl, rfl, rfl, rfl, rfl⟩
    exact ⟨rfl, rfl, hps, ⟨ns', rfl, hns⟩, root', rfl, hroot⟩
  · rintro ⟨rfl, rfl, hps, ⟨ns', rfl, hns⟩, root', rfl, hroot⟩
    exact ⟨parents, hps, ns', hns, root', hroot, rfl, rfl, rfl, rfl, rfl⟩

theorem fromProtobuf_eq_ok (m : Proto.Vertex) (vx : Vertex Hash) (check : Bool) :
    fromProtobuf now m check = .ok vx ↔ vx.toProtobuf check = .ok m ∧ vx.observe now = vx := by
  rw [toProtobuf_eq_ok]
  obtain ⟨version, height, parents, ns, root⟩ := m
  obtain ⟨version', height', parents', ns', root', timestamp⟩ := vx
  -- a message that lacks one of the hashes is refused, and none such is written
  cases ns with
  | none => simp [fromProtobuf, Except.bind_eq_ok]
  | some ns =>
    cases root with
    | none => simp [fromProtobuf, Except.bind_eq_ok]
    | some root =>
      simp only [fromProtobuf, Except.check_eq_ok, Except.bind_eq_ok, Except.mapError_eq_ok, pure,
        Except.pure, Except.ok.injEq, Vertex.mk.injEq, observe, true_and]
      constructor
      · rintro ⟨_, hps, _, hns, _, hroot, hchecks, rfl, rfl, rfl, rfl, rfl, rfl⟩
        exact ⟨⟨hchecks, rfl, rfl, hps, ⟨ns, rfl, hns⟩, root, rfl, hroot⟩, rfl⟩
      · rintro ⟨⟨hchecks, rfl, rfl, hps, ⟨_, ⟨⟩, hns⟩, _, ⟨⟩, hroot⟩, rfl⟩
        exact ⟨parents', hps, ns', hns, root', hroot, hchecks, rfl, rfl, rfl, rfl, rfl, rfl⟩

theorem lossless : (wireFormat now).Lossless fun vx => vx.observe now = vx := fromProtobuf_eq_ok

end Vertex

namespace P2p

theorem Request.lossless : Request.wireFormat.Lossless fun _ => True := by
  intro ⟨data⟩ request check
  rw [and_true]
  show fromProtobuf ⟨data⟩ check = .ok request ↔ request.toProtobuf check = .ok ⟨data⟩
  cases request <;> rcases data with _ | m | m <;>
    simp [fromProtobuf, toProtobuf, Except.bind_eq_ok, Except.mapError_eq_ok, pure, Except.pure,
      Hash.fromProtobuf_eq_ok]

theorem ErrorCode.ofInt_eq_ok (value : Int) (code : ErrorCode) :
    ErrorCode.ofInt value = .ok code ↔ code.toInt = value := by
  unfold ofInt toInt
  cases code <;> grind

namespace Response

/-- The response with its vertex first observed at that time. -/
def observe (now : Int) : Response Hash → Response Hash
  | vertex vx => vertex (vx.observe now)
  | response => response

theorem lossless : (wireFormat now).Lossless fun response => response.observe now = response := by
  intro ⟨data⟩ response check
  show fromProtobuf now ⟨data⟩ check = .ok response ↔
    response.toProtobuf check = .ok ⟨data⟩ ∧ response.observe now = response
  have hpreferred (h : Proto.Preference) (preferred : Bool) :
      h.preferred = preferred ↔ ⟨preferred⟩ = h := by
    cases h
    rw [Proto.Preference.mk.injEq, eq_comm]
  cases response <;> rcases data with _ | code | v | h <;>
    simp [fromProtobuf, toProtobuf, Except.bind_eq_ok, Except.mapError_eq_ok, pure, Except.pure,
      observe, ErrorCode.ofInt_eq_ok, Vertex.fromProtobuf_eq_ok, hpreferred]

end Response

namespace BroadcastData

def observe (now : Int) : BroadcastData Hash → BroadcastData Hash
  | vertex vx => vertex (vx.observe now)

theorem lossless : (wireFormat now).Lossless fun data => data.observe now = data := by
  intro ⟨data⟩ ⟨vx⟩ check
  show fromProtobuf now ⟨data⟩ check = .ok (vertex vx) ↔
    toProtobuf (vertex vx) check = .ok ⟨data⟩ ∧ vertex (vx.observe now) = vertex vx
  cases data <;>
    simp [fromProtobuf, toProtobuf, Except.bind_eq_ok, Except.mapError_eq_ok, pure, Except.pure,
      Vertex.fromProtobuf_eq_ok]

end BroadcastData

end P2p

end Lossless

end Taurus
