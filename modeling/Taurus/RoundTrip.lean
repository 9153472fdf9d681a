import Mathlib.Data.Set.Function
import Taurus.Messages
import Taurus.Protobuf

namespace Taurus

section

variable {α M ε : Type} {now : Int}

namespace WireFormat

/-- Is every message that is accepted the one that is written from what is read? -/
def Reproduces (F : WireFormat α M ε) : Prop :=
  ∀ m a, F.fromProtobuf m true = .ok a → F.toProtobuf a true = .ok m

/-- Is the value written to a message that is read back as the other one? -/
def ReadsBack (F : WireFormat α M ε) (a a' : α) : Prop :=
  ∃ m, F.toProtobuf a true = .ok m ∧ F.fromProtobuf m true = .ok a'

theorem Lossless.reproduces {F : WireFormat α M ε} {fresh : α → Prop} (h : F.Lossless fresh) :
    F.Reproduces :=
  fun m a ha => ((h m a true).mp ha).1

theorem Lossless.readsBack {F : WireFormat α M ε} {fresh : α → Prop} (h : F.Lossless fresh)
    {a a' : α} {m : M} (ha : F.toProtobuf a true = .ok m)
    (hsame : F.toProtobuf a' true = F.toProtobuf a true) (hf : fresh a') : F.ReadsBack a a' :=
  ⟨m, ha, (h m a' true).mpr ⟨hsame.trans ha, hf⟩⟩

/-- What is written to a message and read back is written to the wire and read from there. -/
theorem ReadsBack.fromWire {F : WireFormat α M ε} {a a' : α} (h : F.ReadsBack a a')
    {prost : Prost M} (hprost : prost.Inverse) :
    ∃ bytes, F.toWire prost a true = .ok bytes ∧ F.fromWire prost bytes true = .ok a' := by
  obtain ⟨m, ha, ha'⟩ := h
  obtain ⟨bytes, henc, hdec⟩ := hprost m
  refine ⟨bytes, ?_, ?_⟩
  · rw [toWire, ha, Except.ok_bind, henc]
  · rw [WireFormat.fromWire, hdec]
    exact ha'

end WireFormat

namespace Vertex

theorem observe_sameWire (vx : Vertex Hash) : (vx.observe now).SameWire vx :=
  ⟨rfl, rfl, rfl, rfl, rfl⟩

theorem toProtobuf_ok (vx : Vertex Hash) (check : Bool)
    (h : check = true → vx.sanityChecks = .ok ()) : ∃ m, vx.toProtobuf check = .ok m := by
  have hparents : (vx.parents.mapM fun p => Hash.toProtobuf p check) =
      .ok (vx.parents.map fun p => ⟨p.bytes⟩) :=
    List.mapM_pure
  have hps := (mapM_eq_ok_iff (fun p h => Hash.fromProtobuf_eq_ok p h check) _ _).mpr hparents
  refine ⟨⟨vx.version, vx.height, vx.parents.map fun p => ⟨p.bytes⟩, some ⟨vx.namespaceId.bytes⟩,
    some ⟨vx.root.bytes⟩⟩, (toProtobuf_eq_ok vx _ check).mpr ⟨h, rfl, rfl, hps, ?_, ?_⟩⟩
  · exact ⟨_, rfl, (Hash.fromProtobuf_eq_ok _ vx.namespaceId check).mpr rfl⟩
  · exact ⟨_, rfl, (Hash.fromProtobuf_eq_ok _ vx.root check).mpr rfl⟩

/-- The message is written from serialized fields alone. -/
theorem SameWire.toProtobuf_eq {u v : Vertex Hash} (h : u.SameWire v) (check : Bool) :
    u.toProtobuf check = v.toProtobuf check := by
  unfold toProtobuf
  rw [h.sanityChecks_eq, h.1, h.2.1, h.2.2.1, h.2.2.2.1, h.2.2.2.2]

/-- The message tells the serialized fields. -/
theorem sameWire_of_toProtobuf {u v : Vertex Hash} {m : Proto.Vertex} {check : Bool}
    (hu : u.toProtobuf check = .ok m) (hv : v.toProtobuf check = .ok m) : u.SameWire v := by
  obtain ⟨_, hversion, hheight, hparents, ⟨ns, hns, hnamespaceId⟩, root, hr, hroot⟩ :=
    (toProtobuf_eq_ok u m check).mp hu
  obtain ⟨_, hversion', hheight', hparents', ⟨ns', hns', hnamespaceId'⟩, root', hr', hroot'⟩ :=
    (toProtobuf_eq_ok v m check).mp hv
  obtain rfl : ns = ns' := Option.some.inj (hns.symm.trans hns')
  obtain rfl : root = root' := Option.some.inj (hr.symm.trans hr')
  exact ⟨hversion.symm.trans hversion', hheight.symm.trans hheight',
    Except.ok.inj (hparents.symm.trans hparents'),
    Except.ok.inj (hnamespaceId.symm.trans hnamespaceId'), Except.ok.inj (hroot.symm.trans hroot')⟩

/-- A vertex that passes the checks is read back as it was, but for the time. -/
theorem readsBack_observe (vx : Vertex Hash) (h : vx.sanityChecks = .ok ()) :
    (wireFormat now).ReadsBack vx (vx.observe now) := by
  obtain ⟨m, hm⟩ := vx.toProtobuf_ok true fun _ => h
  exact lossless.readsBack hm (vx.observe_sameWire.toProtobuf_eq true) rfl

section Hash

variable {prost : Prost Proto.Vertex} (blake3 : List UInt8 → Hash)

/-- A vertex is always hashed, whether or not it passes the checks. -/
theorem hash_eq (now : Int) (hprost : prost.Inverse) (vx : Vertex Hash) :
    ∃ bytes, (wireFormat now).toWire prost vx false = .ok bytes ∧
      (wireFormat now).hash prost blake3 vx = some (blake3 bytes) := by
  obtain ⟨m, hm⟩ := vx.toProtobuf_ok false fun h => by cases h
  obtain ⟨bytes, hbytes, _⟩ := hprost m
  have hwire : (wireFormat now).toWire prost vx false = .ok bytes := by
    show (vx.toProtobuf false >>= _) = _
    rw [hm, Except.ok_bind, hbytes]
  exact ⟨bytes, hwire, by rw [WireFormat.hash, hwire]⟩

theorem SameWire.hash_eq {u v : Vertex Hash} (h : u.SameWire v) :
    (wireFormat now).hash prost blake3 u = (wireFormat now).hash prost blake3 v := by
  have hwire : (wireFormat now).toWire prost u false = (wireFormat now).toWire prost v false := by
    show (u.toProtobuf false >>= _) = (v.toProtobuf false >>= _)
    rw [h.toProtobuf_eq false]
  rw [WireFormat.hash, hwire, WireFormat.hash]

/-- Vertices that are written to the same bytes agree in what is written. -/
theorem sameWire_of_toWire (hprost : prost.Inverse) {u v : Vertex Hash} {bytes : List UInt8}
    (hu : (wireFormat now).toWire prost u false = .ok bytes)
    (hv : (wireFormat now).toWire prost v false = .ok bytes) : u.SameWire v := by
  -- the bytes decode to the message of either vertex
  have hdecoded (vx : Vertex Hash) (h : (wireFormat now).toWire prost vx false = .ok bytes) :
      ∃ m, vx.toProtobuf false = .ok m ∧ prost.decode bytes = some m := by
    obtain ⟨m, hm⟩ := vx.toProtobuf_ok false fun h => by cases h
    obtain ⟨bytes', henc, hdec⟩ := hprost m
    have hwire : (wireFormat now).toWire prost vx false = .ok bytes' := by
      show (vx.toProtobuf false >>= _) = _
      rw [hm, Except.ok_bind, henc]
    obtain rfl : bytes' = bytes := Except.ok.inj (hwire.symm.trans h)
    exact ⟨m, hm, hdec⟩
  obtain ⟨m, hm, hdec⟩ := hdecoded u hu
  obtain ⟨m', hm', hdec'⟩ := hdecoded v hv
  obtain rfl : m = m' := Option.some.inj (hdec.symm.trans hdec')
  exact sameWire_of_toProtobuf hm hm'

/-- Among vertices whose serializations `blake3` tells apart, the hash is that of the serialized
fields. -/
theorem hash_eq_iff (hprost : prost.Inverse) {vertices : Set (Vertex Hash)}
    (hblake3 : Set.InjOn blake3
      {bytes | ∃ vx ∈ vertices, (wireFormat now).toWire prost vx false = .ok bytes})
    {u v : Vertex Hash} (hu : u ∈ vertices) (hv : v ∈ vertices) :
    (wireFormat now).hash prost blake3 u = (wireFormat now).hash prost blake3 v ↔
      u.SameWire v := by
  refine ⟨fun h => ?_, SameWire.hash_eq blake3⟩
  obtain ⟨bytes, hwire, hhash⟩ := hash_eq blake3 now hprost u
  obtain ⟨bytes', hwire', hhash'⟩ := hash_eq blake3 now hprost v
  have heq : blake3 bytes = blake3 bytes' := Option.some.inj (hhash.symm.trans (h.trans hhash'))
  obtain rfl : bytes = bytes' := hblake3 ⟨u, hu, hwire⟩ ⟨v, hv, hwire'⟩ heq
  exact sameWire_of_toWire hprost hwire hwire'

/-- The hash of the wire format is one that the graph can be built on. -/
theorem collisionFree_of_injOn (hprost : prost.Inverse) {vertices : Set (Vertex Hash)}
    (hblake3 : Set.InjOn blake3
      {bytes | ∃ vx ∈ vertices, (wireFormat now).toWire prost vx false = .ok bytes})
    {hash : Vertex Hash → Hash}
    (hhash : ∀ vx, (wireFormat now).hash prost blake3 vx = some (hash vx)) :
    CollisionFree hash vertices := by
  intro u hu v hv h
  rw [← hash_eq_iff blake3 hprost hblake3 hu hv, hhash u, hhash v, h]

end Hash

end Vertex

namespace P2p

theorem Request.readsBack (request : Request Hash) : Request.wireFormat.ReadsBack request request := by
  cases request with
  | getVertex hash => exact Request.lossless.readsBack rfl rfl trivial
  | getPreference hash => exact Request.lossless.readsBack rfl rfl trivial

theorem Response.readsBack_observe (response : Response Hash)
    (h : ∀ vx, response = vertex vx → vx.sanityChecks = .ok ()) :
    (wireFormat now).ReadsBack response (response.observe now) := by
  cases response with
  | error code => exact lossless.readsBack rfl rfl rfl
  | preference preferred => exact lossless.readsBack rfl rfl rfl
  | vertex vx =>
    obtain ⟨m, hm⟩ := vx.toProtobuf_ok true fun _ => h vx rfl
    have hsent : toProtobuf (vertex vx) true = .ok ⟨some (.vertex m)⟩ := by
      rw [toProtobuf, hm]
      rfl
    have hsame : toProtobuf (vertex (vx.observe now)) true = toProtobuf (vertex vx) true := by
      rw [toProtobuf, vx.observe_sameWire.toProtobuf_eq true, toProtobuf]
    exact lossless.readsBack hsent hsame rfl

theorem BroadcastData.readsBack_observe (data : BroadcastData Hash)
    (h : ∀ vx, data = vertex vx → vx.sanityChecks = .ok ()) :
    (wireFormat now).ReadsBack data (data.observe now) := by
  obtain ⟨vx⟩ := data
  obtain ⟨m, hm⟩ := vx.toProtobuf_ok true fun _ => h vx rfl
  have hsent : toProtobuf (vertex vx) true = .ok ⟨some m⟩ := by
    rw [toProtobuf, hm]
    rfl
  have hsame : toProtobuf (vertex (vx.observe now)) true = toProtobuf (vertex vx) true := by
    rw [toProtobuf, vx.observe_sameWire.toProtobuf_eq true, toProtobuf]
  exact lossless.readsBack hsent hsame rfl

end P2p

end

/-! The encoding of a vertex, field by field, and two vertices that are sent in it. -/

namespace Proto

open Protobuf

def Hash.encode (m : Hash) : Bytes :=
  if m.hash = [] then [] else repeatedField 0x0a [m.hash]

/-- Of several values of a field, the last one counts. -/
def Hash.decode (bytes : Bytes) : Option Hash := do
  let (values, bytes) ← readRepeatedField 0x0a bytes
  if bytes = [] then some ⟨values.getLast?.getD []⟩ else none

def Vertex.encode (m : Vertex) : Bytes :=
  uintField 0x08 m.version ++ (uintField 0x10 m.height ++
    (repeatedField 0x1a (m.parents.map Hash.encode) ++
      (repeatedField 0x22 (m.namespaceId.map Hash.encode).toList ++
        (repeatedField 0x2a (m.root.map Hash.encode).toList ++ []))))

def Vertex.decode (bytes : Bytes) : Option Vertex := do
  let (version, bytes) ← readUintField 0x08 bytes
  let (height, bytes) ← readUintField 0x10 bytes
  let (parents, bytes) ← readRepeatedField 0x1a bytes
  let (namespaceIds, bytes) ← readRepeatedField 0x22 bytes
  let (roots, bytes) ← readRepeatedField 0x2a bytes
  if bytes ≠ [] then none else
    let parents ← parents.mapM Hash.decode
    let namespaceIds ← namespaceIds.mapM Hash.decode
    let roots ← roots.mapM Hash.decode
    some ⟨version, height, parents, namespaceIds.getLast?, roots.getLast?⟩

theorem Hash.decode_encode (m : Hash) : Hash.decode m.encode = some m := by
  obtain ⟨bytes⟩ := m
  unfold encode
  split
  · next h =>
    have hempty : bytes = [] := h
    subst hempty
    rfl
  · have hread := readRepeatedField_append 0x0a [bytes] (skips_nil 0x0a)
    rw [List.append_nil] at hread
    simp [decode, hread]

theorem Hash.mapM_decode (l : List Hash) : (l.map encode).mapM decode = some l := by
  induction l with
  | nil => rfl
  | cons m l ih => simp [List.mapM_cons, Hash.decode_encode, ih]

theorem Vertex.decode_encode (m : Vertex) : Vertex.decode m.encode = some m := by
  obtain ⟨version, height, parents, ns, root⟩ := m
  -- a reader stops where the fields of the next tag begin
  have hroots (tag : UInt8) (h : 0x2a ≠ tag) :=
    (skips_nil tag).repeatedField h (root.map Hash.encode).toList
  have hnss (tag : UInt8) (h : 0x22 ≠ tag) (h' : 0x2a ≠ tag) :=
    (hroots tag h').repeatedField h (ns.map Hash.encode).toList
  have hparents (tag : UInt8) (h : 0x1a ≠ tag) (h' : 0x22 ≠ tag) (h'' : 0x2a ≠ tag) :=
    (hnss tag h' h'').repeatedField h (parents.map Hash.encode)
  have hversion := readUintField_append 0x08 version
    ((hparents 0x08 (by decide) (by decide) (by decide)).uintField (t := 0x10) (by decide) height)
  have hheight := readUintField_append 0x10 height
    (hparents 0x10 (by decide) (by decide) (by decide))
  have hps := readRepeatedField_append 0x1a (parents.map Hash.encode)
    (hnss 0x1a (by decide) (by decide))
  have hns := readRepeatedField_append 0x22 (ns.map Hash.encode).toList
    (hroots 0x22 (by decide))
  have hroot := readRepeatedField_append 0x2a (root.map Hash.encode).toList (skips_nil 0x2a)
  have hoption (o : Option Hash) : (o.map Hash.encode).toList.mapM Hash.decode = some o.toList := by
    rw [← Hash.mapM_decode o.toList]
    cases o <;> rfl
  have hlast (o : Option Hash) : o.toList.getLast? = o := by cases o <;> rfl
  simp only [decode, encode, hversion, hheight, hps, hns, hroot, Option.bind_eq_bind,
    Option.bind_some, ne_eq, not_true_eq_false, if_false, Hash.mapM_decode, hoption, hlast]

/-- The encoding, as the one that generated messages come with. -/
def Vertex.prost : Prost Vertex where
  encode m := some m.encode
  decode := decode

theorem Vertex.prost_inverse : prost.Inverse := fun m => ⟨m.encode, rfl, m.decode_encode⟩

end Proto

/-! Two vertices that are sent in this encoding, and their hashes. -/

namespace Sent

/-- The namespace of the empty name. -/
def nullspaceId : Hash where
  bytes := [175, 19, 73, 185, 245, 249, 161, 166, 160, 64, 77, 234, 54, 220, 201, 73, 155, 203,
    37, 201, 173, 193, 18, 183, 204, 154, 147, 202, 228, 31, 50, 98]
  length_eq := rfl

def helloWorld : Hash where
  bytes := [40, 138, 134, 167, 159, 32, 163, 214, 220, 205, 202, 119, 19, 190, 174, 209, 120, 121,
    130, 150, 189, 250, 121, 19, 250, 42, 98, 217, 114, 123, 248, 248]
  length_eq := rfl

def genesisHash : Hash where
  bytes := [235, 53, 204, 156, 40, 239, 212, 12, 67, 140, 84, 247, 83, 36, 152, 196, 226, 188,
    100, 57, 85, 50, 68, 104, 162, 253, 89, 232, 45, 31, 239, 238]
  length_eq := rfl

def childHash : Hash where
  bytes := [54, 102, 151, 77, 78, 24, 72, 28, 131, 192, 163, 13, 81, 192, 24, 167, 27, 147, 233,
    16, 145, 75, 114, 212, 183, 30, 237, 26, 199, 200, 241, 203]
  length_eq := rfl

def genesis : Vertex Hash where
  version := 1
  height := 0
  parents := []
  namespaceId := ⟨List.replicate HASH_LEN 0, rfl⟩
  root := ⟨List.replicate HASH_LEN 0, rfl⟩
  timestamp := 1424301369

def child : Vertex Hash where
  version := 1
  height := 1
  parents := [genesisHash]
  namespaceId := nullspaceId
  root := helloWorld
  timestamp := 1424301370

def bytesOf (vx : Vertex Hash) : List UInt8 :=
  Proto.Vertex.encode ⟨vx.version, vx.height, vx.parents.map fun p => ⟨p.bytes⟩,
    some ⟨vx.namespaceId.bytes⟩, some ⟨vx.root.bytes⟩⟩

/-- The hash function, where it is needed. -/
def blake3 (bytes : List UInt8) : Hash :=
  if bytes = bytesOf genesis then genesisHash else childHash

theorem blake3_injOn : Set.InjOn blake3 {bytes | ∃ vx ∈ ({genesis, child} : Set (Vertex Hash)),
    (Vertex.wireFormat 0).toWire Proto.Vertex.prost vx false = .ok bytes} := by
  have hne : bytesOf child ≠ bytesOf genesis := by decide
  have hdiff : blake3 (bytesOf genesis) ≠ blake3 (bytesOf child) := by
    rw [blake3, if_pos rfl, blake3, if_neg hne]
    decide
  have hsent (bytes : List UInt8) (h : ∃ vx ∈ ({genesis, child} : Set (Vertex Hash)),
      (Vertex.wireFormat 0).toWire Proto.Vertex.prost vx false = .ok bytes) :
      bytes = bytesOf genesis ∨ bytes = bytesOf child := by
    obtain ⟨vx, rfl | rfl, h⟩ := h
    · exact Or.inl (Except.ok.inj h).symm
    · exact Or.inr (Except.ok.inj h).symm
  intro a ha b hb heq
  rcases hsent a ha with rfl | rfl <;> rcases hsent b hb with rfl | rfl
  · rfl
  · exact absurd heq hdiff
  · exact absurd heq.symm hdiff
  · rfl

end Sent

/-- Everything that is sent arrives as it was, but for the time at which a vertex is first
observed, and nothing arrives that would be sent in another way. -/
theorem wire_round_trip (blake3 : List UInt8 → Hash) (prost : Prost Proto.Vertex)
    (hprost : prost.Inverse) (now : Int) (vertices : Set (Vertex Hash))
    (hblake3 : Set.InjOn blake3
      {bytes | ∃ vx ∈ vertices, (Vertex.wireFormat now).toWire prost vx false = .ok bytes}) :
    (∀ vx : Vertex Hash, vx.sanityChecks = .ok () →
      (Vertex.wireFormat now).ReadsBack vx (vx.observe now) ∧
      (∃ bytes, (Vertex.wireFormat now).toWire prost vx true = .ok bytes ∧
        (Vertex.wireFormat now).fromWire prost bytes true = .ok (vx.observe now)) ∧
      ∃ digest, (Vertex.wireFormat now).hash prost blake3 vx = some digest ∧
        (Vertex.wireFormat now).hash prost blake3 (vx.observe now) = some digest) ∧
    (∀ request, P2p.Request.wireFormat.ReadsBack request request) ∧
    (∀ response, (∀ vx, response = .vertex vx → vx.sanityChecks = .ok ()) →
      (P2p.Response.wireFormat now).ReadsBack response (response.observe now)) ∧
    (∀ data, (∀ vx, data = .vertex vx → vx.sanityChecks = .ok ()) →
      (P2p.BroadcastData.wireFormat now).ReadsBack data (data.observe now)) ∧
    (Vertex.wireFormat now).Reproduces ∧ P2p.Request.wireFormat.Reproduces ∧
    (P2p.Response.wireFormat now).Reproduces ∧ (P2p.BroadcastData.wireFormat now).Reproduces ∧
    ∀ u ∈ vertices, ∀ v ∈ vertices,
      (Vertex.wireFormat now).hash prost blake3 u = (Vertex.wireFormat now).hash prost blake3 v ↔
        u.SameWire v := by
  refine ⟨fun vx h => ?_, P2p.Request.readsBack, P2p.Response.readsBack_observe,
    P2p.BroadcastData.readsBack_observe, Vertex.lossless.reproduces,
    P2p.Request.lossless.reproduces, P2p.Response.lossless.reproduces,
    P2p.BroadcastData.lossless.reproduces, fun u hu v hv => ?_⟩
  · have hread : (Vertex.wireFormat now).ReadsBack vx (vx.observe now) := vx.readsBack_observe h
    obtain ⟨bytes, _, hhash⟩ := Vertex.hash_eq blake3 now hprost vx
    exact ⟨hread, hread.fromWire hprost, blake3 bytes, hhash,
      (vx.observe_sameWire.hash_eq blake3).trans hhash⟩
  · exact Vertex.hash_eq_iff blake3 hprost hblake3 hu hv

theorem wire_round_trip_sent :
    (∃ bytes, (Vertex.wireFormat 0).toWire Proto.Vertex.prost Sent.child true = .ok bytes ∧
      (Vertex.wireFormat 0).fromWire Proto.Vertex.prost bytes true =
        .ok (Sent.child.observe 0)) ∧
    ((Vertex.wireFormat 0).hash Proto.Vertex.prost Sent.blake3 Sent.genesis =
      (Vertex.wireFormat 0).hash Proto.Vertex.prost Sent.blake3 Sent.child ↔
        Sent.genesis.SameWire Sent.child) := by
  have h := wire_round_trip Sent.blake3 Proto.Vertex.prost Proto.Vertex.prost_inverse 0
    {Sent.genesis, Sent.child} Sent.blake3_injOn
  obtain ⟨hvertex, _, _, _, _, _, _, _, hhash⟩ := h
  obtain ⟨_, hread, _⟩ := hvertex Sent.child rfl
  exact ⟨hread, hhash Sent.genesis (Or.inl rfl) Sent.child (Or.inr rfl)⟩

end Taurus
