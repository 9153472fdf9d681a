import Mathlib.Data.Nat.Digits.Defs
import Mathlib.Tactic.Common

/-! The wire format of protocol buffers: messages as sequences of tagged fields, in the order of
their numbers, with default values left out. -/

namespace Protobuf

abbrev Bytes := List UInt8

/-- The value at the start of the bytes, and the bytes after it. -/
abbrev Reader (α : Type) := Bytes → Option (α × Bytes)

/-- Digits in base 128, the least one first, as bytes: all but the last with the high bit set. -/
def continued : List Nat → Bytes
  | [] => [0]
  | [d] => [UInt8.ofNat d]
  | d :: ds => UInt8.ofNat (d + 128) :: continued ds

def varint (n : Nat) : Bytes := continued (Nat.digits 128 n)

def readVarint : Reader Nat
  | [] => none
  | b :: bytes =>
    if b.toNat < 128 then some (b.toNat, bytes)
    else (readVarint bytes).map fun r => (b.toNat - 128 + 128 * r.1, r.2)

theorem readVarint_continued (ds : List Nat) (hds : ∀ d ∈ ds, d < 128) (rest : Bytes) :
    readVarint (continued ds ++ rest) = some (Nat.ofDigits 128 ds, rest) := by
  have hbyte (n : Nat) (hn : n < 256) : (UInt8.ofNat n).toNat = n := by
    rw [UInt8.toNat_ofNat', Nat.mod_eq_of_lt hn]
  induction ds with
  | nil => rfl
  | cons d ds ih =>
    have hd : d < 128 := hds d List.mem_cons_self
    cases ds with
    | nil =>
      have hb := hbyte d (by omega)
      simp only [continued, List.singleton_append, readVarint, hb, if_pos hd, Nat.ofDigits_singleton]
    | cons e ds =>
      have hb := hbyte (d + 128) (by omega)
      have hrest := ih fun x hx => hds x (List.mem_cons_of_mem d hx)
      have hstep : continued (d :: e :: ds) = UInt8.ofNat (d + 128) :: continued (e :: ds) := rfl
      rw [hstep, List.cons_append, readVarint, hb, if_neg (by omega), hrest, Option.map_some,
        Nat.add_sub_cancel]
      rfl

theorem readVarint_varint (n : Nat) (rest : Bytes) :
    readVarint (varint n ++ rest) = some (n, rest) := by
  have hds : ∀ d ∈ Nat.digits 128 n, d < 128 := fun d hd => Nat.digits_lt_base (by omega) hd
  rw [varint, readVarint_continued _ hds, Nat.ofDigits_digits]

def lengthDelimited (bytes : Bytes) : Bytes := varint bytes.length ++ bytes

def readLengthDelimited : Reader Bytes := fun bytes => do
  let (n, rest) ← readVarint bytes
  if n ≤ rest.length then some (rest.take n, rest.drop n) else none

theorem readLengthDelimited_append (bytes rest : Bytes) :
    readLengthDelimited (lengthDelimited bytes ++ rest) = some (bytes, rest) := by
  simp [readLengthDelimited, lengthDelimited, readVarint_varint]

/-- A number, left out if it is zero. -/
def uintField (tag : UInt8) (n : Nat) : Bytes := if n = 0 then [] else tag :: varint n

/-- Byte strings or messages, one field each. -/
def repeatedField (tag : UInt8) (values : List Bytes) : Bytes :=
  values.flatMap fun bytes => tag :: lengthDelimited bytes

/-- The fields that the bytes start with have another tag. -/
def Skips (tag : UInt8) (bytes : Bytes) : Prop := bytes.head? ≠ some tag

section Skips

variable {tag t : UInt8} {rest : Bytes}

theorem skips_nil (tag : UInt8) : Skips tag [] := by simp [Skips]

theorem Skips.uintField (h : Skips tag rest) (ht : t ≠ tag) (n : Nat) :
    Skips tag (uintField t n ++ rest) := by
  unfold Protobuf.uintField
  split
  · exact h
  · simpa [Skips] using ht

theorem Skips.repeatedField (h : Skips tag rest) (ht : t ≠ tag) (values : List Bytes) :
    Skips tag (repeatedField t values ++ rest) := by
  cases values with
  | nil => exact h
  | cons bytes values => simpa [Skips, Protobuf.repeatedField] using ht

end Skips

def readUintField (tag : UInt8) : Reader Nat
  | [] => some (0, [])
  | t :: bytes => if t = tag then readVarint bytes else some (0, t :: bytes)

theorem readUintField_append (tag : UInt8) (n : Nat) {rest : Bytes} (h : Skips tag rest) :
    readUintField tag (uintField tag n ++ rest) = some (n, rest) := by
  unfold uintField
  split
  · next hn =>
    subst hn
    cases rest with
    | nil => rfl
    | cons t rest =>
      have ht : t ≠ tag := by simpa [Skips] using h
      rw [List.nil_append, readUintField, if_neg ht]
  · rw [List.cons_append, readUintField, if_pos rfl, readVarint_varint]

/-- Reads the fields with the tag, at most as many as the first argument says. -/
def readRepeatedLoop (tag : UInt8) : Nat → Reader (List Bytes)
  | 0, bytes => some ([], bytes)
  | fuel + 1, bytes =>
    if bytes.head? = some tag then do
      let (value, bytes) ← readLengthDelimited bytes.tail
      let (values, bytes) ← readRepeatedLoop tag fuel bytes
      some (value :: values, bytes)
    else some ([], bytes)

def readRepeatedField (tag : UInt8) : Reader (List Bytes) := fun bytes =>
  readRepeatedLoop tag bytes.length bytes

theorem readRepeatedLoop_append (tag : UInt8) (values : List Bytes) {rest : Bytes}
    (h : Skips tag rest) (fuel : Nat) (hfuel : values.length ≤ fuel) :
    readRepeatedLoop tag fuel (repeatedField tag values ++ rest) = some (values, rest) := by
  induction values generalizing fuel with
  | nil =>
    cases fuel with
    | zero => rfl
    | succ fuel => exact if_neg h
  | cons value values ih =>
    -- each turn reads one value
    obtain ⟨fuel, rfl⟩ : ∃ k, fuel = k + 1 := ⟨fuel - 1, by simp only [List.length_cons] at hfuel; omega⟩
    have hread := ih fuel (by simpa using hfuel)
    have hsplit : repeatedField tag (value :: values) ++ rest =
        tag :: (lengthDelimited value ++ (repeatedField tag values ++ rest)) := by
      simp [repeatedField]
    rw [hsplit, readRepeatedLoop, List.head?_cons, if_pos rfl, List.tail_cons,
      readLengthDelimited_append]
    simp only [Option.bind_eq_bind, Option.bind_some, hread]

theorem length_le_repeatedField (tag : UInt8) (values : List Bytes) :
    values.length ≤ (repeatedField tag values).length := by
  induction values with
  | nil => exact Nat.le_refl 0
  | cons value values ih =>
    simp only [repeatedField, List.flatMap_cons, List.length_append, List.length_cons] at ih ⊢
    omega

theorem readRepeatedField_append (tag : UInt8) (values : List Bytes) {rest : Bytes}
    (h : Skips tag rest) :
    readRepeatedField tag (repeatedField tag values ++ rest) = some (values, rest) := by
  refine readRepeatedLoop_append tag values h _ ?_
  rw [List.length_append]
  have hle := length_le_repeatedField tag values
  omega

end Protobuf
