/-
Keys of the store and the order they are kept in: `db.h` and the comparator of
`db.cpp`.

Every record lives in one LMDB table.  Its key is the 64-byte `custom_key`, which
serves three families: META counters, the UNIQUE index, and the datoms, which are
written once in `EATV` order and, for schema attributes, once more in `AETV`.

The machine integers are `Int` and `Nat`; `toInt32` and `toInt64` stand where the
C code narrows.  The union `value` is its 32 bytes, and the member `i` is read off
the first eight of them.
-/
import Mathlib.Data.List.Lex
import Mathlib.Tactic

namespace Nstore

/-- What is left of a number returned as `int`. -/
def toInt32 (x : Int) : Int := x.bmod (2 ^ 32)

/-- What is left of a number kept in an `int64_t`. -/
def toInt64 (x : Int) : Int := x.bmod (2 ^ 64)

abbrev Bytes := List UInt8

/-! ### The value union -/

/-- The 32 bytes of `union value`. -/
structure Value where
  bytes : Bytes
  size : bytes.length = 32
deriving DecidableEq, Repr

/-- `n` little-endian bytes of a number. -/
def leBytes : Nat → Nat → Bytes
  | 0, _ => []
  | n + 1, x => UInt8.ofNat (x % 256) :: leBytes n (x / 256)

/-- The number little-endian bytes spell. -/
def leNat : Bytes → Nat
  | [] => 0
  | b :: bs => b.toNat + 256 * leNat bs

theorem length_leBytes : ∀ n x, (leBytes n x).length = n := by
  intro n
  induction n with
  | zero => intro x; rfl
  | succ n ih => intro x; simp [leBytes, ih]

namespace Value

/-- Bytes copied into a zeroed union: `memcpy` and `strncpy` both leave this. -/
def ofBytes (s : Bytes) : Value :=
  ⟨(s ++ List.replicate 32 0).take 32, by simp⟩

/-- `v.i`, as the first eight bytes spell it. -/
def i (v : Value) : Int := toInt64 (leNat (v.bytes.take 8))

/-- `v.i = x`: the other 24 bytes stay as they were. -/
def setI (v : Value) (x : Int) : Value :=
  ⟨leBytes 8 (x % 2 ^ 64).toNat ++ v.bytes.drop 8, by
    simp [length_leBytes, v.size]⟩

/-- The union of a key that was zeroed before use. -/
def zero : Value := ofBytes []

end Value

/-! ### Key kinds and sort orders -/

/-- The `KEY_*` enumeration. -/
inductive KeyType where
  | keyMeta
  | keyUnique
  | keyTxLog
  | keyMinSentinel
  | keyInteger
  | keyBlob
  | keyMaxSentinel
deriving DecidableEq, Repr

def KeyType.code : KeyType → Int
  | .keyMeta => 0
  | .keyUnique => 1
  | .keyTxLog => 2
  | .keyMinSentinel => 3
  | .keyInteger => 4
  | .keyBlob => 5
  | .keyMaxSentinel => 6

/-- `enum sorting`. -/
inductive Sorting where
  | E
  | A
  | V
  | T
deriving DecidableEq, Repr

def Sorting.code : Sorting → Nat
  | .E => 0
  | .A => 1
  | .V => 2
  | .T => 3

/-- `sorting & 3`, as a case of the switch. -/
def Sorting.ofBits (sorting : Nat) : Sorting :=
  match sorting % 4 with
  | 0 => .E
  | 1 => .A
  | 2 => .V
  | _ => .T

/-- `MAKE_SORT`. -/
def makeSort (s1 s2 s3 s4 : Sorting) : Nat :=
  s1.code + 4 * s2.code + 16 * s3.code + 64 * s4.code

def sortEATV : Nat := makeSort .E .A .T .V
def sortAETV : Nat := makeSort .A .E .T .V

/-- `struct custom_key`. -/
structure CustomKey where
  ns : Nat
  type : KeyType
  sort : Nat
  /-- `<= 0`: minus the padding of the data item; `> 0`: size of the value plus one. -/
  pad : Int
  e : Int
  a : Int
  t : Int
  v : Value
deriving DecidableEq, Repr

/-- `custom_key ck = {0}`. -/
def CustomKey.zeroed : CustomKey :=
  { ns := 0, type := .keyMeta, sort := 0, pad := 0, e := 0, a := 0, t := 0, v := .zero }

/-! ### The base facts of `db.h` -/

def dbIdent : Int := 1
def dbType : Int := 2
def dbCardinality : Int := 3
def dbUnique : Int := 4
def dbTypeValue : Int := 5
def dbTypeRef : Int := 6
def dbCardinalityOne : Int := 7
def dbCardinalityMany : Int := 8
def dbUniqueNo : Int := 9
def dbUniqueYes : Int := 10
def dbInitialId : Int := 11

/-! ### The comparator -/

/--
`memcmp` on two blocks of one size.  The standard fixes only the sign of the
result; the difference of the first two bytes that differ is what libc returns.
-/
def memcmp : Bytes → Bytes → Int
  | x :: xs, y :: ys => if x = y then memcmp xs ys else (x.toNat : Int) - y.toNat
  | _, _ => 0

/-- The `SORT_V` case: type first, then the value as its type has it. -/
def compareValue (cka ckb : CustomKey) : Int :=
  let cmp := cka.type.code - ckb.type.code
  if cmp ≠ 0 then toInt32 cmp
  else match cka.type with
    | .keyInteger => toInt64 (cka.v.i - ckb.v.i)
    | .keyBlob =>
        let cmp := cka.pad - ckb.pad
        if cmp ≠ 0 then toInt32 cmp else memcmp cka.v.bytes ckb.v.bytes
    | _ => 0

/-- One round of the loop over the bits of `sort`. -/
def compareField (cka ckb : CustomKey) : Sorting → Int
  | .E => toInt64 (cka.e - ckb.e)
  | .A => toInt64 (cka.a - ckb.a)
  | .T => toInt64 (cka.t - ckb.t)
  | .V => compareValue cka ckb

/-- `for (int i = 0; i < 4; i++)`, with `n` rounds to go. -/
def compareFields (cka ckb : CustomKey) : Nat → Nat → Int
  | 0, _ => 0
  | n + 1, sorting =>
      let cmp := compareField cka ckb (Sorting.ofBits sorting)
      if cmp ≠ 0 then toInt32 cmp else compareFields cka ckb n (sorting / 4)

/-- What both kinds of datom go through once neither key is an index key. -/
def compareDatom (cka ckb : CustomKey) : Int :=
  let cmp : Int := (cka.sort : Int) - ckb.sort
  if cmp ≠ 0 then toInt32 cmp else compareFields cka ckb 4 cka.sort

/-- `custom_key_compare`. -/
def customKeyCompare (cka ckb : CustomKey) : Int :=
  -- `ns` is unsigned: the difference wraps at 32 bits before it is widened
  let cmp : Int := ((cka.ns : Int) - ckb.ns) % 2 ^ 32
  if cmp ≠ 0 then toInt32 cmp
  else if cka.type.code < KeyType.keyMinSentinel.code ∨ ckb.type.code < KeyType.keyMinSentinel.code then
    let cmp := cka.type.code - ckb.type.code
    if cmp ≠ 0 then toInt32 cmp
    else match cka.type with
      | .keyMeta => toInt32 (toInt64 (cka.e - ckb.e))
      | .keyUnique =>
          let cmp := toInt64 (cka.a - ckb.a)
          if cmp ≠ 0 then toInt32 cmp else memcmp cka.v.bytes ckb.v.bytes
      | .keyTxLog => toInt32 (toInt64 (cka.t - ckb.t))
      | _ => compareDatom cka ckb
  else compareDatom cka ckb

end Nstore
