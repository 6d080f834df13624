/-
The string codec of `handle_transact` in the machine's own integers.

A string length is `unsigned`, the pad of a key `int16_t` and the size of a data item
`size_t`.  The pad is computed unsigned and cut to 16 bits, then subtracted from one
size where the item is reserved and added to another where it is read back.  `Encoded`
and `decode` say the same in unbounded integers.
-/
import Nstore.Handler

namespace Nstore

/-- What `handle_transact` puts into `ck.pad`, `ck.v` and `val` for a string. -/
structure CodedString where
  pad : Int16
  payload : Value
  data : Bytes
deriving DecidableEq, Repr

/-- `ck.pad` of a string of more than 32 bytes. -/
def externalPad (vlen : UInt32) : Int16 :=
  if vlen &&& 7 = 0 then 0 else (-(8 - (vlen &&& 7))).toUInt16.toInt16

/-- `ck.pad = vlen+1`. -/
def inlinePad (vlen : UInt32) : Int16 := (vlen + 1).toUInt16.toInt16

def codeString (sha256 : Bytes → Value) (v : Bytes) : CodedString :=
  let vlen := UInt32.ofNat v.length
  if vlen > 32 then { pad := externalPad vlen, payload := sha256 v, data := v }
  else { pad := inlinePad vlen, payload := .ofBytes v, data := [] }

/-- A pad where a `size_t` is expected. -/
def padSize (pad : Int16) : UInt64 := pad.toInt64.toUInt64

namespace CodedString

/-- `v.mv_size = data->mv_size - key->pad`. -/
def size (c : CodedString) : UInt64 := UInt64.ofNat c.data.length - padSize c.pad

/--
The item that is stored: for a negative pad it is reserved and the data copied to its
front, whatever stands after it; else it is the data.
-/
def StoredAs (c : CodedString) (item : Bytes) : Prop :=
  if c.pad < 0 then item.length = c.size.toNat ∧ c.data <+: item else item = c.data

instance (c : CodedString) (item : Bytes) : Decidable (c.StoredAs item) :=
  inferInstanceAs (Decidable
    (if c.pad < 0 then item.length = c.size.toNat ∧ c.data <+: item else item = c.data))

end CodedString

/-- The string both readers make of a key and its item. -/
def readString (pad : Int16) (v : Value) (item : Bytes) : Bytes :=
  if 0 < pad then v.bytes.take (pad.toInt32 - 1).toInt64.toUInt64.toNat
  else item.take (UInt64.ofNat item.length + padSize pad).toNat

end Nstore
