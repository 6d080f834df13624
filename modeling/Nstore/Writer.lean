/-
The text of a reply: RapidJSON's `GenericValue`, `itoa` and `Writer`, and the
documents that `handler.cpp` builds.

`Accept` walks a value and tells the writer what it meets.  The writer keeps a level
for every array and object that is open, with the number of values written there, and
from it knows whether a comma, a colon or nothing comes before the next.

A value has a type of doubles for parameter.  The handlers build none, so what they
write is a value over `Empty`, and the text of a double is left out.
-/
import Nstore.Session

namespace Nstore

/-! ### Values -/

/-- A JSON value; the members of an object stay in the order they were added in. -/
inductive GenericValue (δ : Type) where
  | null
  | bool (b : Bool)
  /-- A number kept as a 64-bit integer, signed or unsigned. -/
  | int (i : Int)
  | double (d : δ)
  | string (s : Bytes)
  | array (xs : List (GenericValue δ))
  | object (ms : List (Bytes × GenericValue δ))

namespace GenericValue

variable {δ : Type}

abbrev Member (δ : Type) := Bytes × GenericValue δ

def addMember (name : Bytes) (v : GenericValue δ) (ms : List (Member δ)) : List (Member δ) :=
  ms ++ [(name, v)]

/-- `RemoveMember`: the last member moves to the place of the one that goes. -/
def removeMember (name : Bytes) (ms : List (Member δ)) : List (Member δ) :=
  match ms.findIdx? (·.1 = name), ms.getLast? with
  | some i, some last => (ms.set i last).dropLast
  | _, _ => ms

end GenericValue

/-! ### Integers -/

namespace Itoa

/-- `cDigitsLut`: the two digits of every number below 100. -/
def digitsLut : Bytes :=
  ascii "00010203040506070809" ++ ascii "10111213141516171819" ++
  ascii "20212223242526272829" ++ ascii "30313233343536373839" ++
  ascii "40414243444546474849" ++ ascii "50515253545556575859" ++
  ascii "60616263646566676869" ++ ascii "70717273747576777879" ++
  ascii "80818283848586878889" ++ ascii "90919293949596979899"

def lut (i : Nat) : UInt8 := digitsLut.getD i 0

/-- `if (c) *buffer++ = d;` -/
def putIf (c : Prop) [Decidable c] (d : UInt8) : Bytes := if c then [d] else []

/-- `static_cast<char>('0' + static_cast<char>(a))` -/
def digit (a : Nat) : UInt8 := UInt8.ofNat (48 + a)

def u32toa (value : Nat) : Bytes :=
  if value < 10000 then
    let d1 := value / 100 * 2
    let d2 := value % 100 * 2
    putIf (value ≥ 1000) (lut d1) ++ putIf (value ≥ 100) (lut (d1 + 1)) ++
      putIf (value ≥ 10) (lut d2) ++ [lut (d2 + 1)]
  else if value < 100000000 then
    let b := value / 10000
    let c := value % 10000
    let d1 := b / 100 * 2
    let d2 := b % 100 * 2
    let d3 := c / 100 * 2
    let d4 := c % 100 * 2
    putIf (value ≥ 10000000) (lut d1) ++ putIf (value ≥ 1000000) (lut (d1 + 1)) ++
      putIf (value ≥ 100000) (lut d2) ++
      [lut (d2 + 1), lut d3, lut (d3 + 1), lut d4, lut (d4 + 1)]
  else
    let a := value / 100000000
    let value := value % 100000000
    let b := value / 10000
    let c := value % 10000
    let d1 := b / 100 * 2
    let d2 := b % 100 * 2
    let d3 := c / 100 * 2
    let d4 := c % 100 * 2
    (if a ≥ 10 then [lut (a * 2), lut (a * 2 + 1)] else [digit a]) ++
      [lut d1, lut (d1 + 1), lut d2, lut (d2 + 1), lut d3, lut (d3 + 1), lut d4, lut (d4 + 1)]

def i32toa (value : Int) : Bytes :=
  if value < 0 then 45 :: u32toa value.natAbs else u32toa value.toNat

def kTen8 : Nat := 100000000
def kTen9 : Nat := kTen8 * 10
def kTen10 : Nat := kTen8 * 100
def kTen11 : Nat := kTen8 * 1000
def kTen12 : Nat := kTen8 * 10000
def kTen13 : Nat := kTen8 * 100000
def kTen14 : Nat := kTen8 * 1000000
def kTen15 : Nat := kTen8 * 10000000
def kTen16 : Nat := kTen8 * kTen8

/-- The sixteen digits of the last two branches, the first eight from `v0`. -/
def eightDigits (v : Nat) : Bytes :=
  let b := v / 10000
  let c := v % 10000
  let d1 := b / 100 * 2
  let d2 := b % 100 * 2
  let d3 := c / 100 * 2
  let d4 := c % 100 * 2
  [lut d1, lut (d1 + 1), lut d2, lut (d2 + 1), lut d3, lut (d3 + 1), lut d4, lut (d4 + 1)]

def u64toa (value : Nat) : Bytes :=
  if value < kTen8 then
    if value < 10000 then
      let d1 := value / 100 * 2
      let d2 := value % 100 * 2
      putIf (value ≥ 1000) (lut d1) ++ putIf (value ≥ 100) (lut (d1 + 1)) ++
        putIf (value ≥ 10) (lut d2) ++ [lut (d2 + 1)]
    else
      let b := value / 10000
      let c := value % 10000
      let d1 := b / 100 * 2
      let d2 := b % 100 * 2
      let d3 := c / 100 * 2
      let d4 := c % 100 * 2
      putIf (value ≥ 10000000) (lut d1) ++ putIf (value ≥ 1000000) (lut (d1 + 1)) ++
        putIf (value ≥ 100000) (lut d2) ++
        [lut (d2 + 1), lut d3, lut (d3 + 1), lut d4, lut (d4 + 1)]
  else if value < kTen16 then
    let v0 := value / kTen8
    let v1 := value % kTen8
    let b0 := v0 / 10000
    let c0 := v0 % 10000
    let d1 := b0 / 100 * 2
    let d2 := b0 % 100 * 2
    let d3 := c0 / 100 * 2
    let d4 := c0 % 100 * 2
    putIf (value ≥ kTen15) (lut d1) ++ putIf (value ≥ kTen14) (lut (d1 + 1)) ++
      putIf (value ≥ kTen13) (lut d2) ++ putIf (value ≥ kTen12) (lut (d2 + 1)) ++
      putIf (value ≥ kTen11) (lut d3) ++ putIf (value ≥ kTen10) (lut (d3 + 1)) ++
      putIf (value ≥ kTen9) (lut d4) ++ putIf (value ≥ kTen8) (lut (d4 + 1)) ++ eightDigits v1
  else
    let a := value / kTen16
    let value := value % kTen16
    let head :=
      if a < 10 then [digit a]
      else if a < 100 then [lut (a * 2), lut (a * 2 + 1)]
      else if a < 1000 then [digit (a / 100), lut (a % 100 * 2), lut (a % 100 * 2 + 1)]
      else [lut (a / 100 * 2), lut (a / 100 * 2 + 1), lut (a % 100 * 2), lut (a % 100 * 2 + 1)]
    head ++ eightDigits (value / kTen8) ++ eightDigits (value % kTen8)

def i64toa (value : Int) : Bytes :=
  if value < 0 then 45 :: u64toa value.natAbs else u64toa value.toNat

end Itoa

/-! ### The writer -/

/-- An array or object that is open. -/
structure Level where
  valueCount : Nat
  inArray : Bool
deriving DecidableEq, Repr

structure Writer where
  out : Bytes
  /-- The innermost level first. -/
  levels : List Level
deriving DecidableEq, Repr

namespace Writer

def new : Writer := { out := [], levels := [] }

def put (bs : Bytes) (w : Writer) : Writer := { w with out := w.out ++ bs }

/-- `Prefix`: what stands before a value, which is then counted. -/
def putPrefix (w : Writer) : Writer :=
  match w.levels with
  | [] => w
  | level :: rest =>
      let sep : Bytes :=
        if level.valueCount = 0 then []
        else if level.inArray then [44]
        else if level.valueCount % 2 = 0 then [44] else [58]
      { out := w.out ++ sep, levels := { level with valueCount := level.valueCount + 1 } :: rest }

def hexDigit (n : Nat) : UInt8 := (ascii "0123456789ABCDEF").getD n 0

/-- The table of `WriteString`: zero where a byte is written as it is. -/
def escape (c : UInt8) : UInt8 :=
  if c < 32 then (ascii "uuuuuuuubtnufruuuuuuuuuuuuuuuuuu").getD c.toNat 0
  else if c = 34 then 34
  else if c = 92 then 92
  else 0

/-- The part of `WriteString` for one byte. -/
def writeByte (c : UInt8) : Bytes :=
  if escape c = 0 then [c]
  else if escape c = 117 then
    [92, 117, 48, 48, hexDigit (c.toNat / 16), hexDigit (c.toNat % 16)]
  else [92, escape c]

def writeString (s : Bytes) : Bytes := 34 :: s.flatMap writeByte ++ [34]

/-- The choice `Accept` makes by the flags of a number. -/
def writeNumber (i : Int) : Bytes :=
  if -2 ^ 31 ≤ i ∧ i < 2 ^ 31 then Itoa.i32toa i
  else if 0 ≤ i ∧ i < 2 ^ 32 then Itoa.u32toa i.toNat
  else if -2 ^ 63 ≤ i ∧ i < 2 ^ 63 then Itoa.i64toa i
  else Itoa.u64toa i.toNat

/-- `StartArray` and `StartObject`. -/
def start (inArray : Bool) (w : Writer) : Writer :=
  let w := w.putPrefix
  { out := w.out ++ (if inArray then [91] else [123]),
    levels := { valueCount := 0, inArray := inArray } :: w.levels }

/-- `EndArray` and `EndObject`. -/
def finish (inArray : Bool) (w : Writer) : Writer :=
  { out := w.out ++ (if inArray then [93] else [125]), levels := w.levels.tail }

/-- `Key` is `String`. -/
def key (s : Bytes) (w : Writer) : Writer := w.putPrefix.put (writeString s)

mutual

/-- `Accept`. -/
def accept (w : Writer) : GenericValue Empty → Writer
  | .null => w.putPrefix.put (ascii "null")
  | .bool b => w.putPrefix.put (if b then ascii "true" else ascii "false")
  | .int i => w.putPrefix.put (writeNumber i)
  | .string s => w.putPrefix.put (writeString s)
  | .array xs => (acceptElements (w.start true) xs).finish true
  | .object ms => (acceptMembers (w.start false) ms).finish false

def acceptElements (w : Writer) : List (GenericValue Empty) → Writer
  | [] => w
  | x :: xs => acceptElements (accept w x) xs

def acceptMembers (w : Writer) : List (GenericValue.Member Empty) → Writer
  | [] => w
  | (name, x) :: ms => acceptMembers (accept (w.key name) x) ms

end

end Writer

/-! ### The messages -/

/-- `EOL`. -/
def eol : Bytes := [13, 10]

/-- `make_response`: the text up to its first NUL, and `EOL`. -/
def makeResponse (res : GenericValue Empty) : Bytes :=
  (Writer.accept .new res).out.takeWhile (· ≠ 0) ++ eol

def valueOf : FactValue → GenericValue Empty
  | .int i => .int i
  | .str s => .string s

/-- `eavr`. -/
def eavrOf (f : Fact) : GenericValue Empty :=
  .array [.int f.e, .int f.a, valueOf f.v, .int f.tx, .bool f.retract]

def newIdOf (it : Int × Int) : GenericValue Empty := .array [.int it.1, .int it.2]

open GenericValue in
/-- The members that both handlers add first. -/
def responseMembers (tx : Int) : List (Member Empty) :=
  addMember (ascii "tx") (.int tx) (addMember (ascii "type") (.string (ascii "response")) [])

open GenericValue in
def factsDocument (tx : Int) (facts : List Fact) : GenericValue Empty :=
  .object (addMember (ascii "facts") (.array (facts.map eavrOf)) (responseMembers tx))

/-- The order in which an `unordered_map` is walked, given what was inserted into it. -/
structure Walk where
  order : List (Int × Int) → List (Int × Int)
  perm : ∀ inserted, (order inserted).Perm inserted

/-- A walk in the order of the insertions. -/
def Walk.inserted : Walk where
  order := id
  perm _ := .refl _

open GenericValue in
def transactMembers (walk : Walk) (tx : Int) (facts : List Fact) (newIds : List (Int × Int)) :
    List (Member Empty) :=
  addMember (ascii "new_ids") (.array ((walk.order newIds).map newIdOf))
    (addMember (ascii "facts") (.array (facts.map eavrOf)) (responseMembers tx))

def transactDocument (walk : Walk) (tx : Int) (facts : List Fact) (newIds : List (Int × Int)) :
    GenericValue Empty := .object (transactMembers walk tx facts newIds)

open GenericValue in
/-- What is published: the document of the response, with two members less and one more. -/
def eventDocument (walk : Walk) (tx : Int) (facts : List Fact) (newIds : List (Int × Int)) :
    GenericValue Empty :=
  .object (addMember (ascii "type") (.string (ascii "event"))
    (removeMember (ascii "type")
      (removeMember (ascii "new_ids") (transactMembers walk tx facts newIds))))

def ackOk : Bytes := ascii "0" ++ eol
def ackErr : Bytes := ascii "1" ++ eol

/-- A message as it goes out. -/
def render (walk : Walk) : Msg → Bytes
  | .reply .ackOk => ackOk
  | .reply .ackErr => ackErr
  | .reply (.facts tx facts) => makeResponse (factsDocument tx facts)
  | .reply (.response tx facts newIds) => makeResponse (transactDocument walk tx facts newIds)
  | .event tx facts => makeResponse (eventDocument walk tx facts [])
  | .echo arg => arg ++ eol

end Nstore
