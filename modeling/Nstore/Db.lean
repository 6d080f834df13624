/-
The database layer, `db.cpp`, over LMDB.

LMDB is taken for what its documentation promises: a map ordered by the comparison
function it was given.  A `Store` is the committed or half-written contents of the
one table, as the list of its entries; a write transaction is a store passed along
and either kept or dropped.

Return codes are options: `none` is a non-zero code.  `Oracle.fails` lets any call
fail, so a request can be followed through each of its error exits.
-/
import Nstore.Key
import Nstore.Lib.OrderedMap
import Nstore.Lib.BatchScan

namespace Nstore

/-! ### LMDB -/

/-- A data item: eight bytes holding an integer, or a block of bytes. -/
inductive Item where
  | num (x : Int)
  | blob (b : Bytes)
deriving DecidableEq, Repr

namespace Item

def bytes : Item → Bytes
  | num x => leBytes 8 (x % 2 ^ 64).toNat
  | blob b => b

/-- `memcpy` of an item into an `int64_t`. -/
def i64 : Item → Int
  | num x => x
  | blob b => toInt64 (leNat (b.take 8))

/-- `mv_size`. -/
def size (d : Item) : Nat := d.bytes.length

end Item

abbrev Entry := CustomKey × Item
abbrev Store := List Entry

def mdbGet (s : Store) (k : CustomKey) : Option Item := OrderedMap.find? customKeyCompare s k

/--
`mdb_put`.  Over data of the same size LMDB keeps the key that compares equal, where here
it is the new one: they may differ in fields that are not compared, or by 2^32.
-/
def mdbPut (s : Store) (k : CustomKey) (d : Item) : Store := OrderedMap.put customKeyCompare k d s

def mdbDel (s : Store) (k : CustomKey) : Option Store := OrderedMap.del customKeyCompare k s

/-- `MDB_SET_RANGE` and the `MDB_NEXT`s after it: the entries from the first key `.GE.` on. -/
def mdbSetRange (s : Store) (k : CustomKey) : List Entry := OrderedMap.seek customKeyCompare s k

/-- `MDB_PREV` after `MDB_SET_RANGE`. -/
def mdbPrev (s : Store) (k : CustomKey) : Option Entry := OrderedMap.before customKeyCompare s k

/-- The key a write cursor is positioned at, if it has been positioned. -/
abbrev Cursor := Option CustomKey

def mdbNoOverwrite : Nat := 0x10
def mdbCurrent : Nat := 0x40
def mdbNoSpill : Nat := 0x8000
def mdbReserve : Nat := 0x10000
def mdbAppend : Nat := 0x20000
def mdbMultiple : Nat := 0x80000

def hasFlag (flags f : Nat) : Bool := flags &&& f != 0

/-- `me_psize`, where the pages of the system have this size. -/
def mePsize : Nat := 4096

/-- `me_nodemax`. -/
def meNodemax : Nat := (mePsize - 16) / 2 / 2 * 2 - 2

/-- `F_BIGDATA`: with its header and its key the item is too big for a leaf. -/
def Item.bigData (d : Item) : Bool := meNodemax < 8 + 64 + d.size

/-- `OVPAGES`. -/
def ovPages (size : Nat) : Nat := (15 + size) / mePsize + 1

/--
Whether an item takes the place of another under the key that one has.  What a cursor is
at was put in the same transaction, so its overflow pages may be written to.
-/
def Item.overwrites (d old : Item) : Bool :=
  if old.bigData then ovPages d.size ≤ ovPages old.size else d.size = old.size

/--
`MDB_CURRENT`: replace the item the cursor is at.  If it is not overwritten this is a
delete followed by an insert of the given key in the same place.
-/
def putCurrent (s : Store) (mc k : CustomKey) (d : Item) : Store :=
  s.map fun x => if x.1 = mc then (if d.overwrites x.2 then x.1 else k, d) else x

/-- `MDB_APPEND`: the key has to be beyond the last. -/
def putAppend (s : Store) (k : CustomKey) (d : Item) : Option (Store × Cursor) :=
  match s.getLast? with
  | some last => if 0 < customKeyCompare k last.1 then some (s ++ [(k, d)], some k) else none
  | none => some ([(k, d)], some k)

/--
`mdb_cursor_put` with write flags: those `lmdb.h` describes, and the private
`MDB_NOSPILL`, which is masked out first.  Reserved space holds the bytes `fill`.
-/
def mdbCursorPutOn (fill : Bytes) (s : Store) (mc : Cursor) (k : CustomKey) (d : Item)
    (flags : Nat) : Option (Store × Cursor) :=
  let item := if hasFlag flags mdbReserve then .blob fill else d
  if hasFlag flags mdbMultiple then none
  else if flags = mdbCurrent ∨ flags = mdbCurrent + mdbNoSpill then
    mc.map fun c =>
      (putCurrent s c k d, if (mdbGet s c).any d.overwrites then some c else some k)
  else if hasFlag flags mdbAppend then putAppend s k item
  else if hasFlag flags mdbNoOverwrite && (mdbGet s k).isSome then none
  else some (mdbPut s k item, some k)

/-- `mdb_cursor_put` where reserved space reads as zero. -/
def mdbCursorPut (s : Store) (mc : Cursor) (k : CustomKey) (d : Item) (flags : Nat) :
    Option (Store × Cursor) :=
  mdbCursorPutOn (List.replicate d.size 0) s mc k d flags

/-! ### What may fail, and what is left unset -/

/-- The calls of one request whose return code is looked at; `i` counts loop rounds. -/
inductive Call where
  | txnBegin
  | txnRenew
  | getMeta (id : Int)
  | query (a : Int)
  | cursorOpen
  | setRange
  | setupMeta (i : Nat)
  | setupPut (i : Nat)
  | sha256 (i : Nat)
  | uniqueDel (i : Nat)
  | uniqueGet (i : Nat)
  | lastDatom (i : Nat)
  | lastDel (i : Nat)
  | uniquePut (i : Nat)
  | putPadded (i : Nat) (sort : Nat)
  | putMeta (id : Int)
  | commit
deriving DecidableEq, Repr

/--
What a request cannot determine: which calls fail, and the integer found in the
field the string constructor of `datom` leaves unset, by attribute and entity.
-/
structure Oracle where
  fails : Call → Bool
  uninit : Int → Int → Int

/-- No call fails but with "not found". -/
def Oracle.Faultless (o : Oracle) : Prop := ∀ c, o.fails c = false

/-- The oracle of a request in which nothing goes wrong. -/
def Oracle.calm : Oracle := { fails := fun _ => false, uninit := fun _ _ => 0 }

theorem Oracle.calm_faultless : Oracle.calm.Faultless := fun _ => rfl

/-! ### Meta keys -/

def metaTx : Int := 0
def metaId : Int := 1
def metaVersionMajor : Int := 2
def metaVersionMinor : Int := 3
def metaVersionPatch : Int := 4

def fillMetaKey (ck : CustomKey) (ns : Nat) (id : Int) : CustomKey :=
  { ck with type := .keyMeta, ns := ns, e := id }

def metaKey (ns : Nat) (id : Int) : CustomKey := fillMetaKey .zeroed ns id

def putMeta (s : Store) (ns : Nat) (id val : Int) : Store := mdbPut s (metaKey ns id) (.num val)

def getMeta (s : Store) (ns : Nat) (id : Int) : Option Int :=
  (mdbGet s (metaKey ns id)).map Item.i64

/-- `db::exists`. -/
def nsExists (s : Store) (ns : Nat) : Bool := (getMeta s ns metaTx).isSome

/-! ### Setting up a namespace -/

def ascii (s : String) : Bytes := s.toList.map fun c => UInt8.ofNat c.toNat

/-- One of the calls that fill in the base facts. -/
inductive BaseFact where
  /-- `ins_str` on `db_ident`; `indexed` if a unique key follows. -/
  | ident (e : Int) (name : String) (indexed : Bool)
  | int (e a v : Int)

def baseFacts : List BaseFact :=
  [.ident dbIdent ":db/ident" true,
   .ident dbType ":db/type" true,
   .ident dbCardinality ":db/cardinality" true,
   .ident dbUnique ":db/unique" true,
   .int dbIdent dbType dbTypeValue,
   .int dbType dbType dbTypeRef,
   .int dbCardinality dbType dbTypeRef,
   .int dbUnique dbType dbTypeRef,
   .int dbIdent dbCardinality dbCardinalityOne,
   .int dbType dbCardinality dbCardinalityOne,
   .int dbCardinality dbCardinality dbCardinalityOne,
   .int dbUnique dbCardinality dbCardinalityOne,
   .int dbIdent dbUnique dbUniqueYes,
   .int dbType dbUnique dbUniqueNo,
   .int dbCardinality dbUnique dbUniqueNo,
   .int dbUnique dbUnique dbUniqueNo,
   .ident dbTypeValue ":db.type/value" false,
   .ident dbTypeRef ":db.type/ref" false,
   .ident dbCardinalityOne ":db.cardinality/one" false,
   .ident dbCardinalityMany ":db.cardinality/many" false,
   .ident dbUniqueNo ":db.unique/no" false,
   .ident dbUniqueYes ":db.unique/yes" false]

def insInt (ck : CustomKey) (e a v : Int) : CustomKey :=
  { ck with type := .keyInteger, pad := 0, e := e, a := a, v := ck.v.setI v }

def insStr (ck : CustomKey) (e a : Int) (v : Bytes) : CustomKey :=
  { ck with type := .keyBlob, pad := v.length + 1, e := e, a := a, v := .ofBytes v }

/-- `fill_idx`: both sort orders, no data. -/
def fillIdx (ck : CustomKey) : List Entry :=
  [({ ck with sort := sortEATV }, .blob []), ({ ck with sort := sortAETV }, .blob [])]

/-- The reuse of `ck` for the unique index. -/
def reuseUnique (ck : CustomKey) : CustomKey :=
  { ck with type := .keyUnique, sort := 0, e := 0, t := 0 }

/--
The puts of one base fact and the key variable it leaves behind.  An integer only
overwrites the first eight bytes of the union, so the rest of the last string
stays in it.
-/
def baseWrites (ck : CustomKey) : BaseFact → List Entry × CustomKey
  | .ident e name indexed =>
      let ck := insStr ck e dbIdent (ascii name)
      if indexed then (fillIdx ck ++ [(reuseUnique ck, .num e)], reuseUnique ck)
      else (fillIdx ck, ck)
  | .int e a v =>
      let ck := insInt ck e a v
      (fillIdx ck, ck)

def allBaseWrites (ck : CustomKey) : List BaseFact → List Entry
  | [] => []
  | f :: rest => (baseWrites ck f).1 ++ allBaseWrites (baseWrites ck f).2 rest

/-- All puts of `setup` through its cursor, in order. -/
def setupWrites (ns : Nat) : List Entry := allBaseWrites { CustomKey.zeroed with ns := ns } baseFacts

def setupMetas (ns : Nat) : List (Int × Int) :=
  (if ns = 0 then [(metaVersionMajor, 0), (metaVersionMinor, 0), (metaVersionPatch, 0)] else []) ++
    [(metaTx, 1), (metaId, dbInitialId)]

/-- The `put_meta`s of `setup`, up to the first that fails. -/
def putMetas (o : Oracle) (ns : Nat) : Nat → List (Int × Int) → Store → Bool × Store
  | _, [], s => (false, s)
  | i, (id, val) :: rest, s =>
      if o.fails (.setupMeta i) then (true, s)
      else putMetas o ns (i + 1) rest (putMeta s ns id val)

/-- The cursor puts of `setup`: a code that is not zero is dropped. -/
def putAll (o : Oracle) : Nat → List Entry → Store → Store
  | _, [], s => s
  | i, (k, d) :: rest, s =>
      putAll o (i + 1) rest (if o.fails (.setupPut i) then s else mdbPut s k d)

/-- `db::setup`: the store, and whether it reports failure (or that `ns` exists). -/
def setup (o : Oracle) (s : Store) (ns : Nat) : Bool × Store :=
  if nsExists s ns then (true, s)
  else
    match putMetas o ns 0 (setupMetas ns) s with
    | (true, s) => (true, s)
    | (false, s) =>
        if o.fails .cursorOpen then (true, s) else (false, putAll o 0 (setupWrites ns) s)

/-! ### Padded puts -/

/--
`cursor_put_padded`.  For a negative pad the space is reserved and the data copied
to its front; the other call passes the size of the data where LMDB takes flags.
-/
def cursorPutPaddedOn (fill : Bytes) (s : Store) (mc : Cursor) (key : CustomKey) (data : Bytes) :
    Option (Store × Cursor) :=
  if key.pad < 0 then
    some (mdbPut s key (.blob (data ++ fill.drop data.length)), some key)
  else mdbCursorPutOn fill s mc key (.blob data) data.length

/-- `cursor_put_padded` where reserved space reads as zero. -/
def cursorPutPadded (s : Store) (mc : Cursor) (key : CustomKey) (data : Bytes) :
    Option (Store × Cursor) :=
  cursorPutPaddedOn (List.replicate (data.length + (-key.pad).toNat) 0) s mc key data

/-! ### Scans -/

/-- A value as a reply shows it. -/
inductive FactValue where
  | int (i : Int)
  | str (s : Bytes)
deriving DecidableEq, Repr

/-- The value of a datom: in the key, or in the data item without its padding. -/
def decode (x : Entry) : FactValue :=
  match x.1.type with
  | .keyInteger => .int x.1.v.i
  | _ =>
      if 0 < x.1.pad then .str (x.1.v.bytes.take (x.1.pad - 1).toNat)
      else .str (x.2.bytes.take ((x.2.size : Int) + x.1.pad).toNat)

/-- The map `current`: payload to value and transaction. -/
abbrev Current := List (Value × (FactValue × Int))

def Current.erase (m : Current) (v : Value) : Current := m.filter fun c => c.1 ≠ v

/-- What the scans do with a key: a retraction erases its payload, an assertion sets it. -/
def Current.take (m : Current) (x : Entry) : Current :=
  if x.1.t % 2 = 1 then m.erase x.1.v
  else (x.1.v, (decode x, x.1.t / 2)) :: m.erase x.1.v

/-- The cursor loop: the visitor returns `none` to break. -/
def cursorLoop {σ : Type} (visitor : σ → Entry → Option σ) : σ → List Entry → σ
  | st, [] => st
  | st, x :: rest =>
      match visitor st x with
      | none => st
      | some st => cursorLoop visitor st rest

structure Datom where
  e : Int
  a : Int
  v : FactValue
  t : Int
deriving DecidableEq, Repr

/-- `d.v`, which only the integer constructor sets. -/
def Datom.i (uninit : Int → Int → Int) (d : Datom) : Int :=
  match d.v with
  | .int i => i
  | .str _ => uninit d.a d.e

/-- `tx = (tx << 1) + 1`. -/
def txBound (tx : Int) : Int := toInt64 (2 * tx) + 1

def queryMinKey (ns : Nat) (a : Int) : CustomKey :=
  { CustomKey.zeroed with ns := ns, type := .keyMinSentinel, sort := sortAETV, a := a }

/-- `write_batch` of `query_a`. -/
def queryBatch (a e : Int) (current : Current) : List Datom :=
  current.map fun c => { e := e, a := a, v := c.2.1, t := c.2.2 }

/-- The visitor of `query_a`. -/
def queryVisit (ns : Nat) (tx a : Int) (st : BatchScan.Scan Int Current Datom) (x : Entry) :
    Option (BatchScan.Scan Int Current Datom) :=
  if x.1.a ≠ a ∨ x.1.ns ≠ ns ∨ x.1.sort ≠ sortAETV then none
  else if x.1.t > tx then some st
  else some (BatchScan.step (fun x : Entry => x.1.e) Current.take (queryBatch a) [] st x)

def queryA (s : Store) (ns : Nat) (tx a : Int) : List Datom :=
  BatchScan.finish (queryBatch a)
    (cursorLoop (queryVisit ns (txBound tx) a) ⟨-1, [], []⟩ (mdbSetRange s (queryMinKey ns a)))

/-- The key `last_datom` looks for: where the group after `(e, a)` would begin. -/
def lastProbe (start : CustomKey) : CustomKey :=
  { start with sort := sortEATV, a := toInt64 (start.a + 1), t := -1 }

/-- `last_datom`: the key it leaves in `*start`, or `none` where it returns true. -/
def lastDatom (s : Store) (start : CustomKey) : Option CustomKey :=
  match mdbSetRange s (lastProbe start) with
  | [] => none
  | _ :: _ =>
      match mdbPrev s (lastProbe start) with
      | none => none
      | some (k, _) =>
          if start.e ≠ k.e ∨ start.a ≠ k.a ∨ start.ns ≠ k.ns then none else some k

end Nstore
