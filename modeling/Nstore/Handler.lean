/-
The request handlers of `handler.cpp`, as functions from a store to a reply and a
store.

A handler that fails answers with the error ack and drops its transaction, so the
store it returns is the one it was given.  The fact loop of `handle_transact` is
`transactLoop` over `transactFact`; a `goto err_cur` is `none`.
-/
import Nstore.Db

namespace Nstore

/-! ### Requests and replies -/

/-- A parsed JSON document, as far as the handlers look into it. -/
inductive Json where
  | null
  | bool (b : Bool)
  /-- A number for which `IsInt64` holds. -/
  | int64 (i : Int64)
  /-- Any other number. -/
  | number
  | string (s : Bytes)
  | array (xs : List Json)
  | object

/-- One `[e, a, v, tx, retracted]` of a reply. -/
structure Fact where
  e : Int
  a : Int
  v : FactValue
  tx : Int
  retract : Bool
deriving DecidableEq, Repr

/-- A reply before it is printed: the new ids are the map, and printing chooses their order. -/
inductive Reply where
  | ackOk
  | ackErr
  | facts (tx : Int) (facts : List Fact)
  | response (tx : Int) (facts : List Fact) (newIds : List (Int × Int))
deriving DecidableEq, Repr

/-! ### Namespaces -/

/-- What is left of an `int64_t` passed as `namespace_t`. -/
def toNamespace (m : Int) : Nat := (m % 2 ^ 32).toNat

/-- `handle_namespace`: what `setup` returns is not looked at. -/
def handleNamespace (o : Oracle) (s : Store) (arg : Option Json) : Reply × Store :=
  match arg with
  | some (.int64 m) =>
      if o.fails .txnBegin then (.ackErr, s)
      else if o.fails .commit then (.ackErr, s)
      else (.ackOk, (setup o s (toNamespace m.toInt)).2)
  | _ => (.ackErr, s)

/-- The part of `handle_select` that reads the store: the namespace to select. -/
def handleSelect (o : Oracle) (s : Store) (arg : Option Json) : Option Nat :=
  match arg with
  | some (.int64 m) =>
      if o.fails .txnRenew then none
      else if nsExists s (toNamespace m.toInt) then some (toNamespace m.toInt) else none
  | _ => none

/-! ### Facts -/

def factsMinKey (ns : Nat) : CustomKey :=
  { CustomKey.zeroed with ns := ns, type := .keyMinSentinel, sort := sortEATV }

/-- `write_batch` of `handle_facts`; the source walks its map in an order of its own. -/
def factsBatch (g : Int × Int) (current : Current) : List Fact :=
  current.map fun c => { e := g.1, a := g.2, v := c.2.1, tx := c.2.2, retract := false }

/-- The map is cleared before every key of an attribute that is not cardinality many. -/
def factsTake (many : List Int) (current : Current) (x : Entry) : Current :=
  Current.take (if x.1.a ∈ many then current else []) x

/-- One round of the loop. -/
def factsVisit (ns : Nat) (tx : Int) (many : List Int)
    (st : BatchScan.Scan (Int × Int) Current Fact) (x : Entry) :
    Option (BatchScan.Scan (Int × Int) Current Fact) :=
  if x.1.ns ≠ ns ∨ x.1.sort ≠ sortEATV then none
  else if x.1.t > tx then some st
  else some (BatchScan.step (fun x : Entry => (x.1.e, x.1.a)) (factsTake many) factsBatch [] st x)

def queryOr (o : Oracle) (s : Store) (ns : Nat) (tx a : Int) : List Datom :=
  if o.fails (.query a) then [] else queryA s ns tx a

/-- The entities whose cardinality is read as many. -/
def manySet (o : Oracle) (s : Store) (ns : Nat) (tx : Int) : List Int :=
  ((queryOr o s ns tx dbCardinality).filter fun d => d.i o.uninit = dbCardinalityMany).map (·.e)

/-- `handle_facts` for a parsed argument. -/
def handleFactsAt (o : Oracle) (s : Store) (ns : Nat) (tx : Int) : Reply :=
  if o.fails .cursorOpen then .ackErr
  else
    match (if o.fails .setRange then [] else mdbSetRange s (factsMinKey ns)) with
    | [] => .ackErr
    | first :: rest =>
        let st := cursorLoop (factsVisit ns (txBound tx) (manySet o s ns tx)) ⟨(-1, -1), [], []⟩
          (first :: rest)
        .facts tx (BatchScan.finish factsBatch st)

def handleFacts (o : Oracle) (s : Store) (ns : Nat) (arg : Option Json) : Reply :=
  match arg with
  | some (.int64 i) =>
      if o.fails .txnRenew then .ackErr
      else if i.toInt < 0 then
        match (if o.fails (.getMeta metaTx) then none else getMeta s ns metaTx) with
        | none => .ackErr
        | some tx => handleFactsAt o s ns tx
      else handleFactsAt o s ns i.toInt
  | _ => .ackErr

/-! ### Transact -/

/-- The map from tempids to ids, in the order it was filled, and the next free id. -/
structure Ids where
  newIds : List (Int × Int)
  id : Int
deriving DecidableEq, Repr

/-- A tempid seen before keeps its id, a new one takes the next. -/
def Ids.resolve (ids : Ids) (x : Int) : Int × Ids :=
  match ids.newIds.lookup x with
  | some id => (id, ids)
  | none => (ids.id, { newIds := ids.newIds ++ [(x, ids.id)], id := ids.id + 1 })

def resolveEntity (ids : Ids) (e : Int) : Option (Int × Ids) :=
  if e < 0 then some (ids.resolve e)
  else if e < dbInitialId then none
  else some (e, ids)

def resolveValue (eRef : List Int) (ids : Ids) (a v : Int) : Int × Ids :=
  if a ∈ eRef ∧ v < 0 then ids.resolve v else (v, ids)

/-- What the value position puts into the key, the data item and the reply. -/
structure Encoded where
  type : KeyType
  pad : Int
  v : Value
  data : Bytes
  shown : FactValue

def encodeInt (x : Int) : Encoded :=
  { type := .keyInteger, pad := 0, v := Value.zero.setI x, data := [], shown := .int x }

/-- Short strings go into the key; long ones are hashed and kept as padded data. -/
def encodeStr (sha256 : Bytes → Value) (s : Bytes) : Encoded :=
  if s.length > 32 then
    { type := .keyBlob, v := sha256 s, data := s, shown := .str s,
      pad := if s.length % 8 = 0 then 0 else -(8 - (s.length % 8 : Nat)) }
  else
    { type := .keyBlob, pad := s.length + 1, v := .ofBytes s, data := [], shown := .str s }

/-- The parts of a transaction that the loop does not change. -/
structure Txn where
  ns : Nat
  tx : Int
  eUnique : List Int
  eRef : List Int

/-- The parts that it does. -/
structure TxnState where
  store : Store
  mc : Cursor
  ids : Ids
  newFacts : List Fact

/-- A datom key with the fields of the unique index. -/
def uniqueKey (ns : Nat) (k : CustomKey) : CustomKey :=
  { k with ns := ns, type := .keyUnique, sort := 0, pad := 0, e := 0, t := 0 }

/-- Drop the index entry of the entity's last value, if it has one. -/
def removeLast (o : Oracle) (i ns : Nat) (s : Store) (ck : CustomKey) : Option Store :=
  match (if o.fails (.lastDatom i) then none else lastDatom s ck) with
  | none => some s
  | some last => if o.fails (.lastDel i) then none else mdbDel s (uniqueKey ns last)

/-- The constraint check for one fact, with the index entries it moves. -/
def checkUnique (o : Oracle) (i : Nat) (txn : Txn) (s : Store) (ck : CustomKey) (retract : Bool) :
    Option Store :=
  if ck.a ∉ txn.eUnique then some s
  else
    let uk := uniqueKey txn.ns ck
    if retract then
      if o.fails (.uniqueDel i) then none else mdbDel s uk
    else
      let removed :=
        match (if o.fails (.uniqueGet i) then none else mdbGet s uk) with
        | some tmp => if tmp.i64 ≠ ck.e then none else some s
        | none => removeLast o i txn.ns s ck
      removed.bind fun s => if o.fails (.uniquePut i) then none else some (mdbPut s uk (.num ck.e))

/-- `cursor_put_padded` in one sort order. -/
def putSorted (o : Oracle) (i : Nat) (sort : Nat) (st : Store × Cursor) (ck : CustomKey)
    (data : Bytes) : Option (Store × Cursor) :=
  if o.fails (.putPadded i sort) then none
  else cursorPutPadded st.1 st.2 { ck with sort := sort } data

/-- `EATV` always, `AETV` for schema attributes only. -/
def putDatom (o : Oracle) (i : Nat) (st : Store × Cursor) (ck : CustomKey) (data : Bytes) :
    Option (Store × Cursor) :=
  (putSorted o i sortEATV st ck data).bind fun st =>
    if ck.a < dbInitialId then putSorted o i sortAETV st ck data else some st

/-- The transaction number with its retraction bit. -/
def datomT (tx : Int) (retract : Bool) : Int := toInt64 (2 * tx) + if retract then 1 else 0

/-- The datom key before its sort order is set. -/
def datomKey (txn : Txn) (e a : Int) (enc : Encoded) (retract : Bool) : CustomKey :=
  { CustomKey.zeroed with
    ns := txn.ns, type := enc.type, pad := enc.pad, v := enc.v, e := e, a := a,
    t := datomT txn.tx retract }

/-- A fact whose shape is right: check it and insert it. -/
def insertFact (o : Oracle) (i : Nat) (txn : Txn) (st : TxnState) (e a : Int) (enc : Encoded)
    (retract : Bool) : Option TxnState :=
  -- the check comes before `t` is filled in
  let ck := datomKey txn e a enc retract
  (checkUnique o i txn st.store { ck with t := 0 } retract).bind fun s =>
    (putDatom o i (s, st.mc) ck enc.data).map fun sm =>
      { st with
        store := sm.1, mc := sm.2,
        newFacts := st.newFacts ++
          [{ e := e, a := a, v := enc.shown, tx := txn.tx, retract := retract }] }

/-- `eav[3].IsInt64() && eav[3].GetInt64()`. -/
def retractFlag : Json → Bool
  | .int64 r => r ≠ 0
  | _ => false

/-- The part of the loop body after the entity is known. -/
def transactValue (sha256 : Bytes → Value) (o : Oracle) (i : Nat) (txn : Txn) (st : TxnState)
    (e a : Int) (v r : Json) : Option TxnState :=
  match v with
  | .int64 x =>
      let (x, ids) := resolveValue txn.eRef st.ids a x.toInt
      insertFact o i txn { st with ids := ids } e a (encodeInt x) (retractFlag r)
  | .string str =>
      if 32 < str.length && o.fails (.sha256 i) then none
      else insertFact o i txn st e a (encodeStr sha256 str) (retractFlag r)
  -- "skipping fact, invalid value type"
  | _ => some st

/-- One round of the loop. -/
def transactFact (sha256 : Bytes → Value) (o : Oracle) (i : Nat) (txn : Txn) (st : TxnState)
    (v : Json) : Option TxnState :=
  match v with
  | .array [je, ja, jv, jr] =>
      match ja, je with
      | .int64 a, .int64 e =>
          (resolveEntity st.ids e.toInt).bind fun (e, ids) =>
            transactValue sha256 o i txn { st with ids := ids } e a.toInt jv jr
      | _, _ => none
  | _ => none

def transactLoop (sha256 : Bytes → Value) (o : Oracle) (txn : Txn) :
    Nat → TxnState → List Json → Option TxnState
  | _, st, [] => some st
  | i, st, v :: rest =>
      (transactFact sha256 o i txn st v).bind fun st => transactLoop sha256 o txn (i + 1) st rest

/-- The attributes the transaction holds to be unique. -/
def uniqueSet (o : Oracle) (s : Store) (ns : Nat) (tx : Int) : List Int :=
  ((queryOr o s ns tx dbUnique).filter fun d => d.i o.uninit = dbUniqueYes).map (·.e)

/-- The attributes with a `db_type` fact: the loop looks only for their presence. -/
def refSet (o : Oracle) (s : Store) (ns : Nat) (tx : Int) : List Int :=
  (queryOr o s ns tx dbType).map (·.e)

/-- What the loop starts from; `none` where a counter cannot be read or no cursor opens. -/
def transactBegin (o : Oracle) (s : Store) (ns : Nat) : Option (Txn × TxnState) :=
  if o.fails .txnBegin then none
  else
    match (if o.fails (.getMeta metaTx) then none else getMeta s ns metaTx),
      (if o.fails (.getMeta metaId) then none else getMeta s ns metaId) with
    | some tx, some id =>
        if o.fails .cursorOpen then none
        else some ({ ns := ns, tx := tx, eUnique := uniqueSet o s ns tx, eRef := refSet o s ns tx },
          { store := s, mc := none, ids := { newIds := [], id := id }, newFacts := [] })
    | _, _ => none

/-- The counters and the commit. -/
def transactEnd (o : Oracle) (txn : Txn) (st : TxnState) : Option Store :=
  if o.fails (.putMeta metaTx) || o.fails (.putMeta metaId) || o.fails .commit then none
  else some (putMeta (putMeta st.store txn.ns metaTx (txn.tx + 1)) txn.ns metaId st.ids.id)

/-- A transaction on a non-empty list of facts: its reply and the store it commits. -/
def transact (sha256 : Bytes → Value) (o : Oracle) (s : Store) (ns : Nat) (facts : List Json) :
    Option (Reply × Store) :=
  (transactBegin o s ns).bind fun (txn, st) =>
    (transactLoop sha256 o txn 0 st facts).bind fun st =>
      (transactEnd o txn st).map fun s => (.response txn.tx st.newFacts st.ids.newIds, s)

/-- `handle_transact`. -/
def handleTransact (sha256 : Bytes → Value) (o : Oracle) (s : Store) (ns : Nat)
    (arg : Option Json) : Reply × Store :=
  match arg with
  | some (.array facts) =>
      if facts.length = 0 then (.ackErr, s)
      else (transact sha256 o s ns facts).getD (.ackErr, s)
  | _ => (.ackErr, s)

end Nstore
