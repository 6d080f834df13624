/-
The handlers call by call.

`Handler.lean` follows the store through a request.  Here the same functions are
followed through their LMDB calls: every `mdb_` call that takes a transaction or a
cursor leaves an event, in the order of the source, on every path through the error
exits.  Each call that returns a code has its own place in `Site`, down to the single
moves of a cursor, and `Faults` lets any of them fail.

A function that ends in `goto err_cur` or returns a code that its caller looks at is an
`Attempt`, the others are `Traced`; the events up to a failure stay recorded.  The data
goes along, so a call that finds nothing in the store fails as well.
-/
import Nstore.Handler
import Nstore.Lib.Handles

namespace Nstore.Calls

open Handles

/-! ### Handles and calls -/

/-- The transactions, and the cursor variable `mc` of each function that has one. -/
inductive Handle where
  /-- The write transaction that a handler begins. -/
  | txn
  /-- `read_txn` of the thread, between renewal and reset. -/
  | readTxn
  | setupCursor
  | queryCursor
  | lastCursor
  | transactCursor
  | factsCursor
deriving DecidableEq, Repr

/-- The calls that return a code; `i` counts loop rounds, `k` the moves of a cursor. -/
inductive Site where
  | txnBegin
  | txnRenew
  | commit
  | existsGet
  | getMeta (id : Int)
  | putMeta (id : Int)
  | setupMeta (i : Nat)
  | setupPut (i : Nat)
  | cursorOpen
  | cursorGet (k : Nat)
  | queryOpen (a : Int)
  | queryGet (a : Int) (k : Nat)
  | sha256 (i : Nat)
  | uniqueDel (i : Nat)
  | uniqueGet (i : Nat)
  | lastOpen (i : Nat)
  | lastGet (i : Nat) (k : Nat)
  | lastDel (i : Nat)
  | uniquePut (i : Nat)
  | putPadded (i : Nat) (sort : Nat)
deriving DecidableEq, Repr

/-- Which calls of a request fail, and what is found in unset fields. -/
structure Faults where
  fails : Site → Bool
  uninit : Int → Int → Int

/-- The write transaction must not end before its cursors are closed. -/
def Handle.under : Handle → Option Handle
  | .txn => some .txn
  | _ => none

def mdbTxnBegin (f : Faults) : Traced Handle Bool :=
  if f.fails .txnBegin then pure true
  else do
    tell [.acquire .txn none]
    pure false

/-- The handle is freed whether or not the commit succeeds. -/
def mdbTxnCommit (f : Faults) : Traced Handle Bool := do
  tell [.release .txn]
  pure (f.fails .commit)

def mdbTxnAbort : Traced Handle Unit := tell [.release .txn]

def mdbTxnRenew (f : Faults) : Traced Handle Bool :=
  if f.fails .txnRenew then pure true
  else do
    tell [.acquire .readTxn none]
    pure false

def mdbTxnReset : Traced Handle Unit := tell [.release .readTxn]

def mdbCursorOpen (f : Faults) (site : Site) (t c : Handle) : Traced Handle Bool := do
  tell [.use t]
  if f.fails site then pure true
  else do
    tell [.acquire c t.under]
    pure false

def mdbCursorClose (c : Handle) : Traced Handle Unit := tell [.release c]

/-- `mdb_cursor_get` and `mdb_cursor_put`: a cursor is used with its transaction. -/
def onCursor (t c : Handle) : Traced Handle Unit := do
  tell [.use c]
  tell [.use t]

/-- `mdb_get`, `mdb_put` and `mdb_del`. -/
def onTxn (t : Handle) : Traced Handle Unit := tell [.use t]

def mdbGet (f : Faults) (site : Site) (t : Handle) (s : Store) (k : CustomKey) :
    Traced Handle (Option Item) := do
  onTxn t
  pure (if f.fails site then none else Nstore.mdbGet s k)

def mdbPut (f : Faults) (site : Site) (s : Store) (k : CustomKey) (d : Item) : Attempt Handle Store := do
  OptionT.lift (onTxn .txn)
  if f.fails site then failure else pure (Nstore.mdbPut s k d)

def mdbDel (f : Faults) (site : Site) (s : Store) (k : CustomKey) : Attempt Handle Store := do
  OptionT.lift (onTxn .txn)
  if f.fails site then failure else OptionT.mk (pure (Nstore.mdbDel s k))

/-! ### `db.cpp` -/

def getMeta (f : Faults) (site : Site) (t : Handle) (s : Store) (ns : Nat) (id : Int) :
    Traced Handle (Option Int) := do
  let d ← mdbGet f site t s (metaKey ns id)
  pure (d.map Item.i64)

def putMeta (f : Faults) (site : Site) (s : Store) (ns : Nat) (id val : Int) : Attempt Handle Store :=
  mdbPut f site s (metaKey ns id) (.num val)

/-- `db::exists`. -/
def nsExists (f : Faults) (t : Handle) (s : Store) (ns : Nat) : Traced Handle Bool := do
  let tx ← getMeta f .existsGet t s ns metaTx
  pure tx.isSome

/-- The `put_meta`s of `setup`; the store is kept where one fails. -/
def putMetas (f : Faults) (ns : Nat) : Nat → List (Int × Int) → Store → Traced Handle (Bool × Store)
  | _, [], s => pure (false, s)
  | i, (id, val) :: rest, s => do
      match ← (putMeta f (.setupMeta i) s ns id val).run with
      | none => pure (true, s)
      | some s => putMetas f ns (i + 1) rest s

/-- The cursor puts of `setup`. -/
def putAll (f : Faults) : Nat → List Entry → Store → Traced Handle Store
  | _, [], s => pure s
  | i, (k, d) :: rest, s => do
      onCursor .txn .setupCursor
      putAll f (i + 1) rest (if f.fails (.setupPut i) then s else Nstore.mdbPut s k d)

def setup (f : Faults) (s : Store) (ns : Nat) : Traced Handle (Bool × Store) := do
  if ← nsExists f .txn s ns then pure (true, s)
  else do
    match ← putMetas f ns 0 (setupMetas ns) s with
    | (true, s) => pure (true, s)
    | (false, s) =>
        if ← mdbCursorOpen f .cursorOpen .txn .setupCursor then pure (true, s)
        else do
          let s ← putAll f 0 (setupWrites ns) s
          mdbCursorClose .setupCursor
          pure (false, s)

/--
The loop over a cursor: the visitor breaks with `none`, and what is left of the list is
what the next `MDB_NEXT`s find.
-/
def cursorLoop {σ : Type} (f : Faults) (site : Nat → Site) (t c : Handle)
    (visitor : σ → Entry → Option σ) : Nat → σ → List Entry → Traced Handle σ
  | _, st, [] => pure st
  | k, st, x :: rest =>
      match visitor st x with
      | none => pure st
      | some st => do
          onCursor t c
          if f.fails (site (k + 1)) then pure st
          else cursorLoop f site t c visitor (k + 1) st rest

/-- `query` with a visitor, on the attribute whose query it serves. -/
def query {σ : Type} (f : Faults) (t : Handle) (s : Store) (a : Int) (start : CustomKey)
    (visitor : σ → Entry → Option σ) (st : σ) : Traced Handle (Bool × σ) := do
  if ← mdbCursorOpen f (.queryOpen a) t .queryCursor then pure (true, st)
  else do
    onCursor t .queryCursor
    match (if f.fails (.queryGet a 0) then [] else mdbSetRange s start) with
    | [] => do
        mdbCursorClose .queryCursor
        pure (true, st)
    | first :: rest => do
        let st ← cursorLoop f (.queryGet a) t .queryCursor visitor 0 st (first :: rest)
        mdbCursorClose .queryCursor
        pure (false, st)

def queryA (f : Faults) (t : Handle) (s : Store) (ns : Nat) (tx a : Int) :
    Traced Handle (List Datom) := do
  let r ← query f t s a (queryMinKey ns a) (queryVisit ns (txBound tx) a) ⟨-1, [], []⟩
  pure (BatchScan.finish (queryBatch a) r.2)

def lastDatom (f : Faults) (i : Nat) (s : Store) (start : CustomKey) :
    Traced Handle (Option CustomKey) := do
  if ← mdbCursorOpen f (.lastOpen i) .txn .lastCursor then pure none
  else do
    onCursor .txn .lastCursor
    match (if f.fails (.lastGet i 0) then [] else mdbSetRange s (lastProbe start)) with
    | [] => do
        mdbCursorClose .lastCursor
        pure none
    | _ :: _ => do
        onCursor .txn .lastCursor
        match (if f.fails (.lastGet i 1) then none else mdbPrev s (lastProbe start)) with
        | none => do
            mdbCursorClose .lastCursor
            pure none
        | some (k, _) => do
            mdbCursorClose .lastCursor
            pure (if start.e ≠ k.e ∨ start.a ≠ k.a ∨ start.ns ≠ k.ns then none else some k)

/-! ### Namespaces -/

def handleNamespace (f : Faults) (s : Store) (arg : Option Json) : Traced Handle (Reply × Store) :=
  match arg with
  | some (.int64 m) => do
      if ← mdbTxnBegin f then pure (.ackErr, s)
      else do
        let r ← setup f s (toNamespace m.toInt)
        if ← mdbTxnCommit f then pure (.ackErr, s) else pure (.ackOk, r.2)
  | _ => pure (.ackErr, s)

def handleSelect (f : Faults) (s : Store) (arg : Option Json) : Traced Handle (Option Nat) :=
  match arg with
  | some (.int64 m) => do
      if ← mdbTxnRenew f then pure none
      else do
        let e ← nsExists f .readTxn s (toNamespace m.toInt)
        mdbTxnReset
        pure (if e then some (toNamespace m.toInt) else none)
  | _ => pure none

/-! ### Facts -/

def handleFactsAt (f : Faults) (s : Store) (ns : Nat) (tx : Int) : Traced Handle Reply := do
  if ← mdbCursorOpen f .cursorOpen .readTxn .factsCursor then do
    mdbTxnReset
    pure .ackErr
  else do
    onCursor .readTxn .factsCursor
    match (if f.fails (.cursorGet 0) then [] else mdbSetRange s (factsMinKey ns)) with
    | [] => do
        mdbCursorClose .factsCursor
        mdbTxnReset
        pure .ackErr
    | first :: rest => do
        let ds ← queryA f .readTxn s ns tx dbCardinality
        let many := (ds.filter fun d => d.i f.uninit = dbCardinalityMany).map (·.e)
        let st ← cursorLoop f .cursorGet .readTxn .factsCursor (factsVisit ns (txBound tx) many) 0
          ⟨(-1, -1), [], []⟩ (first :: rest)
        mdbCursorClose .factsCursor
        mdbTxnReset
        pure (.facts tx (BatchScan.finish factsBatch st))

def handleFacts (f : Faults) (s : Store) (ns : Nat) (arg : Option Json) : Traced Handle Reply :=
  match arg with
  | some (.int64 i) => do
      if ← mdbTxnRenew f then pure .ackErr
      else if i.toInt < 0 then do
        match ← getMeta f (.getMeta metaTx) .readTxn s ns metaTx with
        | none => do
            mdbTxnReset
            pure .ackErr
        | some tx => handleFactsAt f s ns tx
      else handleFactsAt f s ns i.toInt
  | _ => pure .ackErr

/-! ### Transact -/

def removeLast (f : Faults) (i ns : Nat) (s : Store) (ck : CustomKey) : Attempt Handle Store := do
  match ← OptionT.lift (lastDatom f i s ck) with
  | none => pure s
  | some last => mdbDel f (.lastDel i) s (uniqueKey ns last)

/-- What is done before the index entry is put, by what `mdb_get` has found. -/
def checkOwner (f : Faults) (i : Nat) (txn : Txn) (s : Store) (ck : CustomKey) :
    Option Item → Attempt Handle Store
  | some tmp => if tmp.i64 ≠ ck.e then failure else pure s
  | none => removeLast f i txn.ns s ck

def checkUnique (f : Faults) (i : Nat) (txn : Txn) (s : Store) (ck : CustomKey) (retract : Bool) :
    Attempt Handle Store :=
  if ck.a ∉ txn.eUnique then pure s
  else if retract then mdbDel f (.uniqueDel i) s (uniqueKey txn.ns ck)
  else do
    let tmp ← OptionT.lift (mdbGet f (.uniqueGet i) .txn s (uniqueKey txn.ns ck))
    let s ← checkOwner f i txn s ck tmp
    mdbPut f (.uniquePut i) s (uniqueKey txn.ns ck) (.num ck.e)

/-- `cursor_put_padded` makes one call, whichever way it goes. -/
def putSorted (f : Faults) (i : Nat) (sort : Nat) (st : Store × Cursor) (ck : CustomKey)
    (data : Bytes) : Attempt Handle (Store × Cursor) := do
  OptionT.lift (onCursor .txn .transactCursor)
  if f.fails (.putPadded i sort) then failure
  else OptionT.mk (pure (cursorPutPadded st.1 st.2 { ck with sort := sort } data))

def putDatom (f : Faults) (i : Nat) (st : Store × Cursor) (ck : CustomKey) (data : Bytes) :
    Attempt Handle (Store × Cursor) := do
  let st ← putSorted f i sortEATV st ck data
  if ck.a < dbInitialId then putSorted f i sortAETV st ck data else pure st

def insertFact (f : Faults) (i : Nat) (txn : Txn) (st : TxnState) (e a : Int) (enc : Encoded)
    (retract : Bool) : Attempt Handle TxnState := do
  let ck := datomKey txn e a enc retract
  let s ← checkUnique f i txn st.store { ck with t := 0 } retract
  let sm ← putDatom f i (s, st.mc) ck enc.data
  pure { st with
    store := sm.1, mc := sm.2,
    newFacts := st.newFacts ++
      [{ e := e, a := a, v := enc.shown, tx := txn.tx, retract := retract }] }

def transactValue (sha256 : Bytes → Value) (f : Faults) (i : Nat) (txn : Txn) (st : TxnState)
    (e a : Int) (v r : Json) : Attempt Handle TxnState :=
  match v with
  | .int64 x =>
      let (x, ids) := resolveValue txn.eRef st.ids a x.toInt
      insertFact f i txn { st with ids := ids } e a (encodeInt x) (retractFlag r)
  | .string str =>
      if 32 < str.length && f.fails (.sha256 i) then failure
      else insertFact f i txn st e a (encodeStr sha256 str) (retractFlag r)
  | _ => pure st

def transactFact (sha256 : Bytes → Value) (f : Faults) (i : Nat) (txn : Txn) (st : TxnState)
    (v : Json) : Attempt Handle TxnState :=
  match v with
  | .array [je, ja, jv, jr] =>
      match ja, je with
      | .int64 a, .int64 e =>
          match resolveEntity st.ids e.toInt with
          | none => failure
          | some (e, ids) => transactValue sha256 f i txn { st with ids := ids } e a.toInt jv jr
      | _, _ => failure
  | _ => failure

def transactLoop (sha256 : Bytes → Value) (f : Faults) (txn : Txn) :
    Nat → TxnState → List Json → Attempt Handle TxnState
  | _, st, [] => pure st
  | i, st, v :: rest => do
      let st ← transactFact sha256 f i txn st v
      transactLoop sha256 f txn (i + 1) st rest

/-- The counters and the schema queries. -/
def transactBegin (f : Faults) (s : Store) (ns : Nat) : Attempt Handle (Txn × TxnState) := do
  let tx ← OptionT.mk (getMeta f (.getMeta metaTx) .txn s ns metaTx)
  let id ← OptionT.mk (getMeta f (.getMeta metaId) .txn s ns metaId)
  let unique ← OptionT.lift (queryA f .txn s ns tx dbUnique)
  -- `e_card` is filled, and not looked at
  let _ ← OptionT.lift (queryA f .txn s ns tx dbCardinality)
  let type ← OptionT.lift (queryA f .txn s ns tx dbType)
  pure ({ ns := ns, tx := tx,
          eUnique := (unique.filter fun d => d.i f.uninit = dbUniqueYes).map (·.e),
          eRef := type.map (·.e) },
        { store := s, mc := none, ids := { newIds := [], id := id }, newFacts := [] })

/-- The loop between the opening and the closing of its cursor. -/
def transactFacts (sha256 : Bytes → Value) (f : Faults) (txn : Txn) (st : TxnState)
    (facts : List Json) : Traced Handle (Option TxnState) := do
  if ← mdbCursorOpen f .cursorOpen .txn .transactCursor then pure none
  else do
    match ← (transactLoop sha256 f txn 0 st facts).run with
    | none => do
        -- err_cur
        mdbCursorClose .transactCursor
        pure none
    | some st => do
        mdbCursorClose .transactCursor
        pure (some st)

/-- Everything between `txn_begin` and `mdb_txn_commit`. -/
def transactBody (sha256 : Bytes → Value) (f : Faults) (s : Store) (ns : Nat) (facts : List Json) :
    Attempt Handle (Reply × Store) := do
  let (txn, st) ← transactBegin f s ns
  let st ← OptionT.mk (transactFacts sha256 f txn st facts)
  let s ← putMeta f (.putMeta metaTx) st.store txn.ns metaTx (txn.tx + 1)
  let s ← putMeta f (.putMeta metaId) s txn.ns metaId st.ids.id
  pure (.response txn.tx st.newFacts st.ids.newIds, s)

def handleTransact (sha256 : Bytes → Value) (f : Faults) (s : Store) (ns : Nat)
    (arg : Option Json) : Traced Handle (Reply × Store) :=
  match arg with
  | some (.array facts) =>
      if facts.length = 0 then pure (.ackErr, s)
      else do
        if ← mdbTxnBegin f then pure (.ackErr, s)
        else do
          match ← (transactBody sha256 f s ns facts).run with
          | none => do
              -- err_tx
              mdbTxnAbort
              pure (.ackErr, s)
          | some r =>
              if ← mdbTxnCommit f then do
                -- `goto err_tx`
                mdbTxnAbort
                pure (.ackErr, s)
              else pure r
  | _ => pure (.ackErr, s)

end Nstore.Calls
