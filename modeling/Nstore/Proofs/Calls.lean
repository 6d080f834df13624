/-
The handlers call by call are the handlers.

Where none of the calls fails that `Oracle` has no name for, the handlers of
`Calls.lean` return what those of `Handler.lean` return.
-/
import Nstore.Calls
import Nstore.Proofs.Transact

namespace Nstore.Calls

open Handles

/-! ### What the handlers return -/

/-- The failures as the handlers of `Handler.lean` see them. -/
def Faults.oracle (f : Faults) : Oracle where
  uninit := f.uninit
  fails
    | .txnBegin => f.fails .txnBegin
    | .txnRenew => f.fails .txnRenew
    | .getMeta id => f.fails (.getMeta id)
    | .query a => f.fails (.queryOpen a) || f.fails (.queryGet a 0)
    | .cursorOpen => f.fails .cursorOpen
    | .setRange => f.fails (.cursorGet 0)
    | .setupMeta i => f.fails (.setupMeta i)
    | .setupPut i => f.fails (.setupPut i)
    | .sha256 i => f.fails (.sha256 i)
    | .uniqueDel i => f.fails (.uniqueDel i)
    | .uniqueGet i => f.fails (.uniqueGet i)
    | .lastDatom i => f.fails (.lastOpen i) || f.fails (.lastGet i 0) || f.fails (.lastGet i 1)
    | .lastDel i => f.fails (.lastDel i)
    | .uniquePut i => f.fails (.uniquePut i)
    | .putPadded i sort => f.fails (.putPadded i sort)
    | .putMeta id => f.fails (.putMeta id)
    | .commit => f.fails .commit

theorem Faults.oracle_txnBegin (f : Faults) : f.oracle.fails .txnBegin = f.fails .txnBegin := rfl

theorem Faults.oracle_txnRenew (f : Faults) : f.oracle.fails .txnRenew = f.fails .txnRenew := rfl

theorem Faults.oracle_getMeta (f : Faults) (id : Int) :
    f.oracle.fails (.getMeta id) = f.fails (.getMeta id) := rfl

theorem Faults.oracle_cursorOpen (f : Faults) :
    f.oracle.fails .cursorOpen = f.fails .cursorOpen := rfl

theorem Faults.oracle_setRange (f : Faults) :
    f.oracle.fails .setRange = f.fails (.cursorGet 0) := rfl

/-- No call fails that `Oracle` has no name for. -/
structure Faults.Named (f : Faults) : Prop where
  existsGet : f.fails .existsGet = false
  cursorNext : ∀ k, f.fails (.cursorGet (k + 1)) = false
  queryNext : ∀ a k, f.fails (.queryGet a (k + 1)) = false

section Out

variable {f : Faults} {s : Store} {ns : Nat}

@[simp] theorem out_mdbTxnBegin (f : Faults) : (mdbTxnBegin f).out = f.fails .txnBegin := by
  unfold mdbTxnBegin
  split
  · next h => rw [h, out_pure]
  · next h => simpa using h

@[simp] theorem out_mdbTxnCommit (f : Faults) : (mdbTxnCommit f).out = f.fails .commit := rfl

@[simp] theorem out_mdbTxnRenew (f : Faults) : (mdbTxnRenew f).out = f.fails .txnRenew := by
  unfold mdbTxnRenew
  split
  · next h => rw [h, out_pure]
  · next h => simpa using h

@[simp] theorem out_mdbCursorOpen (f : Faults) (site : Site) (t c : Handle) :
    (mdbCursorOpen f site t c).out = f.fails site := by
  unfold mdbCursorOpen
  rw [out_bind]
  split
  · next h => rw [h, out_pure]
  · next h => simpa using h

@[simp] theorem out_getMeta (site : Site) (t : Handle) (id : Int) :
    (getMeta f site t s ns id).out = if f.fails site then none else Nstore.getMeta s ns id := by
  show (if f.fails site then none else _ : Option Item).map Item.i64 = _
  split
  · rfl
  · rfl

@[simp] theorem out_nsExists (hf : f.Named) (t : Handle) :
    (nsExists f t s ns).out = Nstore.nsExists s ns := by
  unfold nsExists Nstore.nsExists
  simp [hf.existsGet]

@[simp] theorem out_mdbPut (site : Site) (k : CustomKey) (d : Item) :
    (mdbPut f site s k d).run.out = if f.fails site then none else some (Nstore.mdbPut s k d) := by
  unfold mdbPut
  rw [attempt_out_bind]
  split
  · rfl
  · rfl

@[simp] theorem out_mdbDel (site : Site) (k : CustomKey) :
    (mdbDel f site s k).run.out = if f.fails site then none else Nstore.mdbDel s k := by
  unfold mdbDel
  rw [attempt_out_bind]
  split
  · rfl
  · rfl

private theorem out_putMetas : ∀ {ms : List (Int × Int)} {i : Nat} {s : Store},
    (putMetas f ns i ms s).out = Nstore.putMetas f.oracle ns i ms s := by
  intro ms
  induction ms with
  | nil =>
      intro i s
      rfl
  | cons m rest ih =>
      intro i s
      obtain ⟨id, val⟩ := m
      unfold putMetas Nstore.putMetas putMeta
      rw [out_bind, out_mdbPut]
      show _ = if f.fails (.setupMeta i) then _ else _
      by_cases h : f.fails (.setupMeta i) = true
      · rw [if_pos h, if_pos h]
        rfl
      · rw [if_neg h, if_neg h]
        exact ih

private theorem out_putAll : ∀ {es : List Entry} {i : Nat} {s : Store},
    (putAll f i es s).out = Nstore.putAll f.oracle i es s := by
  intro es
  induction es with
  | nil =>
      intro i s
      rfl
  | cons x rest ih =>
      intro i s
      unfold putAll Nstore.putAll
      rw [out_bind, ih]
      rfl

private theorem out_setup (hf : f.Named) : (setup f s ns).out = Nstore.setup f.oracle s ns := by
  unfold setup Nstore.setup
  rw [out_bind, out_nsExists hf]
  split
  · rfl
  · rw [out_bind, out_putMetas]
    rcases Nstore.putMetas f.oracle ns 0 (setupMetas ns) s with ⟨failed, s'⟩
    cases failed with
    | true => rfl
    | false =>
        rw [out_bind, out_mdbCursorOpen]
        show _ = if f.fails .cursorOpen then _ else _
        split
        · rfl
        · rw [out_bind, out_bind, out_putAll]
          rfl

/-- A loop whose moves all succeed is the loop over the list. -/
theorem out_cursorLoop {σ : Type} {site : Nat → Site} {t c : Handle}
    {visitor : σ → Entry → Option σ} (hf : ∀ k, f.fails (site (k + 1)) = false) :
    ∀ {es : List Entry} {k : Nat} {st : σ},
      (cursorLoop f site t c visitor k st es).out = Nstore.cursorLoop visitor st es := by
  intro es
  induction es with
  | nil =>
      intro k st
      rfl
  | cons x rest ih =>
      intro k st
      unfold cursorLoop Nstore.cursorLoop
      cases visitor st x with
      | none => rfl
      | some st =>
          simp only [out_bind, hf, Bool.false_eq_true, if_false]
          exact ih

private theorem out_query {σ : Type} (hf : f.Named) (t : Handle) (a : Int) (start : CustomKey)
    (visitor : σ → Entry → Option σ) (st : σ) :
    (query f t s a start visitor st).out.2 =
      if f.oracle.fails (.query a) then st else Nstore.cursorLoop visitor st (mdbSetRange s start) := by
  unfold query
  rw [out_bind, out_mdbCursorOpen]
  show _ = if f.fails (.queryOpen a) || f.fails (.queryGet a 0) then _ else _
  by_cases hopen : f.fails (.queryOpen a) = true
  · rw [if_pos hopen, hopen]
    rfl
  · rw [if_neg hopen, out_bind]
    by_cases hget : f.fails (.queryGet a 0) = true
    · rw [if_pos hget, hget, Bool.or_true, if_pos rfl]
      rfl
    · rw [if_neg hget, if_neg (by simp [hopen, hget])]
      cases mdbSetRange s start with
      | nil => rfl
      | cons x rest =>
          rw [out_bind, out_bind, out_pure, out_cursorLoop (hf.queryNext a)]

@[simp] theorem out_queryA (hf : f.Named) (t : Handle) (tx a : Int) :
    (queryA f t s ns tx a).out = queryOr f.oracle s ns tx a := by
  unfold queryA queryOr
  rw [out_bind, out_pure, out_query hf]
  split
  · rfl
  · rfl

private theorem out_lastDatom (i : Nat) (start : CustomKey) :
    (lastDatom f i s start).out =
      if f.oracle.fails (.lastDatom i) then none else Nstore.lastDatom s start := by
  unfold lastDatom Nstore.lastDatom
  rw [out_bind, out_mdbCursorOpen]
  show _ = if f.fails (.lastOpen i) || f.fails (.lastGet i 0) || f.fails (.lastGet i 1) then _ else _
  by_cases hopen : f.fails (.lastOpen i) = true
  · rw [if_pos hopen, hopen]
    rfl
  · rw [if_neg hopen, out_bind]
    by_cases hget : f.fails (.lastGet i 0) = true
    · rw [if_pos hget, hget, Bool.or_true, Bool.true_or, if_pos rfl]
      rfl
    · rw [if_neg hget]
      cases mdbSetRange s (lastProbe start) with
      | nil => exact (ite_self none).symm
      | cons x rest =>
          rw [out_bind]
          by_cases hprev : f.fails (.lastGet i 1) = true
          · rw [if_pos hprev, hprev, Bool.or_true, if_pos rfl]
            rfl
          · rw [if_neg hprev, if_neg (by simp [hopen, hget, hprev])]
            cases mdbPrev s (lastProbe start) with
            | none => rfl
            | some y => rfl

/-- **The namespace handler call by call.** -/
theorem out_handleNamespace (hf : f.Named) (arg : Option Json) :
    (handleNamespace f s arg).out = Nstore.handleNamespace f.oracle s arg := by
  cases arg with
  | none => rfl
  | some v =>
      cases v with
      | int64 m =>
          show Traced.out (_ >>= _) = if f.fails .txnBegin then _ else if f.fails .commit then _ else _
          rw [out_bind, out_mdbTxnBegin]
          split
          · rfl
          · rw [out_bind, out_bind, out_mdbTxnCommit, out_setup hf]
            split
            · rfl
            · rfl
      | _ => rfl

/-- **The part of the select handler that reads the store.** -/
theorem out_handleSelect (hf : f.Named) (arg : Option Json) :
    (handleSelect f s arg).out = Nstore.handleSelect f.oracle s arg := by
  cases arg with
  | none => rfl
  | some v =>
      cases v with
      | int64 m =>
          show Traced.out (_ >>= _) = if f.fails .txnRenew then _ else _
          rw [out_bind, out_mdbTxnRenew]
          split
          · rfl
          · rw [out_bind, out_bind, out_nsExists hf, out_pure]
      | _ => rfl

theorem out_handleFactsAt (hf : f.Named) (tx : Int) :
    (handleFactsAt f s ns tx).out = Nstore.handleFactsAt f.oracle s ns tx := by
  unfold handleFactsAt Nstore.handleFactsAt manySet
  rw [out_bind, out_mdbCursorOpen, Faults.oracle_cursorOpen, Faults.oracle_setRange]
  split
  · rfl
  · rw [out_bind]
    generalize (if f.fails (.cursorGet 0) then [] else mdbSetRange s (factsMinKey ns)) = es
    cases es with
    | nil => rfl
    | cons first rest =>
        rw [out_bind, out_bind, out_bind, out_bind, out_pure, out_queryA hf,
          out_cursorLoop hf.cursorNext]
        rfl

/-- **The facts handler call by call.** -/
theorem out_handleFacts (hf : f.Named) (arg : Option Json) :
    (handleFacts f s ns arg).out = Nstore.handleFacts f.oracle s ns arg := by
  cases arg with
  | none => rfl
  | some v =>
      cases v with
      | int64 i =>
          rw [handleFacts, Nstore.handleFacts, out_bind, out_mdbTxnRenew, Faults.oracle_txnRenew,
            Faults.oracle_getMeta]
          split
          · rfl
          · split
            · rw [out_bind, out_getMeta]
              generalize (if f.fails (.getMeta metaTx) then none else Nstore.getMeta s ns metaTx) = tx
              cases tx with
              | none => rfl
              | some tx => exact out_handleFactsAt hf tx
            · exact out_handleFactsAt hf _
      | _ => rfl

private theorem out_removeLast (i : Nat) (ck : CustomKey) :
    (removeLast f i ns s ck).run.out = Nstore.removeLast f.oracle i ns s ck := by
  unfold removeLast Nstore.removeLast
  rw [attempt_out_bind, attempt_out_lift, out_lastDatom, Option.bind_some]
  generalize (if f.oracle.fails (.lastDatom i) then none else Nstore.lastDatom s ck) = last
  cases last with
  | none => rfl
  | some last => exact out_mdbDel _ _

private theorem out_checkOwner (i : Nat) (txn : Txn) (ck : CustomKey) (r : Option Item) :
    (checkOwner f i txn s ck r).run.out =
      match r with
      | some tmp => if tmp.i64 ≠ ck.e then none else some s
      | none => Nstore.removeLast f.oracle i txn.ns s ck := by
  cases r with
  | none => exact out_removeLast i ck
  | some tmp =>
      show (if tmp.i64 ≠ ck.e then _ else _ : Attempt Handle Store).run.out =
        if tmp.i64 ≠ ck.e then _ else _
      split
      · rfl
      · rfl

private theorem out_checkUnique (i : Nat) (txn : Txn) (ck : CustomKey) (retract : Bool) :
    (checkUnique f i txn s ck retract).run.out =
      Nstore.checkUnique f.oracle i txn s ck retract := by
  unfold checkUnique Nstore.checkUnique
  split
  · rfl
  · split
    · exact out_mdbDel _ _
    · rw [attempt_out_bind, attempt_out_lift, Option.bind_some, attempt_out_bind, out_checkOwner]
      simp only [out_mdbPut]
      rfl

theorem out_putSorted (i sort : Nat) (st : Store × Cursor) (ck : CustomKey) (data : Bytes) :
    (putSorted f i sort st ck data).run.out = Nstore.putSorted f.oracle i sort st ck data := by
  unfold putSorted Nstore.putSorted
  rw [attempt_out_bind]
  show (if f.fails (.putPadded i sort) then _ else _ : Attempt Handle (Store × Cursor)).run.out =
    if f.fails (.putPadded i sort) then _ else _
  split
  · rfl
  · rfl

private theorem out_putDatom (i : Nat) (st : Store × Cursor) (ck : CustomKey) (data : Bytes) :
    (putDatom f i st ck data).run.out = Nstore.putDatom f.oracle i st ck data := by
  unfold putDatom Nstore.putDatom
  rw [attempt_out_bind, out_putSorted]
  congr 1
  funext st
  split
  · exact out_putSorted _ _ _ _ _
  · rfl

theorem out_insertFact (i : Nat) (txn : Txn) (st : TxnState) (e a : Int) (enc : Encoded)
    (retract : Bool) :
    (insertFact f i txn st e a enc retract).run.out =
      Nstore.insertFact f.oracle i txn st e a enc retract := by
  unfold insertFact Nstore.insertFact
  simp only [attempt_out_bind, out_checkUnique, out_putDatom, attempt_out_pure]
  congr 1
  funext s
  exact (Option.map_eq_bind).symm

variable {sha256 : Bytes → Value} {txn : Txn}

private theorem transactFact_of_malformed {o : Oracle} {i : Nat} {st : TxnState} {v : Json}
    (h : ∀ je ja jv jr, v ≠ .array [je, ja, jv, jr]) :
    Nstore.transactFact sha256 o i txn st v = none := by
  unfold Nstore.transactFact
  split
  · exact absurd rfl (h _ _ _ _)
  · rfl

private theorem out_transactFact (i : Nat) (st : TxnState) (v : Json) :
    (transactFact sha256 f i txn st v).run.out = Nstore.transactFact sha256 f.oracle i txn st v := by
  have hvalue : ∀ (st : TxnState) (e a : Int) (v r : Json),
      (transactValue sha256 f i txn st e a v r).run.out =
        Nstore.transactValue sha256 f.oracle i txn st e a v r := by
    intro st e a v r
    cases v with
    | int64 x => exact out_insertFact _ _ _ _ _ _ _
    | string str =>
        show (if 32 < str.length && f.fails (.sha256 i) then _ else _ :
          Attempt Handle TxnState).run.out = if 32 < str.length && f.fails (.sha256 i) then _ else _
        split
        · rfl
        · exact out_insertFact _ _ _ _ _ _ _
    | _ => rfl
  unfold transactFact
  split
  · rename_i je ja jv jr
    unfold Nstore.transactFact
    cases ja with
    | int64 a =>
        cases je with
        | int64 e =>
            simp only
            cases resolveEntity st.ids e.toInt with
            | none => rfl
            | some p => exact hvalue { st with ids := p.2 } p.1 _ jv jr
        | _ => rfl
    | _ => cases je <;> rfl
  · rename_i h
    exact (transactFact_of_malformed h).symm

private theorem out_transactLoop : ∀ {vs : List Json} {i : Nat} {st : TxnState},
    (transactLoop sha256 f txn i st vs).run.out =
      Nstore.transactLoop sha256 f.oracle txn i st vs := by
  intro vs
  induction vs with
  | nil =>
      intro i st
      rfl
  | cons v rest ih =>
      intro i st
      unfold transactLoop Nstore.transactLoop
      rw [attempt_out_bind, out_transactFact]
      congr 1
      funext st
      exact ih

private theorem out_transactBegin (hf : f.Named) :
    (transactBegin f s ns).run.out =
      (if f.fails (.getMeta metaTx) then none else Nstore.getMeta s ns metaTx).bind fun tx =>
        (if f.fails (.getMeta metaId) then none else Nstore.getMeta s ns metaId).map fun id =>
          (beginTxn f.oracle s ns tx, beginState s id) := by
  unfold transactBegin
  simp only [attempt_out_bind, OptionT.run_mk, out_getMeta, attempt_out_lift, out_queryA hf,
    Option.bind_some, attempt_out_pure]
  congr 1
  funext tx
  exact (Option.map_eq_bind).symm

private theorem out_transactFacts (st : TxnState) (vs : List Json) :
    (transactFacts sha256 f txn st vs).out =
      if f.fails .cursorOpen then none else Nstore.transactLoop sha256 f.oracle txn 0 st vs := by
  unfold transactFacts
  rw [out_bind, out_mdbCursorOpen]
  split
  · rfl
  · rw [out_bind, out_transactLoop]
    cases Nstore.transactLoop sha256 f.oracle txn 0 st vs with
    | none => rfl
    | some st => rfl

/-- A transaction is its body, if it begins and commits. -/
theorem transact_eq_body (hf : f.Named) (vs : List Json) :
    Nstore.transact sha256 f.oracle s ns vs =
      if f.fails .txnBegin || f.fails .commit then none
      else (transactBody sha256 f s ns vs).run.out := by
  have hbegin : Nstore.transactBegin f.oracle s ns =
      if f.fails .txnBegin then none else
        (transactBegin f s ns).run.out.bind fun p => if f.fails .cursorOpen then none else some p := by
    rw [out_transactBegin hf]
    unfold Nstore.transactBegin
    rw [Faults.oracle_txnBegin, Faults.oracle_getMeta, Faults.oracle_getMeta,
      Faults.oracle_cursorOpen]
    congr 1
    generalize (if f.fails (.getMeta metaTx) then none else Nstore.getMeta s ns metaTx) = tx
    generalize (if f.fails (.getMeta metaId) then none else Nstore.getMeta s ns metaId) = id
    cases tx with
    | none => rfl
    | some tx =>
        cases id with
        | none => rfl
        | some id => rfl
  have hend : ∀ txn st, Nstore.transactEnd f.oracle txn st =
      if f.fails .commit then none else
        (if f.fails (.putMeta metaTx) then none else
          some (Nstore.putMeta st.store txn.ns metaTx (txn.tx + 1))).bind fun s =>
            if f.fails (.putMeta metaId) then none else
              some (Nstore.putMeta s txn.ns metaId st.ids.id) := by
    intro txn st
    show (if f.fails (.putMeta metaTx) || f.fails (.putMeta metaId) || f.fails .commit then none
      else _) = _
    cases f.fails (.putMeta metaTx) <;> cases f.fails (.putMeta metaId) <;>
      cases f.fails .commit <;> rfl
  unfold Nstore.transact transactBody
  simp only [hbegin, hend, attempt_out_bind, OptionT.run_mk, out_transactFacts, out_mdbPut,
    attempt_out_pure, putMeta]
  cases f.fails .txnBegin with
  | true => rfl
  | false =>
      cases (transactBegin f s ns).run.out with
      | none => simp
      | some p =>
          obtain ⟨txn, st⟩ := p
          cases f.fails .cursorOpen with
          | true => simp
          | false =>
              simp only [Bool.false_eq_true, if_false, Option.bind_some, Bool.false_or]
              cases Nstore.transactLoop sha256 f.oracle txn 0 st vs with
              | none => simp
              | some st =>
                  cases f.fails .commit with
                  | true => rfl
                  | false =>
                      cases f.fails (.putMeta metaTx) <;> cases f.fails (.putMeta metaId) <;> rfl

/-- **The transact handler call by call.** -/
theorem out_handleTransact (hf : f.Named) (arg : Option Json) :
    (handleTransact sha256 f s ns arg).out = Nstore.handleTransact sha256 f.oracle s ns arg := by
  cases arg with
  | none => rfl
  | some v =>
      cases v with
      | array vs =>
          show (if vs.length = 0 then _ else _ : Traced Handle (Reply × Store)).out =
            if vs.length = 0 then _ else _
          rw [transact_eq_body hf]
          split
          · rfl
          · rw [out_bind, out_mdbTxnBegin]
            cases f.fails .txnBegin with
            | true => rfl
            | false =>
                simp only [Bool.false_eq_true, if_false, Bool.false_or]
                rw [out_bind]
                cases (transactBody sha256 f s ns vs).run.out with
                | none =>
                    rw [ite_self]
                    rfl
                | some r =>
                    rw [out_bind, out_mdbTxnCommit]
                    cases f.fails .commit with
                    | true => rfl
                    | false => rfl
      | _ => rfl

end Out

end Nstore.Calls
