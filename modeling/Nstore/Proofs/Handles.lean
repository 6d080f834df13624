/-
The protocol of the LMDB handles.

A write transaction is ended exactly once, by commit or abort; a renewed read
transaction is reset exactly once; a cursor is closed exactly once, on a write
transaction before that ends; and nothing is used after its end.  Most functions leave
the handles that they find, whatever fails in them, so a handler follows the protocol
if its few lines between `txn_begin` and its exits do.  They do, but for one exit: a
commit that fails has freed its transaction, and `handle_transact` goes on to abort it.
-/
import Nstore.Proofs.Calls

namespace Nstore.Calls

open Handles

section Functions

variable {f : Faults} {held : Held Handle} {s : Store} {ns : Nat} {t c : Handle}

/-! ### Single calls -/

/-- A cursor can be opened on a transaction, and closed again. -/
def CanOpen (held : Held Handle) (t c : Handle) : Prop :=
  held.Has t ∧ ¬ held.Has c ∧ ∀ x ∈ held, x.2 ≠ some c

instance (held : Held Handle) (t c : Handle) : Decidable (CanOpen held t c) :=
  inferInstanceAs (Decidable (_ ∧ _ ∧ _))

theorem keeps_onTxn (ht : held.Has t) : Keeps held (onTxn t) := keeps_use ht

theorem keeps_onCursor (ht : held.Has t) (hc : held.Has c) : Keeps held (onCursor t c) :=
  Keeps.bind (keeps_use hc) fun _ => keeps_use ht

/-- What a transaction's cursors hang on is held with it. -/
theorem Handle.under_has (ht : held.Has t) : ∀ p ∈ t.under, held.Has p := by
  intro p hp
  cases t with
  | txn =>
      rw [← Option.some.inj hp]
      exact ht
  | _ => exact absurd hp (by simp [Handle.under])

theorem leads_mdbCursorOpen (site : Site) (h : CanOpen held t c) :
    Leads held (mdbCursorOpen f site t c)
      (if f.fails site then held else (c, t.under) :: held) := by
  obtain ⟨ht, hc, -⟩ := h
  refine Leads.bind (keeps_use ht) ?_
  split
  · exact leads_pure held true
  · exact Leads.bind (Leads.acquire hc (Handle.under_has ht)) (leads_pure _ false)

theorem leads_mdbCursorClose (h : CanOpen held t c) :
    Leads ((c, t.under) :: held) (mdbCursorClose c) held := by
  obtain ⟨ht, hc, hfree⟩ := h
  refine Leads.release hc hfree fun hself => ?_
  exact hc (Handle.under_has ht c hself)

/-- The cursor that was just opened. -/
theorem keeps_onOpened (h : CanOpen held t c) :
    Keeps ((c, t.under) :: held) (onCursor t c) := by
  obtain ⟨x, hx, hxt⟩ := h.1
  exact keeps_onCursor ⟨x, List.mem_cons_of_mem _ hx, hxt⟩ ⟨_, List.mem_cons_self, rfl⟩

/-! ### Functions that leave the handles that they find -/

theorem keeps_getMeta (ht : held.Has t) (site : Site) (id : Int) :
    Keeps held (getMeta f site t s ns id) := by
  refine Keeps.bind ?_ fun d => keeps_pure held _
  exact Keeps.bind (keeps_onTxn ht) fun _ => keeps_pure held _

theorem keeps_nsExists (ht : held.Has t) : Keeps held (nsExists f t s ns) :=
  Keeps.bind (keeps_getMeta ht _ _) fun _ => keeps_pure held _

theorem keeps_mdbPut (ht : held.Has .txn) (site : Site) (k : CustomKey) (d : Item) :
    Keeps held (mdbPut f site s k d).run := by
  refine Keeps.attempt (Keeps.lift (keeps_onTxn ht)) fun _ => ?_
  split
  · exact keeps_pure held none
  · exact keeps_pure held (some _)

theorem keeps_mdbDel (ht : held.Has .txn) (site : Site) (k : CustomKey) :
    Keeps held (mdbDel f site s k).run := by
  refine Keeps.attempt (Keeps.lift (keeps_onTxn ht)) fun _ => ?_
  split
  · exact keeps_pure held none
  · exact keeps_pure held _

private theorem keeps_putMetas (ht : held.Has .txn) :
    ∀ {ms : List (Int × Int)} {i : Nat} {s : Store}, Keeps held (putMetas f ns i ms s) := by
  intro ms
  induction ms with
  | nil =>
      intro i s
      exact keeps_pure held _
  | cons m rest ih =>
      intro i s
      refine Keeps.bind (keeps_mdbPut ht _ _ _) fun r => ?_
      cases r with
      | none => exact keeps_pure held _
      | some s => exact ih

private theorem keeps_putAll (ht : held.Has .txn) (hc : held.Has .setupCursor) :
    ∀ {es : List Entry} {i : Nat} {s : Store}, Keeps held (putAll f i es s) := by
  intro es
  induction es with
  | nil =>
      intro i s
      exact keeps_pure held _
  | cons x rest ih =>
      intro i s
      exact Keeps.bind (keeps_onCursor ht hc) fun _ => ih

private theorem keeps_setup (h : CanOpen held .txn .setupCursor) : Keeps held (setup f s ns) := by
  refine Keeps.bind (keeps_nsExists h.1) fun e => ?_
  split
  · exact keeps_pure held _
  · refine Keeps.bind (keeps_putMetas h.1) fun r => ?_
    obtain ⟨failed, s⟩ := r
    cases failed with
    | true => exact keeps_pure held _
    | false =>
        refine Leads.bind (leads_mdbCursorOpen _ h) ?_
        rw [out_mdbCursorOpen]
        split
        · exact keeps_pure held _
        · obtain ⟨x, hx, hxt⟩ := h.1
          refine Leads.bind (keeps_putAll ⟨x, List.mem_cons_of_mem _ hx, hxt⟩
            ⟨_, List.mem_cons_self, rfl⟩) ?_
          exact Leads.bind (leads_mdbCursorClose h) (leads_pure held _)

theorem keeps_cursorLoop {σ : Type} {site : Nat → Site} {visitor : σ → Entry → Option σ}
    (hon : Keeps held (onCursor t c)) :
    ∀ {es : List Entry} {k : Nat} {st : σ}, Keeps held (cursorLoop f site t c visitor k st es) := by
  intro es
  induction es with
  | nil =>
      intro k st
      exact keeps_pure held st
  | cons x rest ih =>
      intro k st
      unfold cursorLoop
      split
      · exact keeps_pure held st
      · refine Keeps.bind hon fun _ => ?_
        split
        · exact keeps_pure held _
        · exact ih

private theorem keeps_query {σ : Type} (h : CanOpen held t .queryCursor) (a : Int)
    (start : CustomKey)
    (visitor : σ → Entry → Option σ) (st : σ) : Keeps held (query f t s a start visitor st) := by
  refine Leads.bind (leads_mdbCursorOpen _ h) ?_
  rw [out_mdbCursorOpen]
  split
  · exact keeps_pure held _
  · refine Leads.bind (keeps_onOpened h) ?_
    split
    · exact Leads.bind (leads_mdbCursorClose h) (leads_pure held _)
    · refine Leads.bind (keeps_cursorLoop (keeps_onOpened h)) ?_
      exact Leads.bind (leads_mdbCursorClose h) (leads_pure held _)

theorem keeps_queryA (h : CanOpen held t .queryCursor) (tx a : Int) :
    Keeps held (queryA f t s ns tx a) :=
  Keeps.bind (keeps_query h _ _ _ _) fun _ => keeps_pure held _

private theorem keeps_lastDatom (h : CanOpen held .txn .lastCursor) (i : Nat) (start : CustomKey) :
    Keeps held (lastDatom f i s start) := by
  refine Leads.bind (leads_mdbCursorOpen _ h) ?_
  rw [out_mdbCursorOpen]
  split
  · exact keeps_pure held _
  · refine Leads.bind (keeps_onOpened h) ?_
    split
    · exact Leads.bind (leads_mdbCursorClose h) (leads_pure held _)
    · refine Leads.bind (keeps_onOpened h) ?_
      split
      · exact Leads.bind (leads_mdbCursorClose h) (leads_pure held _)
      · exact Leads.bind (leads_mdbCursorClose h) (leads_pure held _)

/-! ### The fact loop -/

theorem keeps_removeLast (h : CanOpen held .txn .lastCursor) (i : Nat) (ck : CustomKey) :
    Keeps held (removeLast f i ns s ck).run := by
  refine Keeps.attempt (Keeps.lift (keeps_lastDatom h i ck)) fun last => ?_
  cases last with
  | none => exact keeps_pure held (some s)
  | some last => exact keeps_mdbDel h.1 _ _

private theorem keeps_checkUnique (h : CanOpen held .txn .lastCursor) (i : Nat) (txn : Txn)
    (ck : CustomKey) (retract : Bool) : Keeps held (checkUnique f i txn s ck retract).run := by
  unfold checkUnique
  split
  · exact keeps_pure held (some s)
  · split
    · exact keeps_mdbDel h.1 _ _
    · have hget : Keeps held (mdbGet f (.uniqueGet i) .txn s (uniqueKey txn.ns ck)) :=
        Keeps.bind (keeps_onTxn h.1) fun _ => keeps_pure held _
      refine Keeps.attempt (Keeps.lift hget) fun tmp => ?_
      refine Keeps.attempt ?_ fun s => keeps_mdbPut h.1 _ _ _
      cases tmp with
      | none => exact keeps_removeLast h i ck
      | some tmp =>
          show Keeps held (if tmp.i64 ≠ ck.e then failure else pure s : Attempt Handle Store).run
          split
          · exact keeps_pure held none
          · exact keeps_pure held (some s)

theorem keeps_putSorted (ht : held.Has .txn) (hc : held.Has .transactCursor) (i sort : Nat)
    (st : Store × Cursor) (ck : CustomKey) (data : Bytes) :
    Keeps held (putSorted f i sort st ck data).run := by
  refine Keeps.attempt (Keeps.lift (keeps_onCursor ht hc)) fun _ => ?_
  split
  · exact keeps_pure held none
  · exact keeps_pure held _

theorem keeps_insertFact (h : CanOpen held .txn .lastCursor) (hc : held.Has .transactCursor)
    (i : Nat) (txn : Txn) (st : TxnState) (e a : Int) (enc : Encoded) (retract : Bool) :
    Keeps held (insertFact f i txn st e a enc retract).run := by
  refine Keeps.attempt (keeps_checkUnique h _ _ _ _) fun s => ?_
  refine Keeps.attempt ?_ fun sm => keeps_pure held (some _)
  refine Keeps.attempt (keeps_putSorted h.1 hc _ _ _ _ _) fun st => ?_
  split
  · exact keeps_putSorted h.1 hc _ _ _ _ _
  · exact keeps_pure held (some _)

variable {sha256 : Bytes → Value} {txn : Txn}

private theorem keeps_transactFact (h : CanOpen held .txn .lastCursor)
    (hc : held.Has .transactCursor)
    (i : Nat) (st : TxnState) (v : Json) : Keeps held (transactFact sha256 f i txn st v).run := by
  have hvalue : ∀ (st : TxnState) (e a : Int) (v r : Json),
      Keeps held (transactValue sha256 f i txn st e a v r).run := by
    intro st e a v r
    unfold transactValue
    split
    · exact keeps_insertFact h hc _ _ _ _ _ _ _
    · split
      · exact keeps_pure held none
      · exact keeps_insertFact h hc _ _ _ _ _ _ _
    · exact keeps_pure held (some _)
  unfold transactFact
  split
  · split
    · split
      · exact keeps_pure held none
      · exact hvalue _ _ _ _ _
    · exact keeps_pure held none
  · exact keeps_pure held none

private theorem keeps_transactLoop (h : CanOpen held .txn .lastCursor)
    (hc : held.Has .transactCursor) :
    ∀ {vs : List Json} {i : Nat} {st : TxnState},
      Keeps held (transactLoop sha256 f txn i st vs).run := by
  intro vs
  induction vs with
  | nil =>
      intro i st
      exact keeps_pure held (some st)
  | cons v rest ih =>
      intro i st
      exact Keeps.attempt (keeps_transactFact h hc i st v) fun st => ih

/-- Whatever fails between `txn_begin` and the commit, only the transaction is left. -/
theorem keeps_transactBody (vs : List Json) :
    Keeps [(.txn, none)] (transactBody sha256 f s ns vs).run := by
  have ht : Held.Has [((.txn : Handle), (none : Option Handle))] .txn := by decide
  refine Keeps.attempt ?_ fun p => ?_
  · refine Keeps.attempt (keeps_getMeta ht _ _) fun tx => ?_
    refine Keeps.attempt (keeps_getMeta ht _ _) fun id => ?_
    refine Keeps.attempt (Keeps.lift (keeps_queryA (by decide) _ _)) fun unique => ?_
    refine Keeps.attempt (Keeps.lift (keeps_queryA (by decide) _ _)) fun _ => ?_
    refine Keeps.attempt (Keeps.lift (keeps_queryA (by decide) _ _)) fun type => ?_
    exact keeps_pure _ (some _)
  · obtain ⟨txn, st⟩ := p
    refine Keeps.attempt ?_ fun st => ?_
    · have hopen : CanOpen [(.txn, none)] .txn .transactCursor := by decide
      refine Leads.bind (leads_mdbCursorOpen _ hopen) ?_
      rw [out_mdbCursorOpen]
      split
      · exact keeps_pure _ none
      · refine Leads.bind (keeps_transactLoop (by decide) (by decide)) ?_
        split
        · exact Leads.bind (leads_mdbCursorClose hopen) (leads_pure _ none)
        · exact Leads.bind (leads_mdbCursorClose hopen) (leads_pure _ (some _))
    · refine Keeps.attempt (keeps_mdbPut ht _ _ _) fun s => ?_
      refine Keeps.attempt (keeps_mdbPut ht _ _ _) fun s => ?_
      exact keeps_pure _ (some _)

/-! ### The handlers -/

theorem leads_mdbTxnBegin (f : Faults) :
    Leads [] (mdbTxnBegin f) (if f.fails .txnBegin then [] else [(.txn, none)]) := by
  unfold mdbTxnBegin
  split
  · exact leads_pure [] true
  · rfl

theorem leads_mdbTxnRenew (f : Faults) :
    Leads [] (mdbTxnRenew f) (if f.fails .txnRenew then [] else [(.readTxn, none)]) := by
  unfold mdbTxnRenew
  split
  · exact leads_pure [] true
  · rfl

theorem leads_mdbTxnCommit (f : Faults) : Leads [(.txn, none)] (mdbTxnCommit f) [] := rfl

private theorem leads_mdbTxnAbort : Leads [(.txn, none)] mdbTxnAbort [] := rfl

theorem leads_mdbTxnReset : Leads [(.readTxn, none)] mdbTxnReset [] := rfl

private theorem handleNamespace_disciplined (f : Faults) (s : Store) (arg : Option Json) :
    Disciplined (handleNamespace f s arg).events := by
  show Leads [] (handleNamespace f s arg) []
  unfold handleNamespace
  split
  · refine Leads.bind (leads_mdbTxnBegin f) ?_
    rw [out_mdbTxnBegin]
    split
    · exact leads_pure [] _
    · refine Leads.bind (keeps_setup (by decide)) (Leads.bind (leads_mdbTxnCommit f) ?_)
      split
      · exact leads_pure [] _
      · exact leads_pure [] _
  · exact leads_pure [] _

private theorem handleSelect_disciplined (f : Faults) (s : Store) (arg : Option Json) :
    Disciplined (handleSelect f s arg).events := by
  show Leads [] (handleSelect f s arg) []
  unfold handleSelect
  split
  · refine Leads.bind (leads_mdbTxnRenew f) ?_
    rw [out_mdbTxnRenew]
    split
    · exact leads_pure [] _
    · exact Leads.bind (keeps_nsExists (by decide))
        (Leads.bind leads_mdbTxnReset (leads_pure [] _))
  · exact leads_pure [] _

theorem leads_handleFactsAt (tx : Int) :
    Leads [(.readTxn, none)] (handleFactsAt f s ns tx) [] := by
  have hopen : CanOpen [(.readTxn, none)] .readTxn .factsCursor := by decide
  refine Leads.bind (leads_mdbCursorOpen _ hopen) ?_
  rw [out_mdbCursorOpen]
  split
  · exact Leads.bind leads_mdbTxnReset (leads_pure [] _)
  · refine Leads.bind (keeps_onOpened hopen) ?_
    split
    · exact Leads.bind (leads_mdbCursorClose hopen)
        (Leads.bind leads_mdbTxnReset (leads_pure [] _))
    · refine Leads.bind (keeps_queryA (by decide) _ _) ?_
      refine Leads.bind (keeps_cursorLoop (keeps_onOpened hopen)) ?_
      exact Leads.bind (leads_mdbCursorClose hopen)
        (Leads.bind leads_mdbTxnReset (leads_pure [] _))

private theorem handleFacts_disciplined (f : Faults) (s : Store) (ns : Nat) (arg : Option Json) :
    Disciplined (handleFacts f s ns arg).events := by
  show Leads [] (handleFacts f s ns arg) []
  unfold handleFacts
  split
  · refine Leads.bind (leads_mdbTxnRenew f) ?_
    rw [out_mdbTxnRenew]
    split
    · exact leads_pure [] _
    · split
      · refine Leads.bind (keeps_getMeta (by decide) _ _) ?_
        split
        · exact Leads.bind leads_mdbTxnReset (leads_pure [] _)
        · exact leads_handleFactsAt _
      · exact leads_handleFactsAt _
  · exact leads_pure [] _

/--
A transact request that gets as far as its commit: its argument is a list with an
element, its transaction begins, and no call and no element stops it before.
-/
def ReachesCommit (sha256 : Bytes → Value) (f : Faults) (s : Store) (ns : Nat) : Option Json → Prop
  | some (.array facts) =>
      facts.length ≠ 0 ∧ f.fails .txnBegin = false ∧ (transactBody sha256 f s ns facts).run.out ≠ none
  | _ => False

/-- A commit that does not fail, or is not reached, leaves nothing. -/
theorem leads_handleTransact {arg : Option Json}
    (h : ¬ (ReachesCommit sha256 f s ns arg ∧ f.fails .commit = true)) :
    Leads [] (handleTransact sha256 f s ns arg) [] := by
  unfold handleTransact
  split
  · rename_i vs
    split
    · exact leads_pure [] _
    · rename_i hlen
      refine Leads.bind (leads_mdbTxnBegin f) ?_
      rw [out_mdbTxnBegin]
      split
      · exact leads_pure [] _
      · rename_i hbegin
        refine Leads.bind (keeps_transactBody vs) ?_
        split
        · exact Leads.bind leads_mdbTxnAbort (leads_pure [] _)
        · rename_i r hr
          refine Leads.bind (leads_mdbTxnCommit f) ?_
          rw [out_mdbTxnCommit]
          split
          · rename_i hcommit
            exact absurd ⟨⟨hlen, by simpa using hbegin, by simp [hr]⟩, hcommit⟩ h
          · exact leads_pure [] r
  · exact leads_pure [] _

/-- After a commit that fails the transaction is ended again. -/
theorem breaks_handleTransact {arg : Option Json} (h : ReachesCommit sha256 f s ns arg)
    (hcommit : f.fails .commit = true) : Breaks [] (handleTransact sha256 f s ns arg) := by
  unfold ReachesCommit at h
  split at h
  · rename_i vs
    obtain ⟨hlen, hbegin, hbody⟩ := h
    obtain ⟨r, hr⟩ := Option.ne_none_iff_exists'.mp hbody
    show Breaks [] (if vs.length = 0 then _ else _)
    rw [if_neg hlen]
    refine Leads.breaks (leads_mdbTxnBegin f) ?_
    rw [out_mdbTxnBegin, hbegin, if_neg (by simp), if_neg (by simp)]
    refine Leads.breaks (keeps_transactBody vs) ?_
    rw [hr]
    refine Leads.breaks (leads_mdbTxnCommit f) ?_
    rw [out_mdbTxnCommit, if_pos hcommit]
    exact Breaks.bind rfl
  · exact h.elim

/--
**The handle protocol.**  For every request to one of the four handlers, every store and
every pattern of failing calls: every transaction and every cursor is ended exactly once,
in order, and not used after that, with one exception.  It is a transact request that
reaches its commit and whose commit fails.
-/
theorem handle_protocol (sha256 : Bytes → Value) (f : Faults) (s : Store) (ns : Nat)
    (arg : Option Json) :
    Disciplined (handleNamespace f s arg).events ∧ Disciplined (handleSelect f s arg).events ∧
      Disciplined (handleFacts f s ns arg).events ∧
      (Disciplined (handleTransact sha256 f s ns arg).events ↔
        ¬ (ReachesCommit sha256 f s ns arg ∧ f.fails .commit = true)) := by
  refine ⟨handleNamespace_disciplined f s arg, handleSelect_disciplined f s arg,
    handleFacts_disciplined f s ns arg, ?_⟩
  constructor
  · intro hd hc
    exact (breaks_handleTransact hc.1 hc.2).not_disciplined hd
  · intro h
    exact leads_handleTransact h

end Functions

/-- The failures of a request in which only the commit fails. -/
def commitFault : Faults := { fails := fun site => site = .commit, uninit := fun _ _ => 0 }

/-- The transaction of a failed commit is aborted. -/
theorem failed_commit_aborted :
    ¬ Disciplined (handleTransact .ofBytes commitFault (dbOpen .calm []) 0
      (some (.array [.array [.int64 60, .int64 50, .int64 7, .int64 0]]))).events := by
  decide +kernel

end Nstore.Calls
