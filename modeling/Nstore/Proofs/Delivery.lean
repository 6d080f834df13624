/-
Delivery of transactions in the order they are committed.

Three queues lie between a commit and the bytes a client reads: the task of the
writer, the tasks posted to the io thread, and the write queue of a session.  What a
run commits and what it completes is noted down from its events: `committed` when a
handler of the writer answers with a transaction, `completed` when the io thread takes
its task out of the queue.  `onTheWay` lies between the two, so completions are run in
the order of the commits, none is lost and none is run twice.  A session that was
started gets one message for each that is run from then on, and `Streams` says that its
bytes are whole messages, in the order they were written.

The runs are those in which nobody selects and nobody disconnects.
-/
import Nstore.Proofs.Server
import Nstore.Proofs.Invariant

namespace Nstore

open Machine

/-! ### The write queue -/

namespace Session

variable {libs : Libs} {x : Session}

/--
The bytes sent are the messages that have left the queue, whole and in order, and
the front of the one that is under way.  A write is outstanding if and only if the
queue is not empty, and it is the only one.
-/
def Streams (libs : Libs) (x : Session) : Prop :=
  ∃ whole, x.log = whole ++ x.writeQueue ∧
    match x.writeQueue, x.writing with
    | [], [] => x.sent = whole.flatMap libs.render
    | m :: _, [rest] =>
        ∃ front, front ++ rest = libs.render m ∧ x.sent = whole.flatMap libs.render ++ front
    | _, _ => False

theorem streams_new : Streams libs .new := ⟨[], rfl, rfl⟩

/-- The two shapes of a session that streams. -/
theorem Streams.cases (h : Streams libs x) :
    (x.writeQueue = [] ∧ x.writing = [] ∧ x.sent = x.log.flatMap libs.render) ∨
    ∃ whole m q front rest, x.writeQueue = m :: q ∧ x.writing = [rest] ∧
      x.log = whole ++ m :: q ∧ front ++ rest = libs.render m ∧
      x.sent = whole.flatMap libs.render ++ front := by
  obtain ⟨whole, hlog, h⟩ := h
  split at h
  · rename_i hq hw
    refine .inl ⟨hq, hw, ?_⟩
    rw [h, hlog, hq, List.append_nil]
  · rename_i m q rest hq hw
    obtain ⟨front, hfront, hsent⟩ := h
    exact .inr ⟨whole, m, q, front, rest, hq, hw, by rw [hlog, hq], hfront, hsent⟩
  · exact h.elim

private theorem streams_idle (hq : x.writeQueue = []) (hw : x.writing = [])
    (hs : x.sent = x.log.flatMap libs.render) : Streams libs x := by
  refine ⟨x.log, by rw [hq, List.append_nil], ?_⟩
  rw [hq, hw]
  exact hs

theorem streams_busy (whole : List Msg) (front rest : Bytes) {m : Msg} {q : List Msg}
    (hq : x.writeQueue = m :: q) (hw : x.writing = [rest]) (hl : x.log = whole ++ m :: q)
    (hf : front ++ rest = libs.render m) (hs : x.sent = whole.flatMap libs.render ++ front) :
    Streams libs x := by
  refine ⟨whole, by rw [hl, hq], ?_⟩
  rw [hq, hw]
  exact ⟨front, hf, hs⟩

theorem Streams.write (h : Streams libs x) (m : Msg) : Streams libs (x.write libs m) := by
  rw [write_eq]
  obtain ⟨hq, hw, hs⟩ | ⟨whole, m₀, q, front, rest, hq, hw, hl, hf, hs⟩ := h.cases
  · refine streams_busy x.log [] (libs.render m) (m := m) (q := []) ?_ ?_ rfl rfl ?_
    · simp [hq]
    · simp [hq, hw]
    · simpa using hs
  · refine streams_busy whole front rest (m := m₀) (q := q ++ [m]) ?_ ?_ ?_ hf hs
    · simp [hq]
    · simp [hq, hw]
    · simp [hl]

theorem Streams.send (h : Streams libs x) (k n : Nat) : Streams libs (x.send k n) := by
  obtain ⟨hq, hw, hs⟩ | ⟨whole, m, q, front, rest, hq, hw, hl, hf, hs⟩ := h.cases
  · have hk : x.writing[k]? = none := by simp [hw]
    simp only [Session.send, hk]
    exact h
  · cases k with
    | zero =>
        have hk : x.writing[0]? = some rest := by simp [hw]
        simp only [Session.send, hk]
        refine streams_busy whole (front ++ rest.take n) (rest.drop n) hq ?_ hl ?_ ?_
        · simp [hw]
        · rw [List.append_assoc, List.take_append_drop, hf]
        · simp [hs]
    | succ k =>
        have hk : x.writing[k + 1]? = none := by simp [hw]
        simp only [Session.send, hk]
        exact h

theorem Streams.wrote (h : Streams libs x) (k : Nat) : Streams libs (x.wrote libs k) := by
  unfold Session.wrote
  split
  · rename_i hk
    obtain ⟨hq, hw, hs⟩ | ⟨whole, m, q, front, rest, hq, hw, hl, hf, hs⟩ := h.cases
    · simp [hw] at hk
    · -- the only write outstanding, with nothing left of it
      obtain ⟨rfl, rfl⟩ : k = 0 ∧ rest = [] := by
        cases k with
        | zero => simpa [hw] using hk
        | succ k => simp [hw] at hk
      have hfront : front = libs.render m := by simpa using hf
      cases q with
      | nil =>
          simp only [hq, hw]
          refine streams_idle rfl rfl ?_
          simp [hs, hl, hfront]
      | cons m' q =>
          simp only [hq, hw]
          refine streams_busy (whole ++ [m]) [] (libs.render m') (m := m') (q := q) rfl rfl ?_
            rfl ?_
          · simp [doWrite, hl]
          · simp [doWrite, hs, hfront]
  · exact h

/-- Once a write has nothing left, its completion takes it off the queue. -/
theorem Streams.sendAll (h : Streams libs x) {m : Msg} {q : List Msg} (hq : x.writeQueue = m :: q) :
    ((x.send 0 (libs.render m).length).wrote libs 0).writeQueue = q ∧
      ((x.send 0 (libs.render m).length).wrote libs 0).log = x.log := by
  obtain ⟨hq', -, -⟩ | ⟨whole, m', q', front, rest, hq', hw, hl, hf, hs⟩ := h.cases
  · rw [hq'] at hq
    cases hq
  · rw [hq'] at hq
    cases hq
    have hle : rest.length ≤ (libs.render m).length := by
      rw [← hf, List.length_append]
      omega
    cases q with
    | nil => simp [Session.send, Session.wrote, hw, hq', hle]
    | cons m' q => simp [Session.send, Session.wrote, doWrite, hw, hq', hle]

end Session

namespace Server

variable {libs : Libs} {σ : Server} {e : Event}

/-- A write of the session goes on. -/
def Event.Writes (s : Nat) : Event → Prop
  | .send i _ _ => i = s
  | .wrote i _ => i = s
  | _ => False

/-- **Nothing is stuck**: when its writes go on, all that was written to a session is sent. -/
theorem exists_drained {s : Nat} : ∀ {q : List Msg} {σ : Server}, (σ.sessions s).Streams libs →
    (σ.sessions s).writeQueue = q →
    ∃ es, (∀ e ∈ es, e.Writes s) ∧
      ((run (step libs) σ es).sessions s).sent = (σ.sessions s).log.flatMap libs.render := by
  intro q
  induction q with
  | nil =>
      intro σ h hq
      refine ⟨[], by simp, ?_⟩
      obtain ⟨-, -, hs⟩ | ⟨_, _, _, _, _, hq', _⟩ := h.cases
      · exact hs
      · rw [hq'] at hq
        cases hq
  | cons m q ih =>
      intro σ h hq
      obtain ⟨hq', hl⟩ := h.sendAll hq
      let next := (σ.step libs (.send s 0 (libs.render m).length)).step libs (.wrote s 0)
      have hx : next.sessions s =
          ((σ.sessions s).send 0 (libs.render m).length).wrote libs 0 := by
        simp [next, step]
      obtain ⟨es, hes, hsent⟩ := ih (σ := next) (by rw [hx]; exact (h.send 0 _).wrote 0)
        (by rw [hx]; exact hq')
      refine ⟨.send s 0 (libs.render m).length :: .wrote s 0 :: es, ?_, ?_⟩
      · intro e he
        rcases List.mem_cons.mp he with rfl | he
        · rfl
        · rcases List.mem_cons.mp he with rfl | he
          · rfl
          · exact hes e he
      · rw [hx, hl] at hsent
        exact hsent

/-- What a session reads, and where it stands, is not part of its stream. -/
theorem streams_congr {x y : Session} (h : x.Streams libs) (hq : y.writeQueue = x.writeQueue)
    (hw : y.writing = x.writing) (hs : y.sent = x.sent) (hl : y.log = x.log) :
    y.Streams libs := by
  unfold Session.Streams
  rw [hq, hw, hs, hl]
  exact h

private theorem streams_change {i : Nat} {x : Session} (he : ∀ s k, e ≠ .writeError s k)
    (h : x.Streams libs) : (change libs σ i x e).Streams libs := by
  cases e with
  | accept =>
      simp only [change]
      split
      · exact streams_congr h rfl rfl rfl rfl
      · exact h
  | receive s line =>
      simp only [change]
      split
      · have hx : ({ x with reads := x.reads - 1, arg := line } : Session).Streams libs :=
          streams_congr h rfl rfl rfl rfl
        cases Command.ofLine line with
        | ping => exact streams_congr (hx.write _) rfl rfl rfl rfl
        | unknown => exact streams_congr (hx.write _) rfl rfl rfl rfl
        | _ => exact hx
      · exact h
  | readError s =>
      simp only [change]
      split
      · exact streams_congr h rfl rfl rfl rfl
      · exact h
  | send s k n =>
      simp only [change]
      split
      · exact h.send k n
      · exact h
  | wrote s k =>
      simp only [change]
      split
      · exact h.wrote k
      · exact h
  | writeError s k => exact absurd rfl (he s k)
  | runIo =>
      simp only [change]
      split
      · exact h
      · rename_i t _ _
        cases t with
        | answer s r =>
            simp only [ioChange]
            split
            · exact streams_congr (h.write _) rfl rfl rfl rfl
            · exact h
        | selected s ns =>
            simp only [ioChange]
            split
            · exact streams_congr (h.write _) rfl rfl rfl rfl
            · exact h
        | transacted s ns tx facts newIds =>
            simp only [ioChange]
            split
            · exact streams_congr (h.write _) rfl rfl rfl rfl
            · split
              · exact h.write _
              · exact h
  | postReader k =>
      simp only [change]
      split
      · split
        · exact streams_congr h rfl rfl rfl rfl
        · exact h
      · exact h
  | _ => exact h

end Server

/-! ### Transactions on their way -/

/-- A transaction as the clients are told of it. -/
structure Completion where
  ns : Nat
  sender : Nat
  tx : Int
  facts : List Fact
  newIds : List (Int × Int)
deriving DecidableEq, Repr

/-- The transaction that a task of the io thread tells of. -/
def IoTask.completion : IoTask → List Completion
  | .transacted s ns tx facts newIds =>
      [{ ns := ns, sender := s, tx := tx, facts := facts, newIds := newIds }]
  | _ => []

namespace Server

variable {libs : Libs} {σ : Server} {e : Event}

/-- The transaction that a handler of the writer commits: its reply is a response. -/
def transacted (libs : Libs) (o : Oracle) (σ : Server) : WriterTask → List Completion
  | .newNamespace _ => []
  | .transact s =>
      let ns := (σ.sessions s).selected
      match (handleTransact libs.sha256 o σ.store ns (libs.parse (σ.sessions s).argument)).1 with
      | .response tx facts newIds =>
          [{ ns := ns, sender := s, tx := tx, facts := facts, newIds := newIds }]
      | _ => []

/-- The transaction a step commits. -/
def committed (libs : Libs) (σ : Server) : Event → List Completion
  | .runWriter o =>
      match σ.writer, σ.writerQueue with
      | none, w :: _ => σ.transacted libs o w
      | _, _ => []
  | _ => []

/-- The transaction whose completion a step runs. -/
def completed (σ : Server) : Event → List Completion
  | .runIo => σ.ioQueue.head?.toList.flatMap IoTask.completion
  | _ => []

/-- Committed, with the completion not run yet. -/
def onTheWay (σ : Server) : List Completion :=
  (σ.ioQueue ++ σ.writer.toList).flatMap IoTask.completion

/-- What a handler of the writer posts tells of the transaction it has committed. -/
theorem completion_runWriterTask (o : Oracle) (w : WriterTask) :
    (σ.runWriterTask libs o w).2.completion = σ.transacted libs o w := by
  cases w with
  | newNamespace s => rfl
  | transact s =>
      simp only [runWriterTask, transacted]
      split
      · rename_i tx facts newIds store h
        rw [h]
        rfl
      · rename_i r store hr h
        rw [h]
        cases r with
        | response tx facts newIds => exact absurd rfl (hr tx facts newIds)
        | _ => rfl

/-- A task posted by a reader tells of none. -/
theorem completion_runReaderTask (o : Oracle) (r : ReaderTask) :
    (σ.runReaderTask libs o r).completion = [] := by
  cases r with
  | facts s => rfl
  | select s =>
      simp only [runReaderTask]
      split <;> rfl

/-- A transaction is committed by the writer only. -/
def ReadersQuiet (σ : Server) : Prop := ∀ t ∈ σ.readers, t.completion = []

theorem ReadersQuiet.step (hq : ReadersQuiet σ) : ReadersQuiet (σ.step libs e) := by
  intro t ht
  rw [step_readers] at ht
  cases e with
  | runReader o =>
      rcases List.mem_append.mp ht with ht | ht
      · exact hq t ht
      · obtain ⟨r, -, rfl⟩ := Option.map_eq_some_iff.mp (Option.mem_toList.mp ht)
        exact completion_runReaderTask o r
  | postReader k => exact hq t (List.mem_of_mem_eraseIdx ht)
  | _ => exact hq t ht

/-- **A step loses no transaction**: what is on its way stays so until it is completed. -/
theorem onTheWay_step (hq : ReadersQuiet σ) :
    completed σ e ++ (σ.step libs e).onTheWay = σ.onTheWay ++ committed libs σ e := by
  unfold onTheWay
  rw [step_ioQueue, step_writer]
  cases e with
  | runIo =>
      cases hio : σ.ioQueue with
      | nil => simp [completed, ioQueueAfter, writerAfter, committed, hio]
      | cons t rest => simp [completed, ioQueueAfter, writerAfter, committed, hio]
  | runWriter o =>
      cases hw : σ.writer with
      | some t => simp [completed, ioQueueAfter, writerAfter, committed, hw]
      | none =>
          cases hwq : σ.writerQueue with
          | nil => simp [completed, ioQueueAfter, writerAfter, committed, hw, hwq]
          | cons w rest =>
              simp [completed, ioQueueAfter, writerAfter, committed, hw, hwq,
                completion_runWriterTask]
  | postWriter => simp [completed, ioQueueAfter, writerAfter, committed]
  | postReader k =>
      cases hk : σ.readers[k]? with
      | none => simp [completed, ioQueueAfter, writerAfter, committed, hk]
      | some t =>
          have ht : t.completion = [] := hq t (List.mem_of_getElem? hk)
          simp [completed, ioQueueAfter, writerAfter, committed, hk, ht]
  | _ => simp [completed, ioQueueAfter, writerAfter, committed]

theorem onTheWay_run (libs : Libs) : ∀ (es : List Event) {σ : Server}, ReadersQuiet σ →
    record (step libs) completed σ es ++ (run (step libs) σ es).onTheWay =
      σ.onTheWay ++ record (step libs) (committed libs) σ es := by
  intro es
  induction es with
  | nil => intro σ _; exact (List.append_nil _).symm
  | cons e es ih =>
      intro σ hq
      have hnext : ReadersQuiet (σ.step libs e) := hq.step
      have hrest := ih hnext
      rw [record, record, List.append_assoc, ← List.append_assoc σ.onTheWay,
        ← onTheWay_step hq, List.append_assoc]
      exact congrArg (completed σ e ++ ·) hrest

/-- **Transactions are completed in the order of their commits.** -/
theorem run_completed (libs : Libs) (st : Store) (es : List Event) :
    record (step libs) completed (init st) es ++ (run (step libs) (init st) es).onTheWay =
      record (step libs) (committed libs) (init st) es :=
  onTheWay_run libs es fun _ h => absurd h List.not_mem_nil

/-- And all of them once no task is left. -/
theorem run_completed_of_idle {st : Store} {es : List Event}
    (hio : (run (step libs) (init st) es).ioQueue = [])
    (hw : (run (step libs) (init st) es).writer = none) :
    record (step libs) completed (init st) es =
      record (step libs) (committed libs) (init st) es := by
  rw [← run_completed, onTheWay, hio, hw]
  exact (List.append_nil _).symm

/-- A transaction takes the number the counter has, and moves it on. -/
theorem handleTransact_response {sha256 : Bytes → Value} {o : Oracle} {st st' : Store} {ns : Nat}
    {arg : Option Json} {tx : Int} {facts : List Fact} {newIds : List (Int × Int)}
    (hns : ns < 2 ^ 31)
    (h : handleTransact sha256 o st ns arg = (.response tx facts newIds, st')) :
    getMeta st ns metaTx = some tx ∧ getMeta st' ns metaTx = some (tx + 1) := by
  obtain hc | ⟨fs, p, -, -, ht, hc⟩ := handleTransact_cases sha256 o st ns arg
  · rw [hc] at h
    cases h
  · rw [hc] at h
    subst h
    obtain ⟨tx', id, ts, htx, -, -, hs, hr⟩ := transact_cases ht
    cases hr
    rw [hs]
    exact ⟨htx, (getMeta_commitStore ns tx ts (lt_trans hns (by norm_num))).1⟩

theorem handleTransact_refused {sha256 : Bytes → Value} {o : Oracle} {st st' : Store} {ns : Nat}
    {arg : Option Json} {r : Reply} (h : handleTransact sha256 o st ns arg = (r, st'))
    (hr : ∀ tx facts newIds, r ≠ .response tx facts newIds) : st' = st := by
  obtain hc | ⟨fs, p, -, -, ht, hc⟩ := handleTransact_cases sha256 o st ns arg
  · rw [hc] at h
    cases h
    rfl
  · rw [hc] at h
    subst h
    obtain ⟨tx, id, ts, -, -, -, -, hr'⟩ := transact_cases ht
    exact absurd hr' (hr _ _ _)

/-- What a handler of the writer does to the transaction counter of namespace 0. -/
theorem runWriterTask_counter (hns : ∀ s, (σ.sessions s).ns = 0) (o : Oracle) (w : WriterTask) :
    (σ.transacted libs o w = [] ∧
      ∀ tx, getMeta σ.store 0 metaTx = some tx →
        getMeta (σ.runWriterTask libs o w).1 0 metaTx = some tx) ∨
    ∃ c, σ.transacted libs o w = [c] ∧ c.ns = 0 ∧
      getMeta σ.store 0 metaTx = some c.tx ∧
      getMeta (σ.runWriterTask libs o w).1 0 metaTx = some (c.tx + 1) := by
  rw [← completion_runWriterTask]
  cases w with
  | newNamespace s =>
      refine .inl ⟨rfl, fun tx h => ?_⟩
      simp only [runWriterTask, handleNamespace]
      split
      · split
        · exact h
        · split
          · exact h
          · rw [getMeta_setup_of_exists (by norm_num) (toNamespace_lt _) (by decide)
              (by simp [nsExists, h])]
            exact h
      · exact h
  | transact s =>
      simp only [runWriterTask, Session.selected, hns s]
      split
      · rename_i tx facts newIds store h
        obtain ⟨h1, h2⟩ := handleTransact_response (by norm_num) h
        exact .inr ⟨_, rfl, rfl, h1, h2⟩
      · rename_i r store hr h
        have hs := handleTransact_refused h hr
        exact .inl ⟨rfl, fun tx htx => hs ▸ htx⟩

/-! ### The invariant -/

/-- Strictly increasing, with no gap. -/
def Consecutive (l : List Int) : Prop := l.IsChain fun a b => b = a + 1

/-- Nobody selects, and nobody disconnects. -/
def Event.Stays : Event → Prop
  | .receive _ line => Command.ofLine line ≠ .select
  | .readError _ => False
  | .writeError _ _ => False
  | _ => True

/-- A task that is neither a select nor answers with a transaction. -/
def Plain : IoTask → Prop
  | .answer _ r => ∀ tx facts newIds, r ≠ .response tx facts newIds
  | .selected _ _ => False
  | .transacted _ _ _ _ _ => True

/-- What holds while nobody selects and nobody disconnects. -/
structure Quiet (libs : Libs) (σ : Server) : Prop extends Known σ where
  ns : ∀ s, (σ.sessions s).ns = 0
  members : ∀ s, s ∈ σ.members 0 ↔ s < σ.nextUid
  reader : ∀ s, .select s ∉ σ.readerQueue
  plain : ∀ t ∈ σ.pending, Plain t
  quiet : ReadersQuiet σ
  home : ∀ c ∈ σ.onTheWay, c.ns = 0
  streams : ∀ s, (σ.sessions s).Streams libs

theorem quiet_init (libs : Libs) (st : Store) : Quiet libs (init st) where
  toKnown := known_init st
  ns _ := rfl
  members s := by simp [init]
  reader _ := List.not_mem_nil
  plain t h := absurd h (by simp [pending, init])
  quiet t h := absurd h List.not_mem_nil
  home c h := absurd h (by simp [onTheWay, init])
  streams _ := Session.streams_new

theorem Event.Stays.ne_writeError (he : e.Stays) (s k : Nat) : e ≠ .writeError s k := by
  rintro rfl
  exact he

theorem Quiet.ns_step (h : Quiet libs σ) (he : e.Stays) (s : Nat) :
    ((σ.step libs e).sessions s).ns = 0 := by
  rw [sessions_step h.nodup]
  have hneutral (hn : e.Neutral) : (change libs σ s (σ.sessions s) e).ns = 0 :=
    (congrArg (·.1) (change_neutral hn s _)).trans (h.ns s)
  cases e with
  | accept =>
      simp only [change]
      split
      · exact h.ns s
      · exact h.ns s
  | readError i => exact he.elim
  | writeError i k => exact he.elim
  | postReader k =>
      simp only [change]
      split
      · rename_i i n hk
        exact (h.plain (.selected i n) (mem_pending.mpr (.inr (.inr (List.mem_of_getElem? hk))))).elim
      · exact h.ns s
  | _ => exact hneutral trivial

theorem Quiet.members_step (h : Quiet libs σ) (he : e.Stays) (s : Nat) :
    s ∈ (σ.step libs e).members 0 ↔ s < (σ.step libs e).nextUid := by
  rw [mem_members_step, step_nextUid, h.members]
  cases e with
  | accept =>
      simp only [Joins, Leaves, nextUidAfter, true_and, not_false_eq_true, and_true]
      omega
  | readError i => exact he.elim
  | writeError i k => exact he.elim
  | runIo =>
      simp only [Joins, Leaves, nextUidAfter, or_false, and_iff_left_iff_imp]
      intro _ hq
      exact h.plain (.selected s 0) (mem_pending.mpr (.inl (List.mem_of_head? hq)))
  | _ => simp [Joins, Leaves, nextUidAfter]

private theorem select_notMem_readerPosts {s i : Nat} {cmd : Command} (hcmd : cmd ≠ .select) :
    .select s ∉ readerPosts i cmd := by
  cases cmd <;> simp_all [readerPosts]

theorem handleFacts_ne_response (o : Oracle) (st : Store) (ns : Nat) (arg : Option Json) (tx : Int)
    (facts : List Fact) (newIds : List (Int × Int)) :
    handleFacts o st ns arg ≠ .response tx facts newIds := by
  have hat (t : Int) : handleFactsAt o st ns t ≠ .response tx facts newIds := by
    unfold handleFactsAt
    split
    · simp
    · split <;> simp
  unfold handleFacts
  split
  · split
    · simp
    · split
      · split
        · simp
        · exact hat _
      · exact hat _
  · simp

theorem plain_runWriterTask (o : Oracle) (w : WriterTask) : Plain (σ.runWriterTask libs o w).2 := by
  cases w with
  | newNamespace s =>
      simp only [runWriterTask, handleNamespace, Plain]
      intro tx facts newIds
      split
      · split
        · simp
        · split <;> simp
      · simp
  | transact s =>
      simp only [runWriterTask]
      split
      · trivial
      · rename_i r store hr h
        exact hr

private theorem plain_runReaderTask (o : Oracle) {r : ReaderTask} (hr : ∀ s, r ≠ .select s) :
    Plain (σ.runReaderTask libs o r) := by
  cases r with
  | select s => exact absurd rfl (hr s)
  | facts s => exact handleFacts_ne_response o _ _ _

theorem Quiet.plain_step (h : Quiet libs σ) {t : IoTask} (ht : t ∈ (σ.step libs e).pending) :
    Plain t := by
  obtain ht | ⟨o, w, -, -, rfl⟩ | ⟨o, r, -, hr, rfl⟩ := mem_pending_step ht
  · exact h.plain t ht
  · exact plain_runWriterTask o w
  · refine plain_runReaderTask o fun s hs => ?_
    exact h.reader s (hs ▸ hr)

/--
A step commits nothing and leaves a counter that is set, or it commits the
transaction the counter stands at and moves it on.
-/
theorem Quiet.committed_cases (h : Quiet libs σ) :
    (committed libs σ e = [] ∧ ∀ tx, getMeta σ.store 0 metaTx = some tx →
      getMeta (σ.step libs e).store 0 metaTx = some tx) ∨
    ∃ c, committed libs σ e = [c] ∧ c.ns = 0 ∧ getMeta σ.store 0 metaTx = some c.tx ∧
      getMeta (σ.step libs e).store 0 metaTx = some (c.tx + 1) := by
  rw [step_store]
  cases e with
  | runWriter o =>
      cases hw : σ.writer with
      | some t =>
          simp only [committed, storeAfter, hw]
          exact .inl ⟨trivial, fun _ => id⟩
      | none =>
          cases hq : σ.writerQueue with
          | nil =>
              simp only [committed, storeAfter, hw, hq]
              exact .inl ⟨trivial, fun _ => id⟩
          | cons w rest =>
              simp only [committed, storeAfter, hw, hq]
              exact runWriterTask_counter h.ns o w
  | _ => exact .inl ⟨rfl, fun _ => id⟩

/-- **What a step keeps while nobody selects and nobody disconnects.** -/
theorem Quiet.step (h : Quiet libs σ) (he : e.Stays) : Quiet libs (σ.step libs e) where
  toKnown := h.toKnown.step e
  ns := h.ns_step he
  members := h.members_step he
  reader s hs := by
    obtain hs | ⟨i, line, rfl, -, hs⟩ := mem_readerQueue_step hs
    · exact h.reader s hs
    · exact select_notMem_readerPosts he hs
  plain _ := h.plain_step
  quiet := h.quiet.step
  home c hc := by
    have hc : c ∈ completed σ e ++ (σ.step libs e).onTheWay := List.mem_append_right _ hc
    rw [onTheWay_step h.quiet] at hc
    rcases List.mem_append.mp hc with hc | hc
    · exact h.home c hc
    · obtain ⟨hnil, -⟩ | ⟨c', hc', hns, -⟩ := h.committed_cases (e := e)
      · rw [hnil] at hc
        cases hc
      · rw [hc', List.mem_singleton] at hc
        exact hc ▸ hns
  streams s := by
    rw [sessions_step h.nodup]
    exact streams_change he.ne_writeError (h.streams s)

end Server

/-! ### Messages of transactions -/

/-- The transaction a message is about. -/
def Msg.tx : Msg → Option Int
  | .reply (.response tx _ _) => some tx
  | .event tx _ => some tx
  | _ => none

/-- The message of a transaction for a session: the response if it sent it, else the event. -/
def Completion.message (s : Nat) (c : Completion) : Msg :=
  if s = c.sender then .reply (.response c.tx c.facts c.newIds) else .event c.tx c.facts

@[simp] theorem Completion.message_tx (s : Nat) (c : Completion) : (c.message s).tx = some c.tx := by
  unfold message
  split <;> rfl

/-- The messages of transactions written to a session. -/
def Session.transactions (x : Session) : List Msg := x.log.filter fun m => m.tx.isSome

namespace Server

variable {libs : Libs} {σ : Server} {e : Event}

theorem transactions_step (hn : ∀ c, (σ.members c).Nodup) (s : Nat) :
    ((σ.step libs e).sessions s).transactions =
      (σ.sessions s).transactions ++ (written σ s e).filter fun m => m.tx.isSome := by
  unfold Session.transactions
  rw [log_step hn, List.filter_append]

private theorem filter_ioWrites {members : Nat → List Nat} {i : Nat} {t : IoTask} (ht : Plain t)
    (hm : ∀ c ∈ t.completion, i ∈ members c.ns) :
    ((ioWrites members i t).filter fun m => m.tx.isSome) = t.completion.map (·.message i) := by
  cases t with
  | answer s r =>
      have hr : (Msg.reply r).tx = none := by
        cases r with
        | response tx facts newIds => exact absurd rfl (ht tx facts newIds)
        | _ => rfl
      simp only [ioWrites, IoTask.completion]
      split <;> simp [hr]
  | selected s ns => exact ht.elim
  | transacted s ns tx facts newIds =>
      have hmem : i ∈ members ns := hm _ (List.mem_singleton_self _)
      simp only [ioWrites, IoTask.completion, List.map_singleton, Completion.message, if_pos hmem]
      split <;> simp [Msg.tx]

/-- Only the completion of a transaction writes its messages. -/
theorem filter_written {i : Nat} (he : e ≠ .runIo) :
    ((written σ i e).filter fun m => m.tx.isSome) = [] := by
  cases e with
  | receive s line =>
      simp only [written]
      split
      · unfold dispatchWrites
        cases Command.ofLine line <;> simp [Msg.tx]
      · rfl
  | runIo => exact absurd rfl he
  | _ => rfl

/-- **A started session gets its message of what is completed.** -/
theorem Quiet.transactions_step (h : Quiet libs σ) {s : Nat} (hs : s < σ.nextUid) :
    ((σ.step libs e).sessions s).transactions =
      (σ.sessions s).transactions ++ (completed σ e).map (·.message s) := by
  rw [Server.transactions_step h.nodup]
  congr 1
  cases e with
  | runIo =>
      simp only [written, completed]
      cases hq : σ.ioQueue with
      | nil => rfl
      | cons t rest =>
          have ht : t ∈ σ.ioQueue := by simp [hq]
          have hmember : ∀ c ∈ t.completion, s ∈ σ.members c.ns := by
            intro c hc
            rw [h.home c (List.mem_flatMap.mpr ⟨t, List.mem_append_left _ ht, hc⟩), h.members]
            exact hs
          simpa using filter_ioWrites (h.plain t (mem_pending.mpr (.inl ht))) hmember
  | _ => exact filter_written Event.noConfusion

/-! ### Whole runs -/

theorem Consecutive.infix {l l' : List Int} (h : Consecutive l') (hl : l <:+: l') :
    Consecutive l :=
  List.IsChain.infix h hl

theorem Consecutive.pairwise {l : List Int} (h : Consecutive l) : l.Pairwise (· < ·) := by
  refine List.isChain_iff_pairwise.mp (List.IsChain.imp ?_ h)
  intro a b hab
  omega

/-- Each of the transactions has one message among those delivered. -/
theorem filter_message {s : Nat} {c : Completion} : ∀ {cs : List Completion},
    (cs.map (·.tx)).Pairwise (· < ·) → c ∈ cs →
    (cs.map (·.message s)).filter (fun m => m.tx = some c.tx) = [c.message s] := by
  intro cs
  induction cs with
  | nil => intro _ hc; cases hc
  | cons d cs ih =>
      intro h hc
      rw [List.map_cons, List.pairwise_cons] at h
      rcases List.mem_cons.mp hc with rfl | hc
      · have hrest : (cs.map (·.message s)).filter (fun m => m.tx = some c.tx) = [] := by
          rw [List.filter_eq_nil_iff]
          intro m hm
          obtain ⟨d, hd, rfl⟩ := List.mem_map.mp hm
          have hlt := h.1 d.tx (List.mem_map_of_mem hd)
          simp only [Completion.message_tx, Option.some.injEq, decide_eq_true_eq]
          omega
        simp [hrest]
      · have hlt := h.1 c.tx (List.mem_map_of_mem hc)
        have hne : d.tx ≠ c.tx := by omega
        simp [hne, ih h.2 hc]

private theorem filter_transactions {x : Session} {tx : Int} :
    x.transactions.filter (fun m => m.tx = some tx) = x.log.filter (fun m => m.tx = some tx) := by
  unfold Session.transactions
  rw [List.filter_filter]
  refine List.filter_congr fun m _ => ?_
  cases h : m.tx <;> simp

theorem along_stays {es : List Event} (h : ∀ e ∈ es, e.Stays) :
    Along (step libs) (fun _ e => e.Stays) σ es := by
  induction es generalizing σ with
  | nil => trivial
  | cons e es ih =>
      exact ⟨h e List.mem_cons_self, ih fun e' he' => h e' (List.mem_cons_of_mem _ he')⟩

theorem quiet_run (h : Quiet libs σ) {es : List Event} (hes : ∀ e ∈ es, e.Stays) :
    Quiet libs (run (step libs) σ es) :=
  Along.invariant (Quiet libs) (fun _ _ hq he => hq.step he) h (along_stays hes)

/-- What a run delivers to a session that was started before it. -/
theorem Quiet.transactions_run (h : Quiet libs σ) {es : List Event} (hes : ∀ e ∈ es, e.Stays)
    {s : Nat} (hs : s < σ.nextUid) :
    ((run (Server.step libs) σ es).sessions s).transactions = (σ.sessions s).transactions ++
      (record (Server.step libs) completed σ es).map (·.message s) := by
  refine Along.relation_record (fun σ => Quiet libs σ ∧ s < σ.nextUid)
    (fun (cs : List Completion) σ τ => (τ.sessions s).transactions =
      (σ.sessions s).transactions ++ cs.map (·.message s)) (fun σ => (List.append_nil _).symm)
    (fun cs cs' σ τ υ hστ hτυ => ?_) (fun σ e hσ he => ?_)
    (fun σ e hσ _ => hσ.1.transactions_step hσ.2) ⟨h, hs⟩ (along_stays hes)
  · rw [hτυ, hστ, List.map_append, List.append_assoc]
  · exact ⟨hσ.1.step he, hσ.2.trans_le nextUid_le_step⟩

/--
**What is committed** is about namespace 0, numbered without a gap, and from the counter
on, if it was set.
-/
theorem Quiet.commits : ∀ {es : List Event} {σ : Server}, Quiet libs σ → (∀ e ∈ es, e.Stays) →
    (∀ c ∈ record (Server.step libs) (committed libs) σ es, c.ns = 0) ∧
      Consecutive ((record (Server.step libs) (committed libs) σ es).map (·.tx)) ∧
      ∀ tx, getMeta σ.store 0 metaTx = some tx →
        ∀ c ∈ (record (Server.step libs) (committed libs) σ es).head?, c.tx = tx := by
  intro es
  induction es with
  | nil =>
      intro σ _ _
      exact ⟨fun c hc => absurd hc List.not_mem_nil, List.isChain_nil,
        fun _ _ c hc => absurd hc (by simp [record])⟩
  | cons e es ih =>
      intro σ h hes
      obtain ⟨hns, hchain, hfirst⟩ := ih (h.step (hes e List.mem_cons_self))
        fun e' he' => hes e' (List.mem_cons_of_mem _ he')
      rw [record]
      obtain ⟨hnil, hkeep⟩ | ⟨c, hc, hns₀, htx, hnext⟩ := h.committed_cases (e := e)
      · rw [hnil, List.nil_append]
        exact ⟨hns, hchain, fun tx htx => hfirst tx (hkeep tx htx)⟩
      · rw [hc, List.singleton_append]
        refine ⟨?_, ?_, ?_⟩
        · intro c' hc'
          rcases List.mem_cons.mp hc' with rfl | hc'
          · exact hns₀
          · exact hns c' hc'
        · -- the next commit finds the counter that this one has left
          refine List.isChain_cons.mpr ⟨fun b hb => ?_, hchain⟩
          rw [List.head?_map] at hb
          obtain ⟨c', hc', rfl⟩ := Option.map_eq_some_iff.mp hb
          exact hfirst (c.tx + 1) hnext c' hc'
        · intro tx htx' c' hc'
          have hc' : c = c' := by simpa using hc'
          rw [htx, Option.some.injEq] at htx'
          exact hc' ▸ htx'

/--
What a session has got of the transactions whose completions were run after it
joined: one message each, in the order of their numbers, on a stream of whole
messages that does not get stuck.
-/
structure InOrder (libs : Libs) (s : Nat) (cs : List Completion) (σ : Server) : Prop where
  one : ∀ c ∈ cs, (σ.sessions s).log.filter (fun m => m.tx = some c.tx) = [c.message s]
  order : (σ.sessions s).transactions = cs.map (·.message s)
  consecutive : Consecutive (cs.map (·.tx))
  stream : (σ.sessions s).Streams libs
  drains : ∃ es, (∀ e ∈ es, e.Writes s) ∧
    ((run (step libs) σ es).sessions s).sent = (σ.sessions s).log.flatMap libs.render

/-- Two sessions; the first sends a transaction, and its response leaves in two parts. -/
def deliveryRun : List Event :=
  [.receive 0 (ascii "t[[60,50,7,0]]\r"), .runWriter .calm, .postWriter, .runIo, .send 0 0 5,
    .send 0 0 100, .wrote 0 0]

end Server

end Nstore
