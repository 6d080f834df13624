/-
One reply per request, in order.

A session works in turns.  It waits for a line; then one handler has the request;
then the completion that handler posted writes the reply and waits for the next
line.  `load` counts the tasks that a session has anywhere on the way, and with the
reads that are outstanding they are always one.

Along a run the lines dispatched for a session are on record, and so the replies in
its log can be matched with them: the reply in some place is what a handler made of
the line in the same place.
-/
import Nstore.Proofs.Server

namespace Nstore

open Machine

/-! ### Requests and replies -/

/-- A message that is not the event of somebody else's transaction. -/
def Msg.isReply : Msg → Bool
  | .event _ _ => false
  | _ => true

/-- The messages that answer requests of the session. -/
def Session.replies (x : Session) : List Msg := x.log.filter Msg.isReply

/-- The message a completion writes to the session that sent the request. -/
def IoTask.message : IoTask → Msg
  | .answer _ r => .reply r
  | .selected _ _ => .reply .ackOk
  | .transacted _ _ tx facts newIds => .reply (.response tx facts newIds)

/--
The message is what the handler of the line makes of it, with one of the stores that
were committed by then.
-/
def RepliesTo (libs : Libs) (seen : Store → Prop) (line : Bytes) (m : Msg) : Prop :=
  match Command.ofLine line with
  | .ping => m = .echo (argumentOf line)
  | .newNamespace => ∃ o st, seen st ∧
      m = .reply (handleNamespace o st (libs.parse (argumentOf line))).1
  | .select => ∃ o st, seen st ∧
      m = .reply (if (handleSelect o st (libs.parse (argumentOf line))).isSome then .ackOk
        else .ackErr)
  | .facts => ∃ o st ns, seen st ∧
      m = .reply (handleFacts o st ns (libs.parse (argumentOf line)))
  | .transact => ∃ o st ns, seen st ∧
      m = .reply (handleTransact libs.sha256 o st ns (libs.parse (argumentOf line))).1
  | .unknown => m = .reply .ackErr

theorem RepliesTo.mono {libs : Libs} {seen seen' : Store → Prop} {line : Bytes} {m : Msg}
    (hseen : ∀ st, seen st → seen' st) (h : RepliesTo libs seen line m) :
    RepliesTo libs seen' line m := by
  unfold RepliesTo at h ⊢
  cases hc : Command.ofLine line with
  | ping =>
      simp only [hc] at h
      exact h
  | newNamespace =>
      simp only [hc] at h
      obtain ⟨o, st, hst, hm⟩ := h
      exact ⟨o, st, hseen st hst, hm⟩
  | select =>
      simp only [hc] at h
      obtain ⟨o, st, hst, hm⟩ := h
      exact ⟨o, st, hseen st hst, hm⟩
  | facts =>
      simp only [hc] at h
      obtain ⟨o, st, ns, hst, hm⟩ := h
      exact ⟨o, st, ns, hseen st hst, hm⟩
  | transact =>
      simp only [hc] at h
      obtain ⟨o, st, ns, hst, hm⟩ := h
      exact ⟨o, st, ns, hseen st hst, hm⟩
  | unknown =>
      simp only [hc] at h
      exact h

namespace Session

variable {libs : Libs} {x : Session} {k n : Nat}

theorem argument_eq : x.argument = argumentOf x.arg := rfl

private theorem send_reads : (x.send k n).reads = x.reads := by
  unfold send
  split <;> rfl

private theorem wrote_arg : (x.wrote libs k).arg = x.arg := by
  unfold wrote doWrite
  split
  · simp only
    split
    · rfl
    · split <;> rfl
  · rfl

private theorem wrote_reads : (x.wrote libs k).reads = x.reads := by
  unfold wrote doWrite
  split
  · simp only
    split
    · rfl
    · split <;> rfl
  · rfl

end Session

namespace Server

variable {libs : Libs} {σ : Server} {e : Event} {s : Nat}

/-! ### What a step does to the exchange of a session -/

/-- The lines an event dispatches for a session. -/
def requests (s : Nat) (σ : Server) : Event → List Bytes
  | .receive i line => if s = i ∧ (σ.sessions s).reads ≠ 0 then [line] else []
  | _ => []

/-- The replies an event writes to a session. -/
def repliesNow (σ : Server) (s : Nat) : Event → List Msg
  | .receive i line => if s = i ∧ (σ.sessions s).reads ≠ 0 then dispatchWrites line else []
  | .runIo =>
      match σ.ioQueue with
      | [] => []
      | t :: _ => if s = t.session then [t.message] else []
  | _ => []

private theorem filter_dispatchWrites (line : Bytes) :
    (dispatchWrites line).filter Msg.isReply = dispatchWrites line := by
  unfold dispatchWrites
  cases Command.ofLine line <;> rfl

private theorem replies_ioWrites (members : Nat → List Nat) (t : IoTask) :
    (ioWrites members s t).filter Msg.isReply = if s = t.session then [t.message] else [] := by
  cases t with
  | answer i r =>
      by_cases hi : s = i
      · simp [ioWrites, IoTask.session, IoTask.message, Msg.isReply, hi]
      · simp [ioWrites, IoTask.session, hi]
  | selected i ns =>
      by_cases hi : s = i
      · simp [ioWrites, IoTask.session, IoTask.message, Msg.isReply, hi]
      · simp [ioWrites, IoTask.session, hi]
  | transacted i ns tx facts newIds =>
      by_cases hi : s = i
      · simp [ioWrites, IoTask.session, IoTask.message, Msg.isReply, hi]
      · by_cases hm : s ∈ members ns
        · simp [ioWrites, IoTask.session, Msg.isReply, hi, hm]
        · simp [ioWrites, IoTask.session, hi, hm]

theorem replies_step (hn : ∀ c, (σ.members c).Nodup) :
    ((σ.step libs e).sessions s).replies = (σ.sessions s).replies ++ repliesNow σ s e := by
  unfold Session.replies
  rw [log_step hn, List.filter_append]
  congr 1
  cases e with
  | receive i line =>
      simp only [written, repliesNow]
      by_cases hi : s = i ∧ (σ.sessions s).reads ≠ 0
      · rw [if_pos hi]
        exact filter_dispatchWrites line
      · rw [if_neg hi]
        rfl
  | runIo =>
      simp only [written, repliesNow]
      cases σ.ioQueue with
      | nil => rfl
      | cons t rest => exact replies_ioWrites _ _
  | _ => rfl

/-- An event that is not the end of the session's socket. -/
def Event.Spares (s : Nat) : Event → Prop
  | .readError i => i ≠ s
  | .writeError i _ => i ≠ s
  | _ => True

private theorem dispatched_reads (x : Session) (line : Bytes) :
    (dispatched libs x (.ofLine line)).reads = x.reads + (dispatchWrites line).length := by
  unfold dispatchWrites
  cases Command.ofLine line <;> simp [dispatched, Session.readRequest, Session.write_eq]

private theorem ioChange_reads (members : Nat → List Nat) (x : Session) (t : IoTask) :
    (ioChange libs members s x t).reads = x.reads + if s = t.session then 1 else 0 := by
  cases t with
  | answer i r =>
      by_cases hi : s = i
      · simp [ioChange, IoTask.session, Session.readRequest, Session.write_eq, hi]
      · simp [ioChange, IoTask.session, hi]
  | selected i ns =>
      by_cases hi : s = i
      · simp [ioChange, IoTask.session, Session.readRequest, Session.write_eq, hi]
      · simp [ioChange, IoTask.session, hi]
  | transacted i ns tx facts newIds =>
      by_cases hi : s = i
      · simp [ioChange, IoTask.session, Session.readRequest, Session.write_eq, hi]
      · by_cases hm : s ∈ members ns
        · simp [ioChange, IoTask.session, Session.write_eq, hi, hm]
        · simp [ioChange, IoTask.session, hi, hm]

/-- A read is armed as the session starts, and after every reply. -/
theorem reads_step (libs : Libs) (hn : ∀ c, (σ.members c).Nodup) (he : e.Spares s)
    (hs : s < σ.nextUid) :
    ((σ.step libs e).sessions s).reads + (requests s σ e).length =
      (σ.sessions s).reads + (repliesNow σ s e).length := by
  rw [sessions_step hn]
  cases e with
  | accept =>
      simp only [change, requests, repliesNow]
      rw [if_neg (Nat.ne_of_lt hs)]
      rfl
  | receive i line =>
      simp only [change, requests, repliesNow]
      split
      · rename_i h
        rw [dispatched_reads]
        have := h.2
        simp only [List.length_singleton]
        omega
      · rfl
  | readError i =>
      simp only [change, requests, repliesNow]
      rw [if_neg fun h => he h.1.symm]
      rfl
  | send i k n =>
      simp only [change, requests, repliesNow]
      split <;> simp [Session.send_reads]
  | wrote i k =>
      simp only [change, requests, repliesNow]
      split <;> simp [Session.wrote_reads]
  | writeError i k =>
      simp only [change, requests, repliesNow]
      rw [if_neg fun h => he h.1.symm]
      rfl
  | runIo =>
      simp only [change, requests, repliesNow]
      cases σ.ioQueue with
      | nil => rfl
      | cons t rest =>
          simp only [ioChange_reads]
          split <;> rfl
  | postReader k =>
      simp only [change, requests, repliesNow]
      split
      · split <;> rfl
      · rfl
  | _ => rfl

/-! ### Tasks of a session -/

/-- The requests of the session that a handler has, or will be given. -/
def handlers (σ : Server) (s : Nat) : Nat :=
  σ.writerQueue.countP (·.session = s) + σ.readerQueue.countP (·.session = s) +
    σ.writer.toList.countP (·.session = s) + σ.readers.countP (·.session = s)

/-- The completions posted for the session. -/
def posted (σ : Server) (s : Nat) : Nat := σ.ioQueue.countP (·.session = s)

private theorem countP_posts (s i : Nat) (line : Bytes) :
    (writerPosts i (.ofLine line)).countP (·.session = s) +
      (readerPosts i (.ofLine line)).countP (·.session = s) =
        if s = i then 1 - (dispatchWrites line).length else 0 := by
  unfold dispatchWrites
  by_cases hi : s = i
  · subst hi
    cases Command.ofLine line <;>
      simp [writerPosts, readerPosts, WriterTask.session, ReaderTask.session]
  · have hi' : ¬ i = s := fun h => hi h.symm
    cases Command.ofLine line <;>
      simp [writerPosts, readerPosts, WriterTask.session, ReaderTask.session, hi, hi']

private theorem countP_eraseIdx {α : Type} {p : α → Bool} : ∀ {l : List α} {k : Nat} {a : α},
    l[k]? = some a → (l.eraseIdx k).countP p + (if p a then 1 else 0) = l.countP p := by
  intro l
  induction l with
  | nil => intro k a h; simp at h
  | cons b l ih =>
      intro k a h
      cases k with
      | zero =>
          simp only [List.getElem?_cons_zero, Option.some.injEq] at h
          subst h
          rw [List.eraseIdx_zero, List.tail_cons, List.countP_cons]
      | succ k =>
          rw [List.getElem?_cons_succ] at h
          have := ih h
          rw [List.eraseIdx_cons_succ, List.countP_cons, List.countP_cons]
          omega

/-- Every dispatched request has one task, until its reply is written. -/
theorem load_step (libs : Libs) :
    (σ.step libs e).handlers s + (σ.step libs e).posted s + (repliesNow σ s e).length =
      σ.handlers s + σ.posted s + (requests s σ e).length := by
  unfold handlers posted
  rw [step_writerQueue, step_readerQueue, step_writer, step_readers, step_ioQueue]
  cases e with
  | receive i line =>
      by_cases hr : (σ.sessions i).reads = 0
      · have hno : ¬ (s = i ∧ (σ.sessions s).reads ≠ 0) := by
          rintro ⟨rfl, h⟩
          exact h hr
        simp [writerQueueAfter, readerQueueAfter, writerAfter, readersAfter, ioQueueAfter,
          requests, repliesNow, hr, hno]
      · have hposts := countP_posts s i line
        have hle : (dispatchWrites line).length ≤ 1 := by
          unfold dispatchWrites
          split <;> simp
        simp only [writerQueueAfter, readerQueueAfter, writerAfter, readersAfter, ioQueueAfter,
          requests, repliesNow, if_neg hr, List.countP_append]
        by_cases hi : s = i
        · subst hi
          rw [if_pos rfl] at hposts
          rw [if_pos ⟨rfl, hr⟩, if_pos ⟨rfl, hr⟩, List.length_singleton]
          omega
        · rw [if_neg hi] at hposts
          rw [if_neg fun h => hi h.1, if_neg fun h => hi h.1]
          omega
  | runIo =>
      cases hq : σ.ioQueue with
      | nil => simp [writerQueueAfter, readerQueueAfter, writerAfter, readersAfter, ioQueueAfter,
          requests, repliesNow, hq]
      | cons t rest =>
          have hcount : (t :: rest).countP (·.session = s) =
              rest.countP (·.session = s) + if t.session = s then 1 else 0 := by
            rw [List.countP_cons]
            simp
          simp only [writerQueueAfter, readerQueueAfter, writerAfter, readersAfter, ioQueueAfter,
            requests, repliesNow, hq, List.tail_cons, hcount, List.length_nil]
          by_cases ht : t.session = s
          · rw [if_pos ht, if_pos ht.symm, List.length_singleton]
            omega
          · rw [if_neg ht, if_neg fun h => ht h.symm, List.length_nil]
            omega
  | runWriter o =>
      cases hw : σ.writer with
      | some t => simp [writerQueueAfter, readerQueueAfter, writerAfter, readersAfter,
          ioQueueAfter, requests, repliesNow, hw]
      | none =>
          cases hq : σ.writerQueue with
          | nil => simp [writerQueueAfter, readerQueueAfter, writerAfter, readersAfter,
              ioQueueAfter, requests, repliesNow, hw, hq]
          | cons w rest =>
              simp only [writerQueueAfter, readerQueueAfter, writerAfter, readersAfter,
                ioQueueAfter, requests, repliesNow, hw, hq, List.tail_cons, Option.toList_some,
                Option.toList_none, List.countP_cons, List.countP_nil, session_runWriterTask,
                List.length_nil]
              omega
  | postWriter =>
      simp only [writerQueueAfter, readerQueueAfter, writerAfter, readersAfter, ioQueueAfter,
        requests, repliesNow, Option.toList_none, List.countP_append, List.countP_nil,
        List.length_nil]
      omega
  | runReader o =>
      cases hq : σ.readerQueue with
      | nil => simp [writerQueueAfter, readerQueueAfter, writerAfter, readersAfter,
          ioQueueAfter, requests, repliesNow, hq]
      | cons r rest =>
          simp only [writerQueueAfter, readerQueueAfter, writerAfter, readersAfter, ioQueueAfter,
            requests, repliesNow, hq, List.tail_cons, List.head?_cons, Option.map_some,
            Option.toList_some, List.countP_append, List.countP_cons, List.countP_nil,
            session_runReaderTask, List.length_nil]
          omega
  | postReader k =>
      cases hk : σ.readers[k]? with
      | none =>
          have he : σ.readers.eraseIdx k = σ.readers :=
            List.eraseIdx_of_length_le (List.getElem?_eq_none_iff.mp hk)
          simp [writerQueueAfter, readerQueueAfter, writerAfter, readersAfter, ioQueueAfter,
            requests, repliesNow, hk, he]
      | some t =>
          have herase := countP_eraseIdx (p := fun t : IoTask => t.session = s) hk
          simp only [writerQueueAfter, readerQueueAfter, writerAfter, readersAfter, ioQueueAfter,
            requests, repliesNow, hk, Option.toList_some, List.countP_append, List.countP_cons,
            List.countP_nil, List.length_nil]
          omega
  | _ => rfl

/-! ### The invariant -/

/--
The exchange of a session whose socket works, after the lines dispatched for it so
far: it is in one place, it has had one reply less than it had reads armed, its
current line is the last, and its replies answer its lines.
-/
structure InTurn (libs : Libs) (seen : Store → Prop) (s : Nat) (lines : List Bytes)
    (σ : Server) : Prop extends Known σ where
  unstarted : σ.nextUid ≤ s → lines = []
  one : s < σ.nextUid → (σ.sessions s).reads + σ.handlers s + σ.posted s = 1
  armed : s < σ.nextUid →
    (σ.sessions s).reads + lines.length = (σ.sessions s).replies.length + 1
  current : lines ≠ [] → lines.getLast? = some (σ.sessions s).arg
  writer : ∀ w ∈ σ.writerQueue, w.session = s → w ∈ writerPosts s (.ofLine (σ.sessions s).arg)
  reader : ∀ r ∈ σ.readerQueue, r.session = s → r ∈ readerPosts s (.ofLine (σ.sessions s).arg)
  computed : ∀ t ∈ σ.pending, t.session = s → RepliesTo libs seen (σ.sessions s).arg t.message
  answered : List.Forall₂ (RepliesTo libs seen)
    (lines.take (σ.sessions s).replies.length) (σ.sessions s).replies

theorem inTurn_init (libs : Libs) (seen : Store → Prop) (s : Nat) (st : Store) :
    InTurn libs seen s [] (init st) where
  toKnown := known_init st
  unstarted _ := rfl
  one h := absurd h (Nat.not_lt_zero s)
  armed h := absurd h (Nat.not_lt_zero s)
  current h := absurd rfl h
  writer _ h := absurd h List.not_mem_nil
  reader _ h := absurd h List.not_mem_nil
  computed _ h := absurd h (by simp [pending, init])
  answered := .nil

theorem mem_handlers_writer {w : WriterTask} (hw : w ∈ σ.writerQueue) (hs : w.session = s) :
    0 < σ.handlers s := by
  have : 0 < σ.writerQueue.countP (·.session = s) := List.countP_pos_iff.mpr ⟨w, hw, by simp [hs]⟩
  unfold handlers
  omega

private theorem mem_handlers_reader {r : ReaderTask} (hr : r ∈ σ.readerQueue) (hs : r.session = s) :
    0 < σ.handlers s := by
  have : 0 < σ.readerQueue.countP (·.session = s) := List.countP_pos_iff.mpr ⟨r, hr, by simp [hs]⟩
  unfold handlers
  omega

private theorem mem_load_pending {t : IoTask} (ht : t ∈ σ.pending) (hs : t.session = s) :
    0 < σ.handlers s + σ.posted s := by
  have : 0 < σ.pending.countP (·.session = s) := List.countP_pos_iff.mpr ⟨t, ht, by simp [hs]⟩
  simp only [pending, List.countP_append] at this
  unfold handlers posted
  omega

/-- The line a session works on is the last that was dispatched. -/
theorem arg_step (hn : ∀ c, (σ.members c).Nodup) :
    ((σ.step libs e).sessions s).arg = ((requests s σ e).getLast?).getD (σ.sessions s).arg := by
  rw [sessions_step hn]
  cases e with
  | accept =>
      simp only [change, requests]
      split <;> rfl
  | receive i line =>
      simp only [change, requests]
      split
      · cases Command.ofLine line <;> simp [dispatched, Session.readRequest, Session.write_eq]
      · rfl
  | readError i =>
      simp only [change, requests]
      split <;> rfl
  | send i k n =>
      simp only [change, requests]
      split
      · unfold Session.send
        split <;> rfl
      · rfl
  | wrote i k =>
      simp only [change, requests]
      split
      · exact Session.wrote_arg
      · rfl
  | writeError i k =>
      simp only [change, requests]
      split <;> rfl
  | runIo =>
      simp only [change, requests]
      cases σ.ioQueue with
      | nil => rfl
      | cons t rest =>
          cases t with
          | answer i r =>
              simp only [ioChange]
              split <;> simp [Session.readRequest, Session.write_eq]
          | selected i ns =>
              simp only [ioChange]
              split <;> simp [Session.readRequest, Session.write_eq]
          | transacted i ns tx facts newIds =>
              simp only [ioChange]
              split
              · simp [Session.readRequest, Session.write_eq]
              · split <;> simp [Session.write_eq]
  | postReader k =>
      simp only [change, requests]
      split
      · split <;> rfl
      · rfl
  | _ => rfl

/-! ### Every step keeps it -/

theorem requests_cases :
    requests s σ e = [] ∨ ∃ line, e = .receive s line ∧ (σ.sessions s).reads ≠ 0 ∧
      requests s σ e = [line] := by
  cases e with
  | receive i line =>
      by_cases hi : s = i ∧ (σ.sessions s).reads ≠ 0
      · refine .inr ⟨line, by rw [hi.1], hi.2, ?_⟩
        exact if_pos hi
      · exact .inl (if_neg hi)
  | _ => exact .inl rfl

theorem Known.load_fresh (hk : Known σ) (hs : σ.nextUid ≤ s) :
    σ.handlers s = 0 ∧ σ.posted s = 0 := by
  have hqueue : σ.writerQueue.countP (·.session = s) = 0 := by
    apply List.countP_eq_zero.mpr
    intro w hw
    have := hk.writerTask w hw
    simp only [decide_eq_true_eq]
    omega
  have hreader : σ.readerQueue.countP (·.session = s) = 0 := by
    apply List.countP_eq_zero.mpr
    intro r hr
    have := hk.readerTask r hr
    simp only [decide_eq_true_eq]
    omega
  have hpending : σ.pending.countP (·.session = s) = 0 := by
    apply List.countP_eq_zero.mpr
    intro t ht
    have := hk.task t ht
    simp only [decide_eq_true_eq]
    omega
  simp only [pending, List.countP_append] at hpending
  unfold handlers posted
  omega

/-- Nothing is dispatched for a session that was not started, and nothing written to it. -/
theorem Known.quiet_fresh (hk : Known σ) (hs : σ.nextUid ≤ s) :
    requests s σ e = [] ∧ repliesNow σ s e = [] := by
  have hrequests : requests s σ e = [] := by
    obtain h | ⟨line, -, hr, -⟩ := requests_cases (σ := σ) (e := e) (s := s)
    · exact h
    · exact absurd (hk.lt_of_reads hr) (Nat.not_lt.mpr hs)
  refine ⟨hrequests, ?_⟩
  have hload := load_step ⟨fun _ => .zero, fun _ => none, fun _ => []⟩ (σ := σ) (e := e) (s := s)
  have hfresh := hk.load_fresh hs
  rw [hrequests, List.length_nil] at hload
  exact List.eq_nil_of_length_eq_zero (by omega)

/-- A session with a task on the way is not reading. -/
theorem InTurn.requests_nil {seen : Store → Prop} {lines : List Bytes}
    (hσ : InTurn libs seen s lines σ) (hs : s < σ.nextUid)
    (hload : 0 < σ.handlers s + σ.posted s) : requests s σ e = [] := by
  obtain h | ⟨line, -, hr, -⟩ := requests_cases (σ := σ) (e := e) (s := s)
  · exact h
  · have := hσ.one hs
    omega

private theorem repliesTo_writer {seen : Store → Prop} {w : WriterTask} (o : Oracle)
    (hstore : seen σ.store) (hw : w ∈ writerPosts s (.ofLine (σ.sessions s).arg)) :
    RepliesTo libs seen (σ.sessions s).arg (σ.runWriterTask libs o w).2.message := by
  unfold RepliesTo
  cases hc : Command.ofLine (σ.sessions s).arg with
  | newNamespace =>
      rw [hc, writerPosts, List.mem_singleton] at hw
      subst hw
      exact ⟨o, σ.store, hstore, rfl⟩
  | transact =>
      rw [hc, writerPosts, List.mem_singleton] at hw
      subst hw
      refine ⟨o, σ.store, (σ.sessions s).selected, hstore, ?_⟩
      simp only [runWriterTask, Session.argument_eq]
      split
      · rename_i h
        rw [h]
        rfl
      · rename_i h
        rw [h]
        rfl
  | _ =>
      rw [hc] at hw
      exact absurd hw List.not_mem_nil

private theorem repliesTo_reader {seen : Store → Prop} {r : ReaderTask} (o : Oracle)
    (hstore : seen σ.store) (hr : r ∈ readerPosts s (.ofLine (σ.sessions s).arg)) :
    RepliesTo libs seen (σ.sessions s).arg (σ.runReaderTask libs o r).message := by
  unfold RepliesTo
  cases hc : Command.ofLine (σ.sessions s).arg with
  | select =>
      rw [hc, readerPosts, List.mem_singleton] at hr
      subst hr
      refine ⟨o, σ.store, hstore, ?_⟩
      simp only [runReaderTask, Session.argument_eq]
      split
      · rename_i h
        rw [h]
        rfl
      · rename_i h
        rw [h]
        rfl
  | facts =>
      rw [hc, readerPosts, List.mem_singleton] at hr
      subst hr
      exact ⟨o, σ.store, (σ.sessions s).selected, hstore, rfl⟩
  | _ =>
      rw [hc] at hr
      exact absurd hr List.not_mem_nil

private theorem repliesTo_dispatchWrites {seen : Store → Prop} (line : Bytes) :
    dispatchWrites line = [] ∨ ∃ m, dispatchWrites line = [m] ∧ RepliesTo libs seen line m := by
  unfold dispatchWrites RepliesTo
  cases Command.ofLine line with
  | ping => exact .inr ⟨_, rfl, rfl⟩
  | unknown => exact .inr ⟨_, rfl, rfl⟩
  | _ => exact .inl rfl

section Step

variable {seen seen' : Store → Prop} {lines : List Bytes}

/-- A reply that is written answers the line the session works on. -/
theorem InTurn.repliesTo_now (hσ : InTurn libs seen s lines σ) :
    repliesNow σ s e = [] ∨
      ∃ m, repliesNow σ s e = [m] ∧ RepliesTo libs seen ((σ.step libs e).sessions s).arg m := by
  rw [arg_step hσ.nodup]
  cases e with
  | receive i line =>
      simp only [repliesNow, requests]
      by_cases hi : s = i ∧ (σ.sessions s).reads ≠ 0
      · rw [if_pos hi, if_pos hi]
        exact repliesTo_dispatchWrites line
      · exact .inl (if_neg hi)
  | runIo =>
      simp only [repliesNow, requests]
      cases hq : σ.ioQueue with
      | nil => exact .inl rfl
      | cons t rest =>
          simp only
          by_cases ht : s = t.session
          · have hmem : t ∈ σ.pending := mem_pending.mpr (.inl (by simp [hq]))
            exact .inr ⟨t.message, if_pos ht, hσ.computed t hmem ht.symm⟩
          · exact .inl (if_neg ht)
  | _ => exact .inl rfl

/-- The read of a session that is started now. -/
theorem Known.reads_accept (hk : Known σ) (hs : σ.nextUid ≤ s)
    (hs' : s < (σ.step libs e).nextUid) :
    ((σ.step libs e).sessions s).reads = 1 := by
  rw [step_nextUid] at hs'
  cases e with
  | accept =>
      simp only [nextUidAfter] at hs'
      have heq : s = σ.nextUid := by omega
      rw [sessions_step hk.nodup, hk.fresh s hs]
      simp only [change]
      rw [if_pos heq]
      rfl
  | _ => exact absurd hs' (Nat.not_lt.mpr hs)

theorem InTurn.one_step (hσ : InTurn libs seen s lines σ) (he : e.Spares s)
    (hs' : s < (σ.step libs e).nextUid) :
    ((σ.step libs e).sessions s).reads + (σ.step libs e).handlers s +
      (σ.step libs e).posted s = 1 := by
  have hload := load_step libs (σ := σ) (e := e) (s := s)
  by_cases hs : s < σ.nextUid
  · have hreads := reads_step libs hσ.nodup he hs
    have hone := hσ.one hs
    omega
  · have hle : σ.nextUid ≤ s := Nat.le_of_not_lt hs
    have hreads := hσ.reads_accept hle hs'
    obtain ⟨hrequests, hreplies⟩ := hσ.quiet_fresh (e := e) hle
    obtain ⟨hh, hp⟩ := hσ.load_fresh hle
    rw [hrequests, hreplies, hh, hp] at hload
    simp only [List.length_nil] at hload
    omega

theorem InTurn.armed_step (hσ : InTurn libs seen s lines σ) (he : e.Spares s)
    (hs' : s < (σ.step libs e).nextUid) :
    ((σ.step libs e).sessions s).reads + (lines ++ requests s σ e).length =
      ((σ.step libs e).sessions s).replies.length + 1 := by
  rw [replies_step hσ.nodup, List.length_append, List.length_append]
  by_cases hs : s < σ.nextUid
  · have hreads := reads_step libs hσ.nodup he hs
    have harmed := hσ.armed hs
    omega
  · have hle : σ.nextUid ≤ s := Nat.le_of_not_lt hs
    obtain ⟨hrequests, hreplies⟩ := hσ.quiet_fresh (e := e) hle
    rw [hσ.reads_accept hle hs', hrequests, hreplies, hσ.unstarted hle, hσ.fresh s hle]
    rfl

theorem InTurn.current_step (hσ : InTurn libs seen s lines σ)
    (hne : lines ++ requests s σ e ≠ []) :
    (lines ++ requests s σ e).getLast? = some ((σ.step libs e).sessions s).arg := by
  rw [arg_step hσ.nodup]
  obtain h | ⟨line, -, -, h⟩ := requests_cases (σ := σ) (e := e) (s := s)
  · rw [h, List.append_nil] at hne
    rw [h, List.append_nil, hσ.current hne]
    rfl
  · rw [h]
    simp

/-- The lines up to the current one are those answered before, and the current one. -/
theorem eq_take_concat {α : Type} {l : List α} {a : α} {n : Nat} (hlen : l.length = n + 1)
    (hlast : l.getLast? = some a) : l = l.take n ++ [a] := by
  have hne : l ≠ [] := by
    intro h
    simp [h] at hlen
  have ha : l.getLast hne = a := by
    rw [List.getLast?_eq_some_getLast hne] at hlast
    exact Option.some.inj hlast
  have hdrop : l.dropLast = l.take n := by
    rw [List.dropLast_eq_take, hlen, Nat.add_sub_cancel]
  rw [← hdrop, ← ha]
  exact (List.dropLast_append_getLast hne).symm

theorem InTurn.answered_step (hσ : InTurn libs seen s lines σ) (he : e.Spares s) :
    List.Forall₂ (RepliesTo libs seen)
      ((lines ++ requests s σ e).take ((σ.step libs e).sessions s).replies.length)
      ((σ.step libs e).sessions s).replies := by
  by_cases hs : s < σ.nextUid
  · have harmed := hσ.armed hs
    have hone := hσ.one hs
    have hle : (σ.sessions s).replies.length ≤ lines.length := by omega
    rw [replies_step hσ.nodup]
    obtain h | ⟨m, hm, hanswers⟩ := hσ.repliesTo_now (e := e)
    · rw [h, List.append_nil, List.take_append_of_le_length hle]
      exact hσ.answered
    · have harmed' := hσ.armed_step he (Nat.lt_of_lt_of_le hs nextUid_le_step)
      have hone' := hσ.one_step he (Nat.lt_of_lt_of_le hs nextUid_le_step)
      have hreads := reads_step libs hσ.nodup he hs
      rw [replies_step hσ.nodup, hm, List.length_append, List.length_append,
        List.length_singleton] at harmed'
      rw [hm, List.length_singleton] at hreads
      have hload := load_step libs (σ := σ) (e := e) (s := s)
      rw [hm, List.length_singleton] at hload
      have hlen : (lines ++ requests s σ e).length = (σ.sessions s).replies.length + 1 := by
        rw [List.length_append]
        obtain h | ⟨line, -, hr, h⟩ := requests_cases (σ := σ) (e := e) (s := s)
        · rw [h, List.length_nil] at hload harmed' ⊢
          omega
        · rw [h, List.length_singleton] at hreads harmed' ⊢
          omega
      have hne : lines ++ requests s σ e ≠ [] := by
        intro h
        rw [h] at hlen
        simp at hlen
      have hsplit := eq_take_concat hlen (hσ.current_step hne)
      rw [List.take_append_of_le_length hle] at hsplit
      rw [hm, List.length_append, List.length_singleton, List.take_of_length_le hlen.le, hsplit]
      exact List.rel_append hσ.answered (.cons hanswers .nil)
  · have hle : σ.nextUid ≤ s := Nat.le_of_not_lt hs
    obtain ⟨-, hreplies⟩ := hσ.quiet_fresh (e := e) hle
    rw [replies_step hσ.nodup, hreplies, hσ.fresh s hle]
    exact .nil

/-- **Every step that leaves the socket of the session alone keeps the exchange in turn.** -/
theorem InTurn.step (hσ : InTurn libs seen s lines σ) (he : e.Spares s)
    (hseen : ∀ st, seen st → seen' st) (hstore : seen' σ.store) :
    InTurn libs seen' s (lines ++ requests s σ e) (σ.step libs e) where
  toKnown := hσ.toKnown.step e
  unstarted hs := by
    have hle : σ.nextUid ≤ s := nextUid_le_step.trans hs
    rw [hσ.unstarted hle, (hσ.quiet_fresh hle).1]
    rfl
  one hs := hσ.one_step he hs
  armed hs := hσ.armed_step he hs
  current hne := hσ.current_step hne
  writer w hw hs := by
    rw [arg_step hσ.nodup]
    obtain hw | ⟨i, line, rfl, hr, hw⟩ := mem_writerQueue_step hw
    · -- the session has a task, so this event is no line of its own
      have hload : 0 < σ.handlers s + σ.posted s := Nat.add_pos_left (mem_handlers_writer hw hs) _
      rw [hσ.requests_nil (hs ▸ hσ.writerTask w hw) hload]
      exact hσ.writer w hw hs
    · rw [session_writerPosts hw] at hs
      subst hs
      simp only [requests]
      rw [if_pos ⟨trivial, hr⟩]
      exact hw
  reader r hr hs := by
    rw [arg_step hσ.nodup]
    obtain hr | ⟨i, line, rfl, hreads, hr⟩ := mem_readerQueue_step hr
    · have hload : 0 < σ.handlers s + σ.posted s := Nat.add_pos_left (mem_handlers_reader hr hs) _
      rw [hσ.requests_nil (hs ▸ hσ.readerTask r hr) hload]
      exact hσ.reader r hr hs
    · rw [session_readerPosts hr] at hs
      subst hs
      simp only [requests]
      rw [if_pos ⟨trivial, hreads⟩]
      exact hr
  computed t ht hs := by
    rw [arg_step hσ.nodup]
    obtain ht | ⟨o, w, rfl, hw, rfl⟩ | ⟨o, r, rfl, hr, rfl⟩ := mem_pending_step ht
    · rw [hσ.requests_nil (hs ▸ hσ.task t ht) (mem_load_pending ht hs)]
      exact (hσ.computed t ht hs).mono hseen
    · rw [session_runWriterTask] at hs
      exact repliesTo_writer o hstore (hσ.writer w hw hs)
    · rw [session_runReaderTask] at hs
      exact repliesTo_reader o hstore (hσ.reader r hr hs)
  answered := (hσ.answered_step he).imp fun _ _ h => h.mono hseen

end Step

/-! ### Runs -/

/-- The stores a run passes through. -/
def StoreAlong (libs : Libs) (st : Store) (es : List Event) (store : Store) : Prop :=
  ∃ front, front <+: es ∧ store = (run (Server.step libs) (init st) front).store

theorem run_inTurn (libs : Libs) (st : Store) (s : Nat) (es : List Event)
    (hes : ∀ e ∈ es, Event.Spares s e) :
    InTurn libs (StoreAlong libs st es) s
      (record (Server.step libs) (requests s) (init st) es)
      (run (Server.step libs) (init st) es) := by
  -- the events are taken from the end, so that the record grows at its end
  induction es using List.reverseRecOn with
  | nil => exact inTurn_init libs _ s st
  | append_singleton es e ih =>
      have hfront := ih fun e' he' => hes e' (List.mem_append_left _ he')
      rw [run_concat, record_concat]
      apply hfront.step (hes e (by simp))
      · intro store hstore
        obtain ⟨front, hpre, rfl⟩ := hstore
        exact ⟨front, hpre.trans (List.prefix_append es [e]), rfl⟩
      · exact ⟨es, List.prefix_append es [e], rfl⟩

/-! ### The threads get their work done -/

/-- A step of one of the threads, as opposed to a client or the network. -/
def Event.OfThread : Event → Prop
  | .runIo | .runWriter _ | .postWriter | .runReader _ | .postReader _ => True
  | _ => False

theorem Event.OfThread.spares (he : e.OfThread) : e.Spares s := by
  cases e <;> trivial

theorem Event.OfThread.requests_nil (he : e.OfThread) : requests s σ e = [] := by
  cases e <;> first | rfl | exact he.elim

/-- The steps it takes to write the replies to all requests that were dispatched. -/
def work (σ : Server) : Nat :=
  3 * σ.writerQueue.length + 3 * σ.readerQueue.length + 2 * σ.writer.toList.length +
    2 * σ.readers.length + σ.ioQueue.length

/-- While there is work some thread can go on with it. -/
theorem exists_work_lt (libs : Libs) (hw : 0 < σ.work) :
    ∃ e, Event.OfThread e ∧ (σ.step libs e).work < σ.work := by
  have hstep : ∀ e, (σ.step libs e).work =
      3 * (writerQueueAfter σ e).length + 3 * (readerQueueAfter σ e).length +
        2 * (writerAfter libs σ e).toList.length + 2 * (readersAfter libs σ e).length +
        (ioQueueAfter σ e).length := by
    intro e
    unfold work
    rw [step_writerQueue, step_readerQueue, step_writer, step_readers, step_ioQueue]
  unfold work at hw ⊢
  cases hio : σ.ioQueue with
  | cons t rest =>
      refine ⟨.runIo, trivial, ?_⟩
      rw [← work, hstep]
      simp [writerQueueAfter, readerQueueAfter, writerAfter, readersAfter, ioQueueAfter, hio]
  | nil =>
      cases hwr : σ.writer with
      | some t =>
          refine ⟨.postWriter, trivial, ?_⟩
          rw [← work, hstep]
          simp [writerQueueAfter, readerQueueAfter, writerAfter, readersAfter, ioQueueAfter, hio,
            hwr]
          omega
      | none =>
          cases hrs : σ.readers with
          | cons t rest =>
              refine ⟨.postReader 0, trivial, ?_⟩
              rw [← work, hstep]
              simp [writerQueueAfter, readerQueueAfter, writerAfter, readersAfter, ioQueueAfter,
                hio, hwr, hrs]
              omega
          | nil =>
              cases hwq : σ.writerQueue with
              | cons w rest =>
                  refine ⟨.runWriter .calm, trivial, ?_⟩
                  rw [← work, hstep]
                  simp [writerQueueAfter, readerQueueAfter, writerAfter, readersAfter,
                    ioQueueAfter, hio, hwr, hrs, hwq]
                  omega
              | nil =>
                  cases hrq : σ.readerQueue with
                  | cons r rest =>
                      refine ⟨.runReader .calm, trivial, ?_⟩
                      rw [← work, hstep]
                      simp [writerQueueAfter, readerQueueAfter, writerAfter, readersAfter,
                        ioQueueAfter, hio, hwr, hrs, hwq, hrq]
                      omega
                  | nil => simp [hio, hwr, hrs, hwq, hrq] at hw

theorem load_of_idle (hw : σ.work = 0) : σ.handlers s = 0 ∧ σ.posted s = 0 := by
  unfold work at hw
  have hwq : σ.writerQueue = [] := List.eq_nil_of_length_eq_zero (by omega)
  have hrq : σ.readerQueue = [] := List.eq_nil_of_length_eq_zero (by omega)
  have hwr : σ.writer.toList = [] := List.eq_nil_of_length_eq_zero (by omega)
  have hrs : σ.readers = [] := List.eq_nil_of_length_eq_zero (by omega)
  have hio : σ.ioQueue = [] := List.eq_nil_of_length_eq_zero (by omega)
  unfold handlers posted
  rw [hwq, hrq, hwr, hrs, hio]
  exact ⟨rfl, rfl⟩

/-- The threads can be run until nothing is left to do. -/
theorem exists_drain (libs : Libs) : ∀ (n : Nat) (σ : Server), σ.work ≤ n →
    ∃ ts, (∀ t ∈ ts, Event.OfThread t) ∧ (run (Server.step libs) σ ts).work = 0 := by
  intro n
  induction n with
  | zero =>
      intro σ hn
      exact ⟨[], fun t ht => absurd ht List.not_mem_nil, Nat.le_zero.mp hn⟩
  | succ n ih =>
      intro σ hn
      by_cases hw : σ.work = 0
      · exact ⟨[], fun t ht => absurd ht List.not_mem_nil, hw⟩
      · obtain ⟨e, he, hlt⟩ := exists_work_lt libs (Nat.pos_of_ne_zero hw)
        obtain ⟨ts, hts, hzero⟩ := ih (σ.step libs e) (by omega)
        refine ⟨e :: ts, ?_, hzero⟩
        intro t ht
        rcases List.mem_cons.mp ht with rfl | ht
        · exact he
        · exact hts t ht

private theorem record_threads (libs : Libs) (s : Nat) : ∀ (ts : List Event) (σ : Server),
    (∀ t ∈ ts, Event.OfThread t) → record (Server.step libs) (requests s) σ ts = [] := by
  intro ts
  induction ts with
  | nil => intro σ _; rfl
  | cons t ts ih =>
      intro σ hts
      rw [record, (hts t List.mem_cons_self).requests_nil, List.nil_append]
      exact ih _ fun t' ht' => hts t' (List.mem_cons_of_mem _ ht')

/-- The places the request of a session can be in. -/
def InOnePlace (σ : Server) (s : Nat) : Prop :=
  ((σ.sessions s).reads = 1 ∧ σ.handlers s = 0 ∧ σ.posted s = 0) ∨
  ((σ.sessions s).reads = 0 ∧ σ.handlers s = 1 ∧ σ.posted s = 0) ∨
  ((σ.sessions s).reads = 0 ∧ σ.handlers s = 0 ∧ σ.posted s = 1)

theorem InTurn.inOnePlace {seen : Store → Prop} {lines : List Bytes}
    (hσ : InTurn libs seen s lines σ) (hs : s < σ.nextUid) : σ.InOnePlace s := by
  have hone := hσ.one hs
  unfold InOnePlace
  omega

/-- With the threads idle, every line is answered. -/
theorem InTurn.answered_of_idle {seen : Store → Prop} {lines : List Bytes}
    (hσ : InTurn libs seen s lines σ) (hs : s < σ.nextUid) (hidle : σ.work = 0) :
    (σ.sessions s).reads = 1 ∧
      List.Forall₂ (RepliesTo libs seen) lines (σ.sessions s).replies := by
  obtain ⟨hh, hp⟩ := load_of_idle (s := s) hidle
  have hone := hσ.one hs
  have harmed := hσ.armed hs
  have hanswered := hσ.answered
  rw [List.take_of_length_le (by omega)] at hanswered
  exact ⟨by omega, hanswered⟩

theorem nextUid_le_run (libs : Libs) : ∀ (es : List Event) (σ : Server),
    σ.nextUid ≤ (run (Server.step libs) σ es).nextUid := by
  intro es
  induction es with
  | nil => intro σ; exact le_rfl
  | cons e es ih => intro σ; exact nextUid_le_step.trans (ih (σ.step libs e))

/--
**One reply per request, in order.**  In every run that leaves the socket of a started
session alone, the session is in one place; every reply has come with a read; the
replies written so far answer the first of its lines, one each; and once the threads
have run on, every line is answered and the session reads again.
-/
theorem run_one_reply_per_request (libs : Libs) (st : Store) (s : Nat) (es : List Event)
    (hes : ∀ e ∈ es, Event.Spares s e) (hs : s < (run (Server.step libs) (init st) es).nextUid) :
    let σ := run (Server.step libs) (init st) es
    let lines := record (Server.step libs) (requests s) (init st) es
    σ.InOnePlace s ∧
    (σ.sessions s).reads + lines.length = (σ.sessions s).replies.length + 1 ∧
    List.Forall₂ (RepliesTo libs (StoreAlong libs st es))
      (lines.take (σ.sessions s).replies.length) (σ.sessions s).replies ∧
    ∃ ts, (∀ t ∈ ts, Event.OfThread t) ∧
      ((run (Server.step libs) σ ts).sessions s).reads = 1 ∧
      List.Forall₂ (RepliesTo libs (StoreAlong libs st (es ++ ts)))
        lines ((run (Server.step libs) σ ts).sessions s).replies := by
  intro σ lines
  have hσ : InTurn libs (StoreAlong libs st es) s lines σ := run_inTurn libs st s es hes
  refine ⟨hσ.inOnePlace hs, hσ.armed hs, hσ.answered, ?_⟩
  obtain ⟨ts, hts, hidle⟩ := exists_drain libs σ.work σ le_rfl
  refine ⟨ts, hts, ?_⟩
  have hall : ∀ e ∈ es ++ ts, Event.Spares s e := by
    intro e he
    rcases List.mem_append.mp he with he | he
    · exact hes e he
    · exact (hts e he).spares
  have hdrained := run_inTurn libs st s (es ++ ts) hall
  rw [run_append, record_append, record_threads libs s ts _ hts, List.append_nil] at hdrained
  exact hdrained.answered_of_idle (hs.trans_le (nextUid_le_run libs ts σ)) hidle

/-- Two lines to one session: a transaction, and a select while nobody else is there. -/
def exchangeRun : List Event :=
  [.accept, .receive 0 (ascii "t[[60,50,7,0]]\r"), .runWriter .calm, .postWriter, .runIo,
    .receive 0 (ascii "s1\r"), .runReader .calm]

/-- The transaction is answered with its facts, and the select is refused. -/
theorem exchangeRun_one_reply_per_request :
    let es := exchangeRun ++ [.postReader 0, .runIo]
    let σ := run (Server.step sampleLibs) (init (dbOpen .calm [])) es
    let replies : List Msg := [.reply (.response 1 [⟨60, 50, .int 7, 1, false⟩] []), .reply .ackErr]
    σ.InOnePlace 0 ∧ (σ.sessions 0).reads = 1 ∧ (σ.sessions 0).replies = replies ∧
      List.Forall₂ (RepliesTo sampleLibs (StoreAlong sampleLibs (dbOpen .calm []) es))
        [ascii "t[[60,50,7,0]]\r", ascii "s1\r"] replies := by
  intro es σ replies
  have hes : ∀ e ∈ es, Event.Spares 0 e := by
    intro e he
    simp only [es, exchangeRun, List.mem_append, List.mem_cons, List.not_mem_nil, or_false] at he
    rcases he with (rfl | rfl | rfl | rfl | rfl | rfl | rfl) | rfl | rfl <;> trivial
  have hs : 0 < σ.nextUid := by decide +kernel
  have hreplies : (σ.sessions 0).replies = replies := by decide +kernel
  have hlines : record (Server.step sampleLibs) (requests 0) (init (dbOpen .calm [])) es =
      [ascii "t[[60,50,7,0]]\r", ascii "s1\r"] := by
    decide +kernel
  obtain ⟨hplace, hreads, hanswers, -⟩ :=
    run_one_reply_per_request sampleLibs (dbOpen .calm []) 0 es hes hs
  rw [hlines] at hreads hanswers
  have hreads : (σ.sessions 0).reads + 2 = (σ.sessions 0).replies.length + 1 := hreads
  have hanswers : List.Forall₂ _ (List.take (σ.sessions 0).replies.length _)
    (σ.sessions 0).replies := hanswers
  rw [hreplies] at hreads hanswers
  exact ⟨hplace, Nat.add_right_cancel hreads, hreplies, hanswers⟩

end Server

end Nstore
