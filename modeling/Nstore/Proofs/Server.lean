/-
Steps of the server.

Every step is made of a few primitive changes: an update of one session, joining
and leaving a channel, publishing, and moving tasks between queues.  Here stand
what each primitive leaves alone, what is written to a session in a step, and that
tasks and channels only mention sessions that were started.
-/
import Nstore.Server

namespace Nstore

open Machine

/-! ### Sessions -/

/-- The argument of a line, as `session::argument` takes it. -/
def argumentOf (line : Bytes) : Bytes := (line.drop 1).takeWhile (· ≠ 0)

namespace Session

variable {libs : Libs} {m : Msg} {x : Session} {k n : Nat}

theorem write_eq : x.write libs m =
    { x with
      writeQueue := x.writeQueue ++ [m], log := x.log ++ [m],
      writing := if x.writeQueue.isEmpty then x.writing ++ [libs.render m] else x.writing } := by
  unfold write doWrite
  cases hq : x.writeQueue with
  | nil => rfl
  | cons a l => rfl

@[simp] theorem write_log : (x.write libs m).log = x.log ++ [m] := by rw [write_eq]

@[simp] theorem readRequest_log : x.readRequest.log = x.log := rfl

@[simp] theorem send_log : (x.send k n).log = x.log := by
  unfold send
  split <;> rfl

@[simp] theorem wrote_log : (x.wrote libs k).log = x.log := by
  unfold wrote doWrite
  split
  · simp only
    split
    · rfl
    · split <;> rfl
  · rfl

/-- Where a session stands: its namespace, and whether it was started and has ended. -/
def status (x : Session) : Nat × Bool × Bool := (x.ns, x.started, x.ended)

theorem live_eq_status : x.live = (x.status.2.1 && !x.status.2.2) := rfl

@[simp] theorem write_status : (x.write libs m).status = x.status := by rw [write_eq]; rfl

@[simp] theorem readRequest_status : x.readRequest.status = x.status := rfl

@[simp] theorem send_status : (x.send k n).status = x.status := by
  unfold send
  split <;> rfl

@[simp] theorem wrote_status : (x.wrote libs k).status = x.status := by
  unfold wrote doWrite
  split
  · simp only
    split
    · rfl
    · split <;> rfl
  · rfl

end Session

namespace Server

variable {libs : Libs} {σ : Server} {s c : Nat} {f : Session → Session}

/-! ### Primitives -/

@[simp] theorem update_sessions (i : Nat) : (σ.update s f).sessions i =
    if i = s then f (σ.sessions i) else σ.sessions i := rfl

@[simp] theorem update_members : (σ.update s f).members = σ.members := rfl

private theorem mem_join {n i : Nat} :
    i ∈ (σ.join n s).members c ↔ i ∈ σ.members c ∨ (c = n ∧ i = s) := by
  unfold join
  by_cases hc : c = n
  · by_cases hs : s ∈ σ.members c
    · simp only [hc, if_true, true_and] at hs ⊢
      rw [if_pos hs]
      exact ⟨Or.inl, fun h => h.elim id fun h => h ▸ hs⟩
    · simp only [hc, if_true, true_and] at hs ⊢
      rw [if_neg hs]
      simp
  · simp [hc]

theorem mem_leave {n i : Nat} :
    i ∈ (σ.leave n s).members c ↔ i ∈ σ.members c ∧ ¬ (c = n ∧ i = s) := by
  unfold leave
  by_cases hc : c = n
  · simp [hc]
  · simp [hc]

/-- Publishing writes to every member but the sender, and changes nothing else. -/
theorem publish_eq {n sender : Nat} {m : Msg} (hn : (σ.members n).Nodup) :
    σ.publish libs n sender m =
      { σ with sessions := fun i => if i ∈ σ.members n ∧ i ≠ sender
          then (σ.sessions i).write libs m else σ.sessions i } := by
  have key : ∀ (l : List Nat) (σ : Server), l.Nodup →
      l.foldl (fun σ s => if s ≠ sender then σ.update s (.write libs m) else σ) σ =
        { σ with sessions := fun i => if i ∈ l ∧ i ≠ sender
            then (σ.sessions i).write libs m else σ.sessions i } := by
    intro l
    induction l with
    | nil => intro σ _; simp
    | cons a l ih =>
        intro σ hl
        obtain ⟨ha, hl⟩ := List.nodup_cons.mp hl
        rw [List.foldl_cons, ih _ hl]
        by_cases hs : a = sender
        · subst hs
          simp only [ne_eq, not_true_eq_false, if_false]
          congr 1
          funext i
          have : (i ∈ l ∧ ¬ i = a) ↔ (i ∈ a :: l ∧ ¬ i = a) := by
            rw [List.mem_cons]
            tauto
          simp only [this]
        · rw [if_pos hs]
          unfold update
          congr 1
          funext i
          by_cases hi : i = a
          · subst hi
            simp [ha, hs]
          · simp [hi]
  exact key (σ.members n) σ hn

/-! ### What a step does to a session -/

/-- The effect of a dispatched request on its session. -/
def dispatched (libs : Libs) (x : Session) : Command → Session
  | .ping => (x.write libs (.echo x.argument)).readRequest
  | .unknown => (x.write libs (.reply .ackErr)).readRequest
  | _ => x

/-- The effect of a posted task on a session. -/
def ioChange (libs : Libs) (members : Nat → List Nat) (i : Nat) (x : Session) : IoTask → Session
  | .answer s r => if i = s then (x.write libs (.reply r)).readRequest else x
  | .selected s _ => if i = s then (x.write libs (.reply .ackOk)).readRequest else x
  | .transacted s ns tx facts newIds =>
      if i = s then (x.write libs (.reply (.response tx facts newIds))).readRequest
      else if i ∈ members ns then x.write libs (.event tx facts) else x

/-- The effect of an event on a session. -/
def change (libs : Libs) (σ : Server) (i : Nat) (x : Session) : Event → Session
  | .accept => if i = σ.nextUid then { x with started := true }.readRequest else x
  | .receive s line =>
      if i = s ∧ x.reads ≠ 0 then
        dispatched libs { x with reads := x.reads - 1, arg := line } (.ofLine line)
      else x
  | .readError s =>
      if i = s ∧ x.reads ≠ 0 then { x with reads := x.reads - 1, ended := true } else x
  | .send s k n => if i = s then x.send k n else x
  | .wrote s k => if i = s then x.wrote libs k else x
  | .writeError s k =>
      if i = s ∧ (x.writing[k]?).isSome then { x.dropWrite k with ended := true } else x
  | .runIo =>
      match σ.ioQueue with
      | [] => x
      | t :: _ => ioChange libs σ.members i x t
  | .postReader k =>
      match σ.readers[k]? with
      | some (.selected s ns) => if i = s then x.select ns else x
      | _ => x
  | _ => x

private theorem sessions_dispatch (cmd : Command) (i : Nat) :
    (σ.dispatch libs s cmd).sessions i =
      if i = s then dispatched libs (σ.sessions i) cmd else σ.sessions i := by
  cases cmd <;> simp [dispatch, dispatched]

private theorem sessions_runIoTask (hn : ∀ c, (σ.members c).Nodup) (t : IoTask) (i : Nat) :
    (σ.runIoTask libs t).sessions i = ioChange libs σ.members i (σ.sessions i) t := by
  cases t with
  | answer s r => rfl
  | selected s ns => rfl
  | transacted s ns tx facts newIds =>
      have hn : ((σ.update s (.write libs (.reply (.response tx facts newIds)))).members ns).Nodup :=
        hn ns
      simp only [runIoTask, ioChange]
      rw [publish_eq hn]
      by_cases hi : i = s
      · simp [hi]
      · by_cases hm : i ∈ σ.members ns <;> simp [hi, hm]

/-- **What a step does to a session.** -/
theorem sessions_step (hn : ∀ c, (σ.members c).Nodup) (e : Event) (i : Nat) :
    (σ.step libs e).sessions i = change libs σ i (σ.sessions i) e := by
  cases e with
  | accept => rfl
  | receive s line =>
      simp only [step, receive, change]
      by_cases hr : (σ.sessions s).reads = 0
      · rw [if_pos hr, if_neg]
        rintro ⟨rfl, h⟩
        exact h hr
      · rw [if_neg hr, sessions_dispatch]
        by_cases hi : i = s
        · subst hi
          simp [hr]
        · simp [hi]
  | readError s =>
      simp only [step, endSession, change]
      by_cases hr : (σ.sessions s).reads = 0
      · rw [if_pos hr, if_neg]
        rintro ⟨rfl, h⟩
        exact h hr
      · rw [if_neg hr]
        by_cases hi : i = s
        · subst hi
          simp [hr, leave]
        · simp [hi, leave]
  | send s k n => rfl
  | wrote s k => rfl
  | writeError s k =>
      simp only [step, endSession, change]
      by_cases hw : ((σ.sessions s).writing[k]?).isNone = true
      · rw [if_pos hw, if_neg]
        rintro ⟨rfl, h⟩
        simp [Option.isNone_iff_eq_none.mp hw] at h
      · rw [if_neg hw]
        by_cases hi : i = s
        · subst hi
          simp only [leave, update_sessions, if_true, true_and]
          rw [if_pos]
          simpa [Option.isSome_iff_ne_none] using hw
        · simp [hi, leave]
  | runIo =>
      cases hq : σ.ioQueue with
      | nil => simp only [step, change, hq]
      | cons t rest =>
          simp only [step, change, hq]
          exact sessions_runIoTask (σ := { σ with ioQueue := rest }) hn t i
  | runWriter o =>
      simp only [step, change]
      split <;> rfl
  | postWriter =>
      simp only [step, change]
      split <;> rfl
  | runReader o =>
      simp only [step, change]
      split <;> rfl
  | postReader k =>
      simp only [step, change]
      split
      · rename_i h
        rw [h]
      · rename_i t h
        rw [h]
        cases t <;> rfl

/-! ### What a step writes to a session -/

/-- What the dispatch of a line writes. -/
def dispatchWrites (line : Bytes) : List Msg :=
  match Command.ofLine line with
  | .ping => [.echo (argumentOf line)]
  | .unknown => [.reply .ackErr]
  | _ => []

/-- What a posted task writes to a session. -/
def ioWrites (members : Nat → List Nat) (i : Nat) : IoTask → List Msg
  | .answer s r => if i = s then [.reply r] else []
  | .selected s _ => if i = s then [.reply .ackOk] else []
  | .transacted s ns tx facts newIds =>
      if i = s then [.reply (.response tx facts newIds)]
      else if i ∈ members ns then [.event tx facts] else []

/-- What an event writes to a session. -/
def written (σ : Server) (i : Nat) : Event → List Msg
  | .receive s line => if i = s ∧ (σ.sessions i).reads ≠ 0 then dispatchWrites line else []
  | .runIo =>
      match σ.ioQueue with
      | [] => []
      | t :: _ => ioWrites σ.members i t
  | _ => []

private theorem dispatched_log (x : Session) (line : Bytes) (hx : x.arg = line) :
    (dispatched libs x (.ofLine line)).log = x.log ++ dispatchWrites line := by
  unfold dispatchWrites argumentOf
  cases Command.ofLine line <;> simp [dispatched, Session.argument, hx]

private theorem ioChange_log (members : Nat → List Nat) (i : Nat) (x : Session) (t : IoTask) :
    (ioChange libs members i x t).log = x.log ++ ioWrites members i t := by
  cases t with
  | answer s r =>
      simp only [ioChange, ioWrites]
      split <;> simp
  | selected s ns =>
      simp only [ioChange, ioWrites]
      split <;> simp
  | transacted s ns tx facts newIds =>
      simp only [ioChange, ioWrites]
      split
      · simp
      · split <;> simp

/-- **What a step writes to a session**, the log being all that was written. -/
theorem log_step (hn : ∀ c, (σ.members c).Nodup) (e : Event) (i : Nat) :
    ((σ.step libs e).sessions i).log = (σ.sessions i).log ++ written σ i e := by
  rw [sessions_step hn]
  cases e with
  | accept =>
      simp only [change, written]
      split <;> simp
  | receive s line =>
      simp only [change, written]
      split
      · rw [dispatched_log _ _ rfl]
      · simp
  | readError s =>
      simp only [change, written]
      split <;> simp
  | send s k n =>
      simp only [change, written]
      split <;> simp
  | wrote s k =>
      simp only [change, written]
      split <;> simp
  | writeError s k =>
      simp only [change, written]
      split <;> simp [Session.dropWrite]
  | runIo =>
      simp only [change, written]
      split
      · simp
      · exact ioChange_log _ _ _ _
  | postReader k =>
      simp only [change, written]
      split
      · split <;> simp [Session.select]
      · simp
  | _ => simp [change, written]

end Server

namespace Server

variable {libs : Libs} {σ : Server} {e : Event}

/-! ### What a step does to the queues -/

/-- Publishing only writes to sessions. -/
theorem publish_frame (n sender : Nat) (m : Msg) : σ.publish libs n sender m =
    { σ with sessions := (σ.publish libs n sender m).sessions } := by
  have key : ∀ (l : List Nat) (σ : Server), ∃ g,
      l.foldl (fun σ s => if s ≠ sender then σ.update s (.write libs m) else σ) σ =
        { σ with sessions := g } := by
    intro l
    induction l with
    | nil => intro σ; exact ⟨σ.sessions, rfl⟩
    | cons a l ih =>
        intro σ
        rw [List.foldl_cons]
        by_cases hs : a ≠ sender
        · rw [if_pos hs]
          obtain ⟨g, hg⟩ := ih (σ.update a (.write libs m))
          exact ⟨g, hg⟩
        · rw [if_neg hs]
          exact ih σ
  obtain ⟨g, hg⟩ := key (σ.members n) σ
  unfold publish
  rw [hg]

/-- The io thread posts nothing and does not touch the store. -/
theorem runIoTask_frame (t : IoTask) : σ.runIoTask libs t =
    { σ with
      sessions := (σ.runIoTask libs t).sessions, members := (σ.runIoTask libs t).members } := by
  cases t with
  | answer s r => rfl
  | selected s ns => rfl
  | transacted s ns tx facts newIds =>
      simp only [runIoTask]
      rw [publish_frame]
      rfl

/-- The task a request is posted as. -/
def writerPosts (s : Nat) : Command → List WriterTask
  | .newNamespace => [.newNamespace s]
  | .transact => [.transact s]
  | _ => []

def readerPosts (s : Nat) : Command → List ReaderTask
  | .select => [.select s]
  | .facts => [.facts s]
  | _ => []

def storeAfter (libs : Libs) (σ : Server) : Event → Store
  | .runWriter o =>
      match σ.writer, σ.writerQueue with
      | none, t :: _ => (σ.runWriterTask libs o t).1
      | _, _ => σ.store
  | _ => σ.store

def nextUidAfter (σ : Server) : Event → Nat
  | .accept => σ.nextUid + 1
  | _ => σ.nextUid

def ioQueueAfter (σ : Server) : Event → List IoTask
  | .runIo => σ.ioQueue.tail
  | .postWriter => σ.ioQueue ++ σ.writer.toList
  | .postReader k => σ.ioQueue ++ (σ.readers[k]?).toList
  | _ => σ.ioQueue

def writerQueueAfter (σ : Server) : Event → List WriterTask
  | .receive s line =>
      if (σ.sessions s).reads = 0 then σ.writerQueue
      else σ.writerQueue ++ writerPosts s (.ofLine line)
  | .runWriter _ =>
      match σ.writer with
      | none => σ.writerQueue.tail
      | some _ => σ.writerQueue
  | _ => σ.writerQueue

def readerQueueAfter (σ : Server) : Event → List ReaderTask
  | .receive s line =>
      if (σ.sessions s).reads = 0 then σ.readerQueue
      else σ.readerQueue ++ readerPosts s (.ofLine line)
  | .runReader _ => σ.readerQueue.tail
  | _ => σ.readerQueue

def writerAfter (libs : Libs) (σ : Server) : Event → Option IoTask
  | .runWriter o =>
      match σ.writer, σ.writerQueue with
      | none, t :: _ => some (σ.runWriterTask libs o t).2
      | w, _ => w
  | .postWriter => none
  | _ => σ.writer

def readersAfter (libs : Libs) (σ : Server) : Event → List IoTask
  | .runReader o => σ.readers ++ (σ.readerQueue.head?.map (σ.runReaderTask libs o)).toList
  | .postReader k => σ.readers.eraseIdx k
  | _ => σ.readers

/-- **What a step does, sessions and channels apart.** -/
theorem step_frame (e : Event) : σ.step libs e =
    { store := storeAfter libs σ e,
      nextUid := nextUidAfter σ e,
      sessions := (σ.step libs e).sessions, members := (σ.step libs e).members,
      ioQueue := ioQueueAfter σ e, writerQueue := writerQueueAfter σ e,
      readerQueue := readerQueueAfter σ e, writer := writerAfter libs σ e,
      readers := readersAfter libs σ e } := by
  cases e with
  | accept => rfl
  | receive s line =>
      by_cases hr : (σ.sessions s).reads = 0
      · simp only [step, receive, writerQueueAfter, readerQueueAfter, if_pos hr]
        rfl
      · simp only [step, receive, writerQueueAfter, readerQueueAfter, if_neg hr]
        cases Command.ofLine line <;>
          simp only [dispatch, writerPosts, readerPosts, List.append_nil] <;> rfl
  | readError s =>
      simp only [step]
      split <;> rfl
  | send s k n => rfl
  | wrote s k => rfl
  | writeError s k =>
      simp only [step]
      split <;> rfl
  | runIo =>
      obtain ⟨store, uid, sessions, members, ioQueue, wq, rq, w, rs⟩ := σ
      cases ioQueue with
      | nil => rfl
      | cons t rest =>
          simp only [step]
          rw [runIoTask_frame]
          rfl
  | runWriter o =>
      obtain ⟨store, uid, sessions, members, ioQueue, wq, rq, w, rs⟩ := σ
      cases w with
      | some t => rfl
      | none => cases wq <;> rfl
  | postWriter =>
      obtain ⟨store, uid, sessions, members, ioQueue, wq, rq, w, rs⟩ := σ
      cases w with
      | some t => rfl
      | none =>
          simp only [ioQueueAfter, Option.toList_none, List.append_nil]
          rfl
  | runReader o =>
      obtain ⟨store, uid, sessions, members, ioQueue, wq, rq, w, rs⟩ := σ
      cases rq with
      | cons t rest => rfl
      | nil =>
          simp only [readersAfter, List.head?_nil, Option.map_none, Option.toList_none,
            List.append_nil]
          rfl
  | postReader k =>
      cases hk : σ.readers[k]? with
      | none =>
          have he : σ.readers.eraseIdx k = σ.readers :=
            List.eraseIdx_of_length_le (List.getElem?_eq_none_iff.mp hk)
          simp only [step, ioQueueAfter, readersAfter, hk, he, Option.toList_none,
            List.append_nil]
          rfl
      | some t =>
          simp only [step, ioQueueAfter, readersAfter, hk]
          cases t <;> rfl

section Components

theorem step_store : (σ.step libs e).store = storeAfter libs σ e :=
  congrArg Server.store (step_frame e)

theorem step_nextUid : (σ.step libs e).nextUid = nextUidAfter σ e :=
  congrArg Server.nextUid (step_frame e)

theorem step_ioQueue : (σ.step libs e).ioQueue = ioQueueAfter σ e :=
  congrArg Server.ioQueue (step_frame e)

theorem step_writerQueue : (σ.step libs e).writerQueue = writerQueueAfter σ e :=
  congrArg Server.writerQueue (step_frame e)

theorem step_readerQueue : (σ.step libs e).readerQueue = readerQueueAfter σ e :=
  congrArg Server.readerQueue (step_frame e)

theorem step_writer : (σ.step libs e).writer = writerAfter libs σ e :=
  congrArg Server.writer (step_frame e)

theorem step_readers : (σ.step libs e).readers = readersAfter libs σ e :=
  congrArg Server.readers (step_frame e)

end Components

/-! ### What a step does to the channels -/

/-- The event adds a session to a channel. -/
def Joins (σ : Server) (c i : Nat) : Event → Prop
  | .accept => c = 0 ∧ i = σ.nextUid
  | _ => False

/-- The event takes a session out of a channel. -/
def Leaves (σ : Server) (c i : Nat) : Event → Prop
  | .readError s => (σ.sessions s).reads ≠ 0 ∧ c = (σ.sessions s).ns ∧ i = s
  | .writeError s k =>
      ((σ.sessions s).writing[k]?).isSome = true ∧ c = (σ.sessions s).ns ∧ i = s
  | .runIo => σ.ioQueue.head? = some (.selected i c)
  | _ => False

private theorem mem_members_runIoTask {t : IoTask} {c i : Nat} :
    i ∈ (σ.runIoTask libs t).members c ↔ i ∈ σ.members c ∧ t ≠ .selected i c := by
  cases t with
  | answer s r => simp [runIoTask]
  | selected s ns =>
      simp only [runIoTask, update_members, mem_leave, ne_eq, IoTask.selected.injEq]
      tauto
  | transacted s ns tx facts newIds =>
      simp only [runIoTask]
      rw [publish_frame]
      simp

theorem members_dispatch (s : Nat) (cmd : Command) :
    (σ.dispatch libs s cmd).members = σ.members := by
  cases cmd <;> rfl

/-- **What a step does to the channels.** -/
theorem mem_members_step {c i : Nat} : i ∈ (σ.step libs e).members c ↔
    (i ∈ σ.members c ∨ Joins σ c i e) ∧ ¬ Leaves σ c i e := by
  cases e with
  | accept => simp [step, start, Joins, Leaves, mem_join]
  | receive s line =>
      simp only [step, receive, Joins, Leaves, or_false, not_false_eq_true, and_true]
      split
      · rfl
      · rw [members_dispatch, update_members]
  | readError s =>
      simp only [step, endSession, Joins, Leaves, or_false]
      by_cases hr : (σ.sessions s).reads = 0
      · simp [hr]
      · rw [if_neg hr, update_members, mem_leave]
        simp [hr]
  | send s k n => simp [step, Joins, Leaves]
  | wrote s k => simp [step, Joins, Leaves]
  | writeError s k =>
      simp only [step, endSession, Joins, Leaves, or_false]
      cases hw : (σ.sessions s).writing[k]? with
      | none => simp
      | some b =>
          rw [if_neg (by simp), update_members, mem_leave]
          simp [Session.dropWrite]
  | runIo =>
      simp only [step, Joins, Leaves, or_false]
      cases hq : σ.ioQueue with
      | nil => simp
      | cons t rest => simp [mem_members_runIoTask]
  | runWriter o =>
      simp only [step, Joins, Leaves, or_false, not_false_eq_true, and_true]
      split <;> rfl
  | postWriter =>
      simp only [step, Joins, Leaves, or_false, not_false_eq_true, and_true]
      split <;> rfl
  | runReader o =>
      simp only [step, Joins, Leaves, or_false, not_false_eq_true, and_true]
      split <;> rfl
  | postReader k =>
      simp only [step, Joins, Leaves, or_false, not_false_eq_true, and_true]
      split
      · rfl
      · rename_i t _
        cases t <;> rfl

private theorem nodup_join {n s c : Nat} (h : (σ.members c).Nodup) :
    ((σ.join n s).members c).Nodup := by
  unfold join
  by_cases hc : c = n
  · by_cases hs : s ∈ σ.members c
    · simp only [if_pos hc, if_pos hs]
      exact h
    · simp only [if_pos hc, if_neg hs]
      exact List.nodup_append.mpr ⟨h, by simp, fun a ha b hb => by
        rintro rfl
        exact hs (List.mem_singleton.mp hb ▸ ha)⟩
  · simpa [hc] using h

theorem nodup_leave {n s c : Nat} (h : (σ.members c).Nodup) :
    ((σ.leave n s).members c).Nodup := by
  unfold leave
  by_cases hc : c = n
  · simp only [if_pos hc]
    exact h.filter _
  · simpa [hc] using h

private theorem nodup_runIoTask {t : IoTask} {c : Nat} (h : (σ.members c).Nodup) :
    ((σ.runIoTask libs t).members c).Nodup := by
  cases t with
  | answer s r => exact h
  | selected s ns => exact nodup_leave h
  | transacted s ns tx facts newIds =>
      simp only [runIoTask]
      rw [publish_frame]
      exact h

theorem nodup_step {c : Nat} (h : (σ.members c).Nodup) :
    ((σ.step libs e).members c).Nodup := by
  cases e with
  | accept => exact nodup_join h
  | receive s line =>
      simp only [step, receive]
      split
      · exact h
      · rw [members_dispatch]
        exact h
  | readError s =>
      simp only [step]
      split
      · exact h
      · exact nodup_leave h
  | send s k n => exact h
  | wrote s k => exact h
  | writeError s k =>
      simp only [step]
      split
      · exact h
      · exact nodup_leave h
  | runIo =>
      simp only [step]
      split
      · exact h
      · exact nodup_runIoTask h
  | runWriter o =>
      simp only [step]
      split <;> exact h
  | postWriter =>
      simp only [step]
      split <;> exact h
  | runReader o =>
      simp only [step]
      split <;> exact h
  | postReader k =>
      simp only [step]
      split
      · exact h
      · rename_i t _
        cases t <;> exact h

end Server

/-! ### Tasks -/

def IoTask.session : IoTask → Nat
  | .answer s _ => s
  | .selected s _ => s
  | .transacted s _ _ _ _ => s

def WriterTask.session : WriterTask → Nat
  | .newNamespace s => s
  | .transact s => s

def ReaderTask.session : ReaderTask → Nat
  | .select s => s
  | .facts s => s

namespace Server

variable {libs : Libs} {σ : Server} {e : Event}

/-- What is posted to the io thread, or will be. -/
def pending (σ : Server) : List IoTask := σ.ioQueue ++ σ.writer.toList ++ σ.readers

theorem mem_pending {t : IoTask} :
    t ∈ σ.pending ↔ t ∈ σ.ioQueue ∨ σ.writer = some t ∨ t ∈ σ.readers := by
  simp [pending]

/-- **What a step adds to the tasks that are pending.** -/
theorem mem_pending_step {t : IoTask} (h : t ∈ (σ.step libs e).pending) :
    t ∈ σ.pending ∨
    (∃ o w, e = .runWriter o ∧ w ∈ σ.writerQueue ∧ t = (σ.runWriterTask libs o w).2) ∨
    (∃ o r, e = .runReader o ∧ r ∈ σ.readerQueue ∧ t = σ.runReaderTask libs o r) := by
  rw [mem_pending, step_ioQueue, step_writer, step_readers] at h
  rw [mem_pending]
  cases e with
  | runIo =>
      rcases h with h | h | h
      · exact .inl (.inl (List.mem_of_mem_tail h))
      · exact .inl (.inr (.inl h))
      · exact .inl (.inr (.inr h))
  | runWriter o =>
      rcases h with h | h | h
      · exact .inl (.inl h)
      · cases hw : σ.writer with
        | some t' =>
            simp only [writerAfter, hw] at h
            exact .inl (.inr (.inl h))
        | none =>
            cases hq : σ.writerQueue with
            | nil => simp [writerAfter, hw, hq] at h
            | cons w rest =>
                simp only [writerAfter, hw, hq, Option.some.injEq] at h
                exact .inr (.inl ⟨o, w, rfl, List.mem_cons_self, h.symm⟩)
      · exact .inl (.inr (.inr h))
  | postWriter =>
      rcases h with h | h | h
      · rcases List.mem_append.mp h with h | h
        · exact .inl (.inl h)
        · exact .inl (.inr (.inl (by simpa using h)))
      · simp [writerAfter] at h
      · exact .inl (.inr (.inr h))
  | runReader o =>
      rcases h with h | h | h
      · exact .inl (.inl h)
      · exact .inl (.inr (.inl h))
      · rcases List.mem_append.mp h with h | h
        · exact .inl (.inr (.inr h))
        · cases hq : σ.readerQueue with
          | nil => simp [hq] at h
          | cons r rest =>
              refine .inr (.inr ⟨o, r, rfl, List.mem_cons_self, ?_⟩)
              simpa [hq] using h
  | postReader k =>
      rcases h with h | h | h
      · rcases List.mem_append.mp h with h | h
        · exact .inl (.inl h)
        · exact .inl (.inr (.inr (List.mem_of_getElem? (by simpa using h))))
      · exact .inl (.inr (.inl h))
      · exact .inl (.inr (.inr (List.mem_of_mem_eraseIdx h)))
  | _ => exact .inl h

/-- Only a line received adds to the queue of the writer. -/
theorem mem_writerQueue_step {w : WriterTask} (h : w ∈ (σ.step libs e).writerQueue) :
    w ∈ σ.writerQueue ∨
    ∃ s line, e = .receive s line ∧ (σ.sessions s).reads ≠ 0 ∧
      w ∈ writerPosts s (.ofLine line) := by
  rw [step_writerQueue] at h
  cases e with
  | receive s line =>
      by_cases hr : (σ.sessions s).reads = 0
      · simp only [writerQueueAfter, if_pos hr] at h
        exact .inl h
      · simp only [writerQueueAfter, if_neg hr] at h
        rcases List.mem_append.mp h with h | h
        · exact .inl h
        · exact .inr ⟨s, line, rfl, hr, h⟩
  | runWriter o =>
      cases hw : σ.writer with
      | none =>
          simp only [writerQueueAfter, hw] at h
          exact .inl (List.mem_of_mem_tail h)
      | some t =>
          simp only [writerQueueAfter, hw] at h
          exact .inl h
  | _ => exact .inl h

theorem mem_readerQueue_step {r : ReaderTask} (h : r ∈ (σ.step libs e).readerQueue) :
    r ∈ σ.readerQueue ∨
    ∃ s line, e = .receive s line ∧ (σ.sessions s).reads ≠ 0 ∧
      r ∈ readerPosts s (.ofLine line) := by
  rw [step_readerQueue] at h
  cases e with
  | receive s line =>
      by_cases hr : (σ.sessions s).reads = 0
      · simp only [readerQueueAfter, if_pos hr] at h
        exact .inl h
      · simp only [readerQueueAfter, if_neg hr] at h
        rcases List.mem_append.mp h with h | h
        · exact .inl h
        · exact .inr ⟨s, line, rfl, hr, h⟩
  | runReader o => exact .inl (List.mem_of_mem_tail h)
  | _ => exact .inl h

theorem session_writerPosts {s : Nat} {cmd : Command} {w : WriterTask}
    (h : w ∈ writerPosts s cmd) : w.session = s := by
  cases cmd <;> simp_all [writerPosts, WriterTask.session]

theorem session_readerPosts {s : Nat} {cmd : Command} {r : ReaderTask}
    (h : r ∈ readerPosts s cmd) : r.session = s := by
  cases cmd <;> simp_all [readerPosts, ReaderTask.session]

theorem session_runWriterTask (o : Oracle) (w : WriterTask) :
    (σ.runWriterTask libs o w).2.session = w.session := by
  cases w with
  | newNamespace s => rfl
  | transact s =>
      simp only [runWriterTask]
      split <;> rfl

theorem session_runReaderTask (o : Oracle) (r : ReaderTask) :
    (σ.runReaderTask libs o r).session = r.session := by
  cases r with
  | facts s => rfl
  | select s =>
      simp only [runReaderTask]
      split <;> rfl

/-! ### Only started sessions are mentioned -/

/-- Channels and tasks mention started sessions only, and a session that was not
started is as constructed. -/
structure Known (σ : Server) : Prop where
  nodup : ∀ c, (σ.members c).Nodup
  fresh : ∀ s, σ.nextUid ≤ s → σ.sessions s = .new
  started : ∀ s < σ.nextUid, (σ.sessions s).started = true
  member : ∀ c, ∀ s ∈ σ.members c, s < σ.nextUid
  task : ∀ t ∈ σ.pending, t.session < σ.nextUid
  writerTask : ∀ w ∈ σ.writerQueue, w.session < σ.nextUid
  readerTask : ∀ r ∈ σ.readerQueue, r.session < σ.nextUid

theorem known_init (st : Store) : Known (init st) where
  nodup _ := List.nodup_nil
  fresh _ _ := rfl
  started s hs := absurd hs (Nat.not_lt_zero s)
  member _ _ h := absurd h List.not_mem_nil
  task _ h := absurd h (by simp [pending, init])
  writerTask _ h := absurd h List.not_mem_nil
  readerTask _ h := absurd h List.not_mem_nil

theorem nextUid_le_step : σ.nextUid ≤ (σ.step libs e).nextUid := by
  rw [step_nextUid]
  cases e <;> simp [nextUidAfter]

theorem Known.lt_of_reads (hk : Known σ) {s : Nat} (hr : (σ.sessions s).reads ≠ 0) :
    s < σ.nextUid := by
  by_contra hs
  rw [hk.fresh s (Nat.le_of_not_lt hs)] at hr
  exact hr rfl

/-- An event leaves a session that was not started as it is. -/
theorem Known.change_fresh (hk : Known σ) {i : Nat} (hi : (σ.step libs e).nextUid ≤ i) :
    change libs σ i .new e = .new := by
  have hs : σ.nextUid ≤ i := nextUid_le_step.trans hi
  cases e with
  | accept =>
      have hne : i ≠ σ.nextUid := by
        rw [step_nextUid] at hi
        simp only [nextUidAfter] at hi
        omega
      exact if_neg hne
  | receive s line => exact if_neg fun h => h.2 rfl
  | readError s => exact if_neg fun h => h.2 rfl
  | send s k n => simp [change, Session.send, Session.new]
  | wrote s k => simp [change, Session.wrote, Session.new]
  | writeError s k => simp [change, Session.new]
  | runIo =>
      simp only [change]
      cases hq : σ.ioQueue with
      | nil => rfl
      | cons t rest =>
          have ht : t.session < σ.nextUid := hk.task t (mem_pending.mpr (.inl (by simp [hq])))
          have hne : i ≠ t.session := by omega
          cases t with
          | answer s r => exact if_neg hne
          | selected s ns => exact if_neg hne
          | transacted s ns tx facts newIds =>
              have hm : i ∉ σ.members ns := fun h => absurd (hk.member ns i h) (by omega)
              exact (if_neg hne).trans (if_neg hm)
  | postReader k =>
      simp only [change]
      split
      · rename_i s ns h
        have ht : s < σ.nextUid :=
          hk.task (.selected s ns) (mem_pending.mpr (.inr (.inr (List.mem_of_getElem? h))))
        exact if_neg (by omega)
      · rfl
  | _ => rfl

private theorem dispatched_status (x : Session) (cmd : Command) :
    (dispatched libs x cmd).status = x.status := by
  cases cmd <;> simp [dispatched]

private theorem ioChange_status (members : Nat → List Nat) (i : Nat) (x : Session) (t : IoTask) :
    (ioChange libs members i x t).status = x.status := by
  cases t with
  | answer s r =>
      simp only [ioChange]
      split <;> simp
  | selected s ns =>
      simp only [ioChange]
      split <;> simp
  | transacted s ns tx facts newIds =>
      simp only [ioChange]
      split
      · simp
      · split <;> simp

/-- Events that neither start, end nor move a session. -/
def Event.Neutral : Event → Prop
  | .accept => False
  | .readError _ => False
  | .writeError _ _ => False
  | .postReader _ => False
  | _ => True

theorem change_neutral (he : e.Neutral) (i : Nat) (x : Session) :
    (change libs σ i x e).status = x.status := by
  cases e with
  | accept => exact he.elim
  | receive s line =>
      simp only [change]
      split
      · exact dispatched_status _ _
      · rfl
  | readError s => exact he.elim
  | send s k n =>
      simp only [change]
      split <;> simp
  | wrote s k =>
      simp only [change]
      split <;> simp
  | writeError s k => exact he.elim
  | runIo =>
      simp only [change]
      split
      · rfl
      · exact ioChange_status _ _ _ _
  | postReader k => exact he.elim
  | _ => rfl

/-- Only `start` starts a session. -/
theorem change_started (i : Nat) (x : Session) : (change libs σ i x e).started =
    match e with
    | .accept => if i = σ.nextUid then true else x.started
    | _ => x.started := by
  have hneutral (he : e.Neutral) : (change libs σ i x e).started = x.started :=
    congrArg (·.2.1) (change_neutral he i x)
  cases e with
  | accept =>
      simp only [change]
      split <;> rfl
  | readError s =>
      simp only [change]
      split <;> rfl
  | writeError s k =>
      simp only [change]
      split <;> rfl
  | postReader k =>
      simp only [change]
      split
      · split <;> rfl
      · rfl
  | _ => exact hneutral trivial

/-- **Every step keeps it.** -/
theorem Known.step (hk : Known σ) (e : Event) : Known (σ.step libs e) where
  nodup c := nodup_step (hk.nodup c)
  fresh s hs := by
    rw [sessions_step hk.nodup, hk.fresh s (nextUid_le_step.trans hs), hk.change_fresh hs]
  started s hs := by
    rw [sessions_step hk.nodup, change_started]
    cases e with
    | accept =>
        simp only [step_nextUid, nextUidAfter] at hs
        by_cases he : s = σ.nextUid
        · exact if_pos he
        · exact (if_neg he).trans (hk.started s (by omega))
    | _ => exact hk.started s (by simpa only [step_nextUid, nextUidAfter] using hs)
  member c s hs := by
    rcases (mem_members_step.mp hs).1 with hs | hs
    · exact (hk.member c s hs).trans_le nextUid_le_step
    · cases e with
      | accept =>
          rw [hs.2, step_nextUid]
          exact Nat.lt_succ_self _
      | _ => exact hs.elim
  task t ht := by
    refine Nat.lt_of_lt_of_le ?_ nextUid_le_step
    obtain ht | ⟨o, w, -, hw, rfl⟩ | ⟨o, r, -, hr, rfl⟩ := mem_pending_step ht
    · exact hk.task t ht
    · rw [session_runWriterTask]
      exact hk.writerTask w hw
    · rw [session_runReaderTask]
      exact hk.readerTask r hr
  writerTask w hw := by
    refine Nat.lt_of_lt_of_le ?_ nextUid_le_step
    obtain hw | ⟨s, line, -, hr, hw⟩ := mem_writerQueue_step hw
    · exact hk.writerTask w hw
    · rw [session_writerPosts hw]
      exact hk.lt_of_reads hr
  readerTask r hr := by
    refine Nat.lt_of_lt_of_le ?_ nextUid_le_step
    obtain hr | ⟨s, line, -, hs, hr⟩ := mem_readerQueue_step hr
    · exact hk.readerTask r hr
    · rw [session_readerPosts hr]
      exact hk.lt_of_reads hs

/-! ### Libraries for runs on fixed inputs -/

/-- The libraries on the lines and messages of the runs that are carried out below. -/
def sampleLibs : Libs where
  sha256 := .ofBytes
  parse b :=
    if b = ascii "0\r" then some (.int64 0)
    else if b = ascii "1\r" then some (.int64 1)
    else if b = ascii "[[60,50,7,0]]\r" then
      some (.array [.array [.int64 60, .int64 50, .int64 7, .int64 0]])
    else none
  render m :=
    if m = .reply .ackOk then ascii "0\r\n"
    else if m = .reply (.response 1 [⟨60, 50, .int 7, 1, false⟩] []) then
      ascii "\x7b\"type\":\"response\",\"tx\":1,\"facts\":[[60,50,7,1,false]],\"new_ids\":[]\x7d\r\n"
    else if m = .event 1 [⟨60, 50, .int 7, 1, false⟩] then
      ascii "\x7b\"facts\":[[60,50,7,1,false]],\"tx\":1,\"type\":\"event\"\x7d\r\n"
    else ascii "1\r\n"

end Server

end Nstore
