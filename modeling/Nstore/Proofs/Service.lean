/-
The server does what the service does.

Every event of the server is matched by some steps of the service: a line that is
read arrives there, and a request is served in the moment in which a handler runs,
which lies between its arrival and its reply.  So the interleavings of the threads
are the runs of a service that takes one request at a time.

A reply is made before it is written.  What is made and not written is `underway`,
at most one message a session, since a session is in one place at a time.
-/
import Nstore.Service
import Nstore.Proofs.Exchange

namespace Nstore

open Machine

/-! ### The service -/

namespace Service

variable {sha256 : Bytes → Value} {o : Oracle} {S : Service} {s : Nat} {ask : ClientRequest}

/-- What is served, with its answer. -/
theorem serve_cons {rest : List ClientRequest} (h : S.backlog s = ask :: rest) :
    S.serve sha256 o s =
      { store := (ask.answer sha256 o S.store (S.ns s)).2.1
        ns := fun i => if i = s then (ask.answer sha256 o S.store (S.ns s)).2.2 else S.ns i
        backlog := fun i => if i = s then rest else S.backlog i
        replies := fun i =>
          if i = s then S.replies i ++ [(ask.answer sha256 o S.store (S.ns s)).1]
          else S.replies i } := by
  unfold serve
  rw [h]

end Service

namespace Server

variable {libs : Libs} {σ : Server} {e : Event} {s : Nat}

/-! ### The steps of the service -/

/-- The steps of the service that an event stands for. -/
def acts (libs : Libs) (σ : Server) : Event → List Service.Input
  | .receive s line =>
      if (σ.sessions s).reads = 0 then []
      else
        match Command.ofLine line with
        | .ping | .unknown => [.arrives s (.ofLine libs line), .serves s .calm]
        | _ => [.arrives s (.ofLine libs line)]
  | .runWriter o =>
      match σ.writer, σ.writerQueue with
      | none, w :: _ => [.serves w.session o]
      | _, _ => []
  | .runReader o =>
      match σ.readerQueue with
      | [] => []
      | r :: _ => [.serves r.session o]
  | _ => []

/-- What a queued task will be given. -/
def writerAsk (libs : Libs) (σ : Server) : WriterTask → ClientRequest
  | .newNamespace s => .newNamespace (libs.parse (σ.sessions s).argument)
  | .transact s => .transact (libs.parse (σ.sessions s).argument)

def readerAsk (libs : Libs) (σ : Server) : ReaderTask → ClientRequest
  | .select s => .select (libs.parse (σ.sessions s).argument)
  | .facts s => .facts (libs.parse (σ.sessions s).argument)

/-- The requests of a session that wait for a handler. -/
def asked (libs : Libs) (σ : Server) (s : Nat) : List ClientRequest :=
  (σ.writerQueue.filter (·.session = s)).map (σ.writerAsk libs) ++
    (σ.readerQueue.filter (·.session = s)).map (σ.readerAsk libs)

/-- The replies to a session that are made and not written. -/
def underway (σ : Server) (s : Nat) : List Msg :=
  (σ.pending.filter (·.session = s)).map IoTask.message

/--
A server and the service it is.  A namespace that a reader has found is selected in the
service before the session knows of it.
-/
structure Serves (libs : Libs) (σ : Server) (S : Service) : Prop extends Known σ where
  one : ∀ s, (σ.sessions s).reads + σ.handlers s + σ.posted s ≤ 1
  store : S.store = σ.store
  selecting : ∀ s n, .selected s n ∈ σ.readers → S.ns s = n
  settled : ∀ s, (∀ n, .selected s n ∉ σ.readers) → S.ns s = (σ.sessions s).ns
  backlog : ∀ s, S.backlog s = σ.asked libs s
  replies : ∀ s, S.replies s = (σ.sessions s).replies ++ σ.underway s

theorem serves_init (libs : Libs) (st : Store) : Serves libs (init st) (.init st) where
  toKnown := known_init st
  one _ := Nat.zero_le 1
  store := rfl
  selecting _ _ h := absurd h List.not_mem_nil
  settled _ _ := rfl
  backlog _ := rfl
  replies _ := rfl

/-! ### What waits and what is underway -/

theorem filter_eq_nil_of_countP {α : Type} {p : α → Bool} {l : List α} (h : l.countP p = 0) :
    l.filter p = [] := List.eq_nil_of_length_eq_zero (List.countP_eq_length_filter.symm.trans h)

theorem asked_eq_nil (h : σ.handlers s = 0) : σ.asked libs s = [] := by
  unfold handlers at h
  unfold asked
  rw [filter_eq_nil_of_countP (l := σ.writerQueue) (by omega),
    filter_eq_nil_of_countP (l := σ.readerQueue) (by omega)]
  rfl

theorem countP_pending : σ.pending.countP (·.session = s) =
    σ.posted s + σ.writer.toList.countP (·.session = s) + σ.readers.countP (·.session = s) := by
  simp only [pending, List.countP_append, posted]

private theorem underway_length : (σ.underway s).length =
    σ.posted s + σ.writer.toList.countP (·.session = s) + σ.readers.countP (·.session = s) := by
  rw [← countP_pending, underway, List.length_map, List.countP_eq_length_filter]

theorem underway_length_le : (σ.underway s).length ≤ σ.handlers s + σ.posted s := by
  rw [underway_length]
  unfold handlers
  omega

/-- What waits for a handler depends on the tasks and the line of the session. -/
theorem asked_congr {σ' : Server}
    (hw : σ'.writerQueue.filter (·.session = s) = σ.writerQueue.filter (·.session = s))
    (hr : σ'.readerQueue.filter (·.session = s) = σ.readerQueue.filter (·.session = s))
    (harg : (σ'.sessions s).arg = (σ.sessions s).arg) : σ'.asked libs s = σ.asked libs s := by
  have hargument : (σ'.sessions s).argument = (σ.sessions s).argument := by
    rw [Session.argument_eq, Session.argument_eq, harg]
  unfold asked
  rw [hw, hr]
  congr 1
  · apply List.map_congr_left
    intro w hmem
    have hs : w.session = s := by simpa using (List.mem_filter.mp hmem).2
    subst hs
    cases w <;> exact congrArg _ (congrArg libs.parse hargument)
  · apply List.map_congr_left
    intro r hmem
    have hs : r.session = s := by simpa using (List.mem_filter.mp hmem).2
    subst hs
    cases r <;> exact congrArg _ (congrArg libs.parse hargument)

/-- Lists of one element at most that hold the same are the same. -/
theorem eq_of_perm_of_length_le {α : Type} {l l' : List α} (h : l.Perm l') (hl : l.length ≤ 1) :
    l = l' := by
  cases l with
  | nil => exact (List.nil_perm.mp h).symm
  | cons a l =>
      have hnil : l = [] := List.eq_nil_of_length_eq_zero (by simpa using hl)
      subst hnil
      exact List.singleton_perm.mp h

/-! ### A session is in one place at most -/

/-- A read is armed with a reply only, whatever happens to the socket. -/
theorem reads_step_le (libs : Libs) (hn : ∀ c, (σ.members c).Nodup) (hs : s < σ.nextUid) :
    ((σ.step libs e).sessions s).reads + (requests s σ e).length ≤
      (σ.sessions s).reads + (repliesNow σ s e).length := by
  by_cases he : e.Spares s
  · exact (reads_step libs hn he hs).le
  · rw [sessions_step hn]
    cases e with
    | readError i =>
        simp only [change, requests, repliesNow]
        split <;> simp
    | writeError i k =>
        simp only [change, requests, repliesNow]
        split <;> simp [Session.dropWrite]
    | _ => exact absurd trivial he

theorem Known.one_step (hk : Known σ)
    (hone : ∀ s, (σ.sessions s).reads + σ.handlers s + σ.posted s ≤ 1) (s : Nat) :
    ((σ.step libs e).sessions s).reads + (σ.step libs e).handlers s +
      (σ.step libs e).posted s ≤ 1 := by
  have hload := load_step libs (σ := σ) (e := e) (s := s)
  by_cases hs : s < σ.nextUid
  · have hreads := reads_step_le libs (e := e) hk.nodup hs
    have hle := hone s
    omega
  · have hs : σ.nextUid ≤ s := Nat.le_of_not_lt hs
    obtain ⟨hrequests, hreplies⟩ := hk.quiet_fresh (e := e) hs
    obtain ⟨hhandlers, hposted⟩ := hk.load_fresh hs
    rw [hrequests, hreplies, hhandlers, hposted] at hload
    simp only [List.length_nil] at hload
    by_cases hs' : s < (σ.step libs e).nextUid
    · have := hk.reads_accept hs hs'
      omega
    · have hfresh : ((σ.step libs e).sessions s).reads = 0 := by
        rw [(hk.step e).fresh s (Nat.le_of_not_lt hs')]
        rfl
      omega

/-! ### Events that the service does not see -/

/-- The namespace of a session changes only as a reader posts what it has found. -/
theorem ns_step (hn : ∀ c, (σ.members c).Nodup) (he : ∀ k, e ≠ .postReader k) (s : Nat) :
    ((σ.step libs e).sessions s).ns = (σ.sessions s).ns := by
  rw [sessions_step hn]
  have hneutral (hs : e.Neutral) :
      (change libs σ s (σ.sessions s) e).ns = (σ.sessions s).ns :=
    congrArg (·.1) (change_neutral hs s _)
  cases e with
  | accept =>
      simp only [change]
      split <;> rfl
  | readError i =>
      simp only [change]
      split <;> rfl
  | writeError i k =>
      simp only [change]
      split <;> rfl
  | postReader k => exact absurd rfl (he k)
  | _ => exact hneutral trivial

/-- The service stays as it is if the tasks and the lines do, and what is written was underway. -/
theorem Serves.still {S : Service} (h : Serves libs σ S) (he : ∀ k, e ≠ .postReader k)
    (hstore : (σ.step libs e).store = σ.store)
    (hw : (σ.step libs e).writerQueue = σ.writerQueue)
    (hr : (σ.step libs e).readerQueue = σ.readerQueue)
    (hrs : (σ.step libs e).readers = σ.readers) (hrequests : ∀ s, requests s σ e = [])
    (hunderway : ∀ s, repliesNow σ s e ++ (σ.step libs e).underway s = σ.underway s) :
    Serves libs (σ.step libs e) S where
  toKnown := h.toKnown.step e
  one := h.one_step h.one
  store := h.store.trans hstore.symm
  selecting s n hmem := h.selecting s n (hrs ▸ hmem)
  settled s hno := by
    rw [ns_step h.nodup he]
    exact h.settled s (hrs ▸ hno)
  backlog s := by
    rw [h.backlog]
    apply Eq.symm
    apply asked_congr
    · rw [hw]
    · rw [hr]
    · rw [arg_step h.nodup, hrequests]
      rfl
  replies s := by rw [replies_step h.nodup, List.append_assoc, hunderway, h.replies]

private theorem underway_runIo {t : IoTask} {rest : List IoTask} (hq : σ.ioQueue = t :: rest)
    (s : Nat) :
    repliesNow σ s .runIo ++ (σ.step libs .runIo).underway s = σ.underway s := by
  unfold underway pending
  rw [step_ioQueue, step_writer, step_readers]
  simp only [repliesNow, ioQueueAfter, writerAfter, readersAfter, hq, List.tail_cons,
    List.cons_append, List.filter_cons]
  by_cases ht : s = t.session
  · simp [ht]
  · have ht' : ¬ t.session = s := fun h => ht h.symm
    simp [ht, ht']

private theorem underway_postWriter (s : Nat) :
    (σ.step libs .postWriter).underway s = σ.underway s := by
  unfold underway pending
  rw [step_ioQueue, step_writer, step_readers]
  simp [ioQueueAfter, writerAfter, readersAfter]

/-! ### A line is read -/

/-- What a handler is left to do with a line. -/
def leaves (libs : Libs) (line : Bytes) : List ClientRequest :=
  match Command.ofLine line with
  | .ping => []
  | .unknown => []
  | _ => [.ofLine libs line]

/-- A request that needs no handler is served as it arrives. -/
theorem run_acts_receive {sha256 : Bytes → Value} {S : Service} {i : Nat} {line : Bytes}
    (hr : (σ.sessions i).reads ≠ 0) (hnone : S.backlog i = []) :
    run (Service.step sha256) S (σ.acts libs (.receive i line)) =
      { S with
        backlog := fun s => if s = i then leaves libs line else S.backlog s
        replies := fun s =>
          if s = i then S.replies s ++ dispatchWrites line else S.replies s } := by
  have harrive (ask : ClientRequest) : (S.arrive i ask).backlog i = [ask] := by
    simp [Service.arrive, hnone]
  have hns : (fun s => if s = i then S.ns i else S.ns s) = S.ns := by
    funext s
    split
    · rename_i hs
      rw [hs]
    · rfl
  simp only [acts, if_neg hr]
  unfold leaves dispatchWrites
  cases hc : Command.ofLine line with
  | ping =>
      simp only [run, List.foldl_cons, List.foldl_nil, Service.step]
      rw [Service.serve_cons (harrive _)]
      simp only [Service.arrive, ClientRequest.ofLine, hc, ClientRequest.answer, hns,
        Service.mk.injEq, true_and]
      constructor
      · funext s
        split <;> rfl
      · rfl
  | unknown =>
      simp only [run, List.foldl_cons, List.foldl_nil, Service.step]
      rw [Service.serve_cons (harrive _)]
      simp only [Service.arrive, ClientRequest.ofLine, hc, ClientRequest.answer, hns,
        Service.mk.injEq, true_and,
        and_true]
      funext s
      split <;> rfl
  | _ =>
      simp only [run, List.foldl_cons, List.foldl_nil, Service.step, Service.arrive,
        Service.mk.injEq, true_and]
      constructor
      · funext s
        split
        · rename_i hs
          rw [hs, hnone]
          rfl
        · rfl
      · funext s
        rw [List.append_nil, ite_self]

private theorem filter_writerPosts {i : Nat} {cmd : Command} (hs : s ≠ i) :
    (writerPosts i cmd).filter (·.session = s) = [] := by
  apply List.filter_eq_nil_iff.mpr
  intro w hw
  rw [session_writerPosts hw]
  simpa using Ne.symm hs

private theorem filter_readerPosts {i : Nat} {cmd : Command} (hs : s ≠ i) :
    (readerPosts i cmd).filter (·.session = s) = [] := by
  apply List.filter_eq_nil_iff.mpr
  intro r hr
  rw [session_readerPosts hr]
  simpa using Ne.symm hs

private theorem asked_receive {i : Nat} {line : Bytes} (hn : ∀ c, (σ.members c).Nodup)
    (hr : (σ.sessions i).reads ≠ 0) (hload : σ.handlers i = 0) (s : Nat) :
    (σ.step libs (.receive i line)).asked libs s =
      if s = i then leaves libs line else σ.asked libs s := by
  by_cases hs : s = i
  · subst hs
    have harg : ((σ.step libs (.receive s line)).sessions s).arg =
        ((requests s σ (.receive s line)).getLast?).getD (σ.sessions s).arg := arg_step hn
    rw [requests, if_pos ⟨rfl, hr⟩] at harg
    simp only [List.getLast?_singleton, Option.getD_some] at harg
    unfold handlers at hload
    have hw : σ.writerQueue.filter (·.session = s) = [] := filter_eq_nil_of_countP (by omega)
    have hq : σ.readerQueue.filter (·.session = s) = [] := filter_eq_nil_of_countP (by omega)
    rw [if_pos rfl]
    unfold asked leaves
    rw [step_writerQueue, step_readerQueue]
    simp only [writerQueueAfter, readerQueueAfter, if_neg hr, List.filter_append, hw, hq,
      List.nil_append]
    cases hc : Command.ofLine line <;>
      simp [writerPosts, readerPosts, WriterTask.session, ReaderTask.session, writerAsk, readerAsk,
        ClientRequest.ofLine, hc, Session.argument, harg]
  · rw [if_neg hs]
    apply asked_congr
    · rw [step_writerQueue]
      simp only [writerQueueAfter, if_neg hr, List.filter_append]
      rw [filter_writerPosts hs, List.append_nil]
    · rw [step_readerQueue]
      simp only [readerQueueAfter, if_neg hr, List.filter_append]
      rw [filter_readerPosts hs, List.append_nil]
    · rw [arg_step hn, requests, if_neg fun h => hs h.1]
      rfl

theorem Serves.receive {S : Service} {i : Nat} {line : Bytes} (h : Serves libs σ S)
    (hr : (σ.sessions i).reads ≠ 0) :
    Serves libs (σ.step libs (.receive i line))
      (run (Service.step libs.sha256) S (σ.acts libs (.receive i line))) := by
  have hone := h.one i
  have hload : σ.handlers i = 0 := by omega
  have hbacklog : S.backlog i = [] := (h.backlog i).trans (asked_eq_nil hload)
  have hunderway : σ.underway i = [] := by
    apply List.eq_nil_of_length_eq_zero
    have := underway_length_le (σ := σ) (s := i)
    omega
  have hpending (s : Nat) : (σ.step libs (.receive i line)).underway s = σ.underway s := by
    unfold underway pending
    rw [step_ioQueue, step_writer, step_readers]
    rfl
  have hreaders : (σ.step libs (.receive i line)).readers = σ.readers := step_readers
  rw [run_acts_receive hr hbacklog]
  exact
    { toKnown := h.toKnown.step _
      one := h.one_step h.one
      store := h.store.trans (step_store (e := .receive i line)).symm
      selecting := fun s n hmem => h.selecting s n (hreaders ▸ hmem)
      settled := fun s hno => by
        rw [ns_step h.nodup fun k => Event.noConfusion]
        exact h.settled s (hreaders ▸ hno)
      backlog := fun s => by
        rw [asked_receive h.nodup hr hload, ← h.backlog]
      replies := fun s => by
        rw [replies_step h.nodup, hpending]
        simp only [repliesNow]
        by_cases hs : s = i
        · subst hs
          rw [if_pos rfl, if_pos ⟨rfl, hr⟩, hunderway, List.append_nil, h.replies, hunderway,
            List.append_nil]
        · rw [if_neg hs, if_neg fun h => hs h.1, h.replies, List.append_nil] }

/-! ### A handler runs -/

/-- The namespace a session has after a completion of its own. -/
def nsAfter (ns : Nat) : IoTask → Nat
  | .selected _ n => n
  | _ => ns

private theorem answer_writerAsk (o : Oracle) (w : WriterTask) :
    (σ.writerAsk libs w).answer libs.sha256 o σ.store (σ.sessions w.session).ns =
      ((σ.runWriterTask libs o w).2.message, (σ.runWriterTask libs o w).1,
        (σ.sessions w.session).ns) := by
  cases w with
  | newNamespace s => rfl
  | transact s =>
      simp only [writerAsk, ClientRequest.answer, runWriterTask, WriterTask.session, Session.selected]
      split
      · rename_i h
        rw [h]
        rfl
      · rename_i h
        rw [h]
        rfl

theorem nsAfter_writerTask (o : Oracle) (w : WriterTask) (ns : Nat) :
    nsAfter ns (σ.runWriterTask libs o w).2 = ns := by
  cases w with
  | newNamespace s => rfl
  | transact s =>
      simp only [runWriterTask]
      split <;> rfl

private theorem answer_readerAsk (o : Oracle) (r : ReaderTask) :
    (σ.readerAsk libs r).answer libs.sha256 o σ.store (σ.sessions r.session).ns =
      ((σ.runReaderTask libs o r).message, σ.store,
        nsAfter (σ.sessions r.session).ns (σ.runReaderTask libs o r)) := by
  cases r with
  | facts s => rfl
  | select s =>
      simp only [readerAsk, ClientRequest.answer, runReaderTask, ReaderTask.session]
      cases handleSelect o σ.store (libs.parse (σ.sessions s).argument) with
      | none => rfl
      | some n => rfl

/-- A request that is served leaves what waits and is underway. -/
theorem Serves.handled {S : Service} {o : Oracle} {i : Nat}
    (h : Serves libs σ S) (ask : ClientRequest) (t : IoTask) (he : ∀ k, e ≠ .postReader k)
    (hreplies : ∀ s, repliesNow σ s e = [])
    (hns : S.ns i = (σ.sessions i).ns) (hasked : σ.asked libs i = [ask])
    (hasked' : ∀ s, (σ.step libs e).asked libs s = if s = i then [] else σ.asked libs s)
    (hwas : σ.underway i = [])
    (hunderway : ∀ s, (σ.step libs e).underway s = if s = i then [t.message] else σ.underway s)
    (hselects : ∀ s n, .selected s n ∈ (σ.step libs e).readers ↔
      (if s = i then t = .selected s n else .selected s n ∈ σ.readers))
    (hsession : t.session = i)
    (hanswer : ask.answer libs.sha256 o σ.store (σ.sessions i).ns =
      (t.message, (σ.step libs e).store, nsAfter (σ.sessions i).ns t)) :
    Serves libs (σ.step libs e) (S.serve libs.sha256 o i) := by
  rw [Service.serve_cons ((h.backlog i).trans hasked), hns, h.store, hanswer]
  exact
    { toKnown := h.toKnown.step e
      one := h.one_step h.one
      store := rfl
      selecting := fun s n hmem => by
        have hsel := (hselects s n).mp hmem
        simp only
        by_cases hs : s = i
        · rw [if_pos hs] at hsel ⊢
          rw [hsel]
          rfl
        · rw [if_neg hs] at hsel ⊢
          exact h.selecting s n hsel
      settled := fun s hno => by
        rw [ns_step h.nodup he]
        simp only
        by_cases hs : s = i
        · subst hs
          rw [if_pos rfl]
          cases t with
          | answer s' r => rfl
          | transacted s' ns tx facts newIds => rfl
          | selected s' n =>
              have hsession : s' = s := hsession
              subst hsession
              exact absurd ((hselects s' n).mpr (if_pos rfl ▸ rfl)) (hno n)
        · rw [if_neg hs]
          apply h.settled
          intro n hmem
          apply hno n
          rw [hselects, if_neg hs]
          exact hmem
      backlog := fun s => by
        rw [hasked', ← h.backlog]
      replies := fun s => by
        rw [replies_step h.nodup, hreplies, List.append_nil, hunderway]
        simp only
        by_cases hs : s = i
        · subst hs
          rw [if_pos rfl, if_pos rfl, h.replies, hwas, List.append_nil]
        · rw [if_neg hs, if_neg hs]
          exact h.replies s }

theorem Serves.runWriter {S : Service} {o : Oracle} {w : WriterTask} {rest : List WriterTask}
    (h : Serves libs σ S) (hw : σ.writer = none) (hq : σ.writerQueue = w :: rest) :
    Serves libs (σ.step libs (.runWriter o)) (S.serve libs.sha256 o w.session) := by
  have hone := h.one w.session
  unfold handlers at hone
  rw [hq, List.countP_cons_of_pos (by simp)] at hone
  have hrest : rest.filter (·.session = w.session) = [] := filter_eq_nil_of_countP (by omega)
  have hreader : σ.readerQueue.filter (·.session = w.session) = [] :=
    filter_eq_nil_of_countP (by omega)
  have hreaders : σ.readers.filter (·.session = w.session) = [] :=
    filter_eq_nil_of_countP (by omega)
  have hposted : σ.ioQueue.filter (·.session = w.session) = [] :=
    filter_eq_nil_of_countP (by unfold posted at hone; omega)
  have hno (n : Nat) : .selected w.session n ∉ σ.readers := by
    intro hmem
    have := List.filter_eq_nil_iff.mp hreaders _ hmem
    exact this (by simp [IoTask.session])
  apply h.handled (σ.writerAsk libs w) (σ.runWriterTask libs o w).2
  · intro k
    exact Event.noConfusion
  · intro s
    rfl
  · exact h.settled w.session hno
  · unfold asked
    rw [hq, List.filter_cons_of_pos (by simp), hrest, hreader]
    rfl
  · intro s
    by_cases hs : s = w.session
    · rw [if_pos hs]
      unfold asked
      rw [step_writerQueue, step_readerQueue]
      simp only [writerQueueAfter, readerQueueAfter, hw, hq, List.tail_cons, hs, hrest, hreader]
      rfl
    · rw [if_neg hs]
      apply asked_congr
      · rw [step_writerQueue]
        simp only [writerQueueAfter, hw, hq, List.tail_cons]
        rw [List.filter_cons_of_neg (by simpa using Ne.symm hs)]
      · rw [step_readerQueue]
        rfl
      · rw [arg_step h.nodup]
        rfl
  · unfold underway pending
    rw [hw]
    simp [hposted, hreaders]
  · intro s
    unfold underway pending
    rw [step_ioQueue, step_writer, step_readers]
    simp only [ioQueueAfter, writerAfter, readersAfter, hw, hq, Option.toList_some,
      Option.toList_none, List.append_nil, List.filter_append]
    by_cases hs : s = w.session
    · rw [if_pos hs, hs, hposted, hreaders,
        List.filter_cons_of_pos (by simp [session_runWriterTask])]
      rfl
    · rw [if_neg hs, List.filter_cons_of_neg (by simpa [session_runWriterTask] using Ne.symm hs)]
      simp
  · intro s n
    rw [step_readers]
    simp only [readersAfter]
    by_cases hs : s = w.session
    · rw [if_pos hs, hs]
      refine ⟨fun hmem => absurd hmem (hno n), fun ht => ?_⟩
      have hns : nsAfter (n + 1) (σ.runWriterTask libs o w).2 = n + 1 := nsAfter_writerTask o w (n + 1)
      rw [ht] at hns
      exact absurd hns (Nat.ne_of_lt (Nat.lt_succ_self n))
    · rw [if_neg hs]
  · exact session_runWriterTask o w
  · rw [answer_writerAsk, nsAfter_writerTask, step_store]
    simp only [storeAfter, hw, hq]

theorem Serves.runReader {S : Service} {o : Oracle} {r : ReaderTask} {rest : List ReaderTask}
    (h : Serves libs σ S) (hq : σ.readerQueue = r :: rest) :
    Serves libs (σ.step libs (.runReader o)) (S.serve libs.sha256 o r.session) := by
  have hone := h.one r.session
  unfold handlers at hone
  rw [hq, List.countP_cons_of_pos (by simp)] at hone
  have hrest : rest.filter (·.session = r.session) = [] := filter_eq_nil_of_countP (by omega)
  have hwriter : σ.writerQueue.filter (·.session = r.session) = [] :=
    filter_eq_nil_of_countP (by omega)
  have hreaders : σ.readers.filter (·.session = r.session) = [] :=
    filter_eq_nil_of_countP (by omega)
  have hno (n : Nat) : .selected r.session n ∉ σ.readers := by
    intro hmem
    have := List.filter_eq_nil_iff.mp hreaders _ hmem
    exact this (by simp [IoTask.session])
  have hwas : σ.pending.filter (·.session = r.session) = [] := by
    apply filter_eq_nil_of_countP
    rw [countP_pending]
    omega
  have hpending : (σ.step libs (.runReader o)).pending =
      σ.pending ++ [σ.runReaderTask libs o r] := by
    unfold pending
    rw [step_ioQueue, step_writer, step_readers]
    simp only [ioQueueAfter, writerAfter, readersAfter, hq, List.head?_cons, Option.map_some,
      Option.toList_some, List.append_assoc]
  apply h.handled (σ.readerAsk libs r) (σ.runReaderTask libs o r)
  · intro k
    exact Event.noConfusion
  · intro s
    rfl
  · exact h.settled r.session hno
  · unfold asked
    rw [hq, List.filter_cons_of_pos (by simp), hrest, hwriter]
    rfl
  · intro s
    by_cases hs : s = r.session
    · rw [if_pos hs]
      unfold asked
      rw [step_writerQueue, step_readerQueue]
      simp only [writerQueueAfter, readerQueueAfter, hq, List.tail_cons, hs, hrest, hwriter]
      rfl
    · rw [if_neg hs]
      apply asked_congr
      · rw [step_writerQueue]
        rfl
      · rw [step_readerQueue]
        simp only [readerQueueAfter, hq, List.tail_cons]
        rw [List.filter_cons_of_neg (by simpa using Ne.symm hs)]
      · rw [arg_step h.nodup]
        rfl
  · unfold underway
    rw [hwas]
    rfl
  · intro s
    unfold underway
    rw [hpending, List.filter_append]
    by_cases hs : s = r.session
    · rw [if_pos hs, hs, hwas, List.filter_cons_of_pos (by simp [session_runReaderTask])]
      rfl
    · rw [if_neg hs, List.filter_cons_of_neg (by simpa [session_runReaderTask] using Ne.symm hs)]
      simp
  · intro s n
    rw [step_readers]
    simp only [readersAfter, hq, List.head?_cons, Option.map_some, Option.toList_some,
      List.mem_append, List.mem_singleton]
    by_cases hs : s = r.session
    · rw [if_pos hs, hs]
      exact ⟨fun hmem => hmem.elim (fun hmem => absurd hmem (hno n)) Eq.symm,
        fun ht => .inr ht.symm⟩
    · rw [if_neg hs]
      refine ⟨fun hmem => hmem.elim id fun ht => ?_, .inl⟩
      have hsession : (σ.runReaderTask libs o r).session = r.session := session_runReaderTask o r
      rw [← ht] at hsession
      exact absurd hsession hs
  · exact session_runReaderTask o r
  · rw [answer_readerAsk, step_store]
    rfl

/-! ### A reader posts -/

theorem pending_postReader (libs : Libs) {k : Nat} {t : IoTask} (hk : σ.readers[k]? = some t) :
    ((σ.step libs (.postReader k)).pending).Perm σ.pending := by
  unfold pending
  rw [step_ioQueue, step_writer, step_readers]
  simp only [ioQueueAfter, writerAfter, readersAfter, hk, Option.toList_some, List.append_assoc]
  apply List.Perm.append_left
  -- what is posted goes before the writer's task, from among the readers'
  have hreaders : (t :: σ.readers.eraseIdx k).Perm σ.readers := by
    obtain ⟨hlt, rfl⟩ := List.getElem?_eq_some_iff.mp hk
    exact List.getElem_cons_eraseIdx_perm hlt
  rw [List.singleton_append]
  exact List.perm_middle.symm.trans (hreaders.append_left _)

theorem ns_postReader (hn : ∀ c, (σ.members c).Nodup) {k : Nat} {t : IoTask}
    (hk : σ.readers[k]? = some t) (s : Nat) :
    ((σ.step libs (.postReader k)).sessions s).ns =
      if s = t.session then nsAfter (σ.sessions s).ns t else (σ.sessions s).ns := by
  rw [sessions_step hn]
  simp only [change, hk]
  cases t with
  | selected i n =>
      by_cases hs : s = i
      · simp [IoTask.session, nsAfter, Session.select, hs]
      · simp [IoTask.session, hs]
  | answer i r => simp [nsAfter]
  | transacted i ns tx facts newIds => simp [nsAfter]

/-- A completion that is not posted yet stays among those of the readers. -/
theorem mem_eraseIdx_or {α : Type} {l : List α} {k : Nat} {a b : α} (hk : l[k]? = some a)
    (hb : b ∈ l) : b = a ∨ b ∈ l.eraseIdx k := by
  obtain ⟨hlt, rfl⟩ := List.getElem?_eq_some_iff.mp hk
  exact List.mem_cons.mp ((List.getElem_cons_eraseIdx_perm hlt).mem_iff.mpr hb)

theorem Serves.postReader {S : Service} {k : Nat} {t : IoTask} (h : Serves libs σ S)
    (hk : σ.readers[k]? = some t) : Serves libs (σ.step libs (.postReader k)) S where
  toKnown := h.toKnown.step _
  one := h.one_step h.one
  store := h.store.trans (step_store (e := .postReader k)).symm
  selecting s n hmem := by
    rw [step_readers] at hmem
    exact h.selecting s n (List.mem_of_mem_eraseIdx hmem)
  settled s hno := by
    rw [step_readers] at hno
    rw [ns_postReader h.nodup hk]
    -- either the session learns now what was selected, or there was nothing to learn
    by_cases hsel : ∃ n, t = .selected s n
    · obtain ⟨n, rfl⟩ := hsel
      rw [h.selecting s n (List.mem_of_getElem? hk)]
      exact (if_pos rfl).symm
    · have hsettled : S.ns s = (σ.sessions s).ns := by
        apply h.settled
        intro n hmem
        rcases mem_eraseIdx_or hk hmem with heq | hmem
        · exact hsel ⟨n, heq.symm⟩
        · exact hno n hmem
      rw [hsettled]
      split
      · rename_i hs
        cases t with
        | selected i n =>
            have hs : s = i := hs
            exact absurd ⟨n, hs ▸ rfl⟩ hsel
        | answer i r => rfl
        | transacted i ns tx facts newIds => rfl
      · rfl
  backlog s := by
    rw [h.backlog]
    apply Eq.symm
    apply asked_congr
    · rw [step_writerQueue]
      rfl
    · rw [step_readerQueue]
      rfl
    · rw [arg_step h.nodup]
      rfl
  replies s := by
    rw [replies_step h.nodup, h.replies]
    simp only [repliesNow, List.append_nil]
    congr 1
    unfold underway
    have hperm := ((pending_postReader libs hk).filter (·.session = s)).symm
    have hle : (σ.pending.filter (·.session = s)).length ≤ 1 := by
      have hlength := underway_length_le (σ := σ) (s := s)
      have hone := h.one s
      rw [underway, List.length_map] at hlength
      omega
    rw [eq_of_perm_of_length_le hperm hle]

/-! ### Every event -/

/-- **Every event of the server is matched by steps of the service.** -/
theorem Serves.step {S : Service} (h : Serves libs σ S) (e : Event) :
    Serves libs (σ.step libs e) (run (Service.step libs.sha256) S (σ.acts libs e)) := by
  have hpending (e : Event) (hio : ioQueueAfter σ e = σ.ioQueue)
      (hw : writerAfter libs σ e = σ.writer) (hr : readersAfter libs σ e = σ.readers) (s : Nat) :
      (σ.step libs e).underway s = σ.underway s := by
    unfold underway pending
    rw [step_ioQueue, step_writer, step_readers, hio, hw, hr]
  cases e with
  | accept =>
      exact h.still (fun k => Event.noConfusion) step_store step_writerQueue step_readerQueue
        step_readers (fun _ => rfl) (hpending .accept rfl rfl rfl)
  | receive i line =>
      by_cases hr : (σ.sessions i).reads = 0
      · have hacts : σ.acts libs (.receive i line) = [] := if_pos hr
        have hstep : σ.step libs (.receive i line) = σ := if_pos hr
        rw [hacts, hstep]
        exact h
      · exact h.receive hr
  | readError i =>
      exact h.still (fun k => Event.noConfusion) step_store step_writerQueue step_readerQueue
        step_readers (fun _ => rfl) (hpending (.readError i) rfl rfl rfl)
  | send i k n =>
      exact h.still (fun k => Event.noConfusion) step_store step_writerQueue step_readerQueue
        step_readers (fun _ => rfl) (hpending (.send i k n) rfl rfl rfl)
  | wrote i k =>
      exact h.still (fun k => Event.noConfusion) step_store step_writerQueue step_readerQueue
        step_readers (fun _ => rfl) (hpending (.wrote i k) rfl rfl rfl)
  | writeError i k =>
      exact h.still (fun k => Event.noConfusion) step_store step_writerQueue step_readerQueue
        step_readers (fun _ => rfl) (hpending (.writeError i k) rfl rfl rfl)
  | runIo =>
      cases hq : σ.ioQueue with
      | nil =>
          have hstep : σ.step libs .runIo = σ := by simp only [Server.step, hq]
          rw [hstep]
          exact h
      | cons t rest =>
          exact h.still (fun k => Event.noConfusion) step_store step_writerQueue step_readerQueue
            step_readers (fun _ => rfl) (underway_runIo hq)
  | runWriter o =>
      cases hw : σ.writer with
      | some t =>
          have hacts : σ.acts libs (.runWriter o) = [] := by simp only [acts, hw]
          have hstep : σ.step libs (.runWriter o) = σ := by simp only [Server.step, hw]
          rw [hacts, hstep]
          exact h
      | none =>
          cases hq : σ.writerQueue with
          | nil =>
              have hacts : σ.acts libs (.runWriter o) = [] := by simp only [acts, hw, hq]
              have hstep : σ.step libs (.runWriter o) = σ := by simp only [Server.step, hw, hq]
              rw [hacts, hstep]
              exact h
          | cons w rest =>
              have hacts : σ.acts libs (.runWriter o) = [.serves w.session o] := by
                simp only [acts, hw, hq]
              rw [hacts]
              exact h.runWriter hw hq
  | postWriter =>
      exact h.still (fun k => Event.noConfusion) step_store step_writerQueue step_readerQueue
        step_readers (fun _ => rfl) underway_postWriter
  | runReader o =>
      cases hq : σ.readerQueue with
      | nil =>
          have hacts : σ.acts libs (.runReader o) = [] := by simp only [acts, hq]
          have hstep : σ.step libs (.runReader o) = σ := by simp only [Server.step, hq]
          rw [hacts, hstep]
          exact h
      | cons r rest =>
          have hacts : σ.acts libs (.runReader o) = [.serves r.session o] := by
            simp only [acts, hq]
          rw [hacts]
          exact h.runReader hq
  | postReader k =>
      cases hk : σ.readers[k]? with
      | none =>
          have hstep : σ.step libs (.postReader k) = σ := by simp only [Server.step, hk]
          rw [hstep]
          exact h
      | some t => exact h.postReader hk

/-! ### Runs -/

/-- What arrives from a session with a step of the service. -/
def arrivals (s : Nat) : Service.Input → List ClientRequest
  | .arrives i ask => if s = i then [ask] else []
  | .serves _ _ => []

private theorem arrivals_acts (e : Event) :
    (σ.acts libs e).flatMap (arrivals s) = (requests s σ e).map (ClientRequest.ofLine libs) := by
  cases e with
  | receive i line =>
      simp only [acts, requests]
      by_cases hr : (σ.sessions i).reads = 0
      · have hno : ¬ (s = i ∧ (σ.sessions s).reads ≠ 0) := by
          rintro ⟨rfl, h⟩
          exact h hr
        rw [if_pos hr, if_neg hno]
        rfl
      · by_cases hs : s = i
        · subst hs
          rw [if_neg hr, if_pos ⟨rfl, hr⟩]
          cases Command.ofLine line <;> simp [arrivals]
        · rw [if_neg hr, if_neg fun h => hs h.1]
          cases Command.ofLine line <;> simp [arrivals, hs]
  | runWriter o =>
      simp only [acts, requests]
      split <;> rfl
  | runReader o =>
      simp only [acts, requests]
      split <;> rfl
  | _ => rfl

theorem run_serves (libs : Libs) (st : Store) (es : List Event) :
    Serves libs (run (Server.step libs) (init st) es)
      (run (Service.step libs.sha256) (.init st)
        (record (Server.step libs) (acts libs) (init st) es)) :=
  run_simulation (Serves libs) (fun _ _ e h => h.step e) es (serves_init libs st)

theorem flatMap_record (libs : Libs) (s : Nat) : ∀ (es : List Event) (σ : Server),
    (record (Server.step libs) (acts libs) σ es).flatMap (arrivals s) =
      (record (Server.step libs) (requests s) σ es).map (ClientRequest.ofLine libs) := by
  intro es
  induction es with
  | nil => intro σ; rfl
  | cons e es ih =>
      intro σ
      rw [record, record, List.flatMap_append, List.map_append, ih, arrivals_acts]

/--
**Every interleaving is a run of the service.**  The steps of the service that a run of
the server stands for leave its store; the requests that arrive from a session are the
lines read from it, in their order; and the answers to them are the replies written to
the session, but for one at most that is made and not written yet.  Once the threads
are idle nothing waits and nothing is missing.
-/
theorem run_linearizable (libs : Libs) (st : Store) (es : List Event) :
    let σ := run (Server.step libs) (init st) es
    let served := record (Server.step libs) (acts libs) (init st) es
    let S := run (Service.step libs.sha256) (.init st) served
    S.store = σ.store ∧ ∀ s,
      served.flatMap (arrivals s) =
        (record (Server.step libs) (requests s) (init st) es).map (ClientRequest.ofLine libs) ∧
      S.replies s = (σ.sessions s).replies ++ σ.underway s ∧ (σ.underway s).length ≤ 1 ∧
      (σ.work = 0 → S.backlog s = [] ∧ S.replies s = (σ.sessions s).replies) := by
  intro σ served S
  have h : Serves libs σ S := run_serves libs st es
  refine ⟨h.store, fun s => ⟨flatMap_record libs s es _, h.replies s, ?_, ?_⟩⟩
  · have hlength := underway_length_le (σ := σ) (s := s)
    have hone := h.one s
    omega
  · intro hidle
    obtain ⟨hhandlers, hposted⟩ := load_of_idle (s := s) hidle
    have hlength := underway_length_le (σ := σ) (s := s)
    have hunderway : σ.underway s = [] := List.eq_nil_of_length_eq_zero (by omega)
    refine ⟨(h.backlog s).trans (asked_eq_nil hhandlers), ?_⟩
    rw [h.replies, hunderway, List.append_nil]

end Server

end Nstore
