/-
What survives the process.

The writer runs the requests that change the database in the order in which their lines
were read, each as it was asked: on the namespace its session had selected then, with the
argument of its line.  A signal does not change that.  What was dispatched before it is
still run, only that nobody hears of it: no byte is sent any more.

So the database of a server that is stopped and started again is the one that all the
requests leave, one after the other, as if there had never been but one process.
-/
import Nstore.Process
import Nstore.Reader
import Nstore.Proofs.Lifetime
import Nstore.Proofs.Log
import Nstore.Proofs.Tempids

namespace Nstore

open Machine

namespace Server

variable {libs : Libs} {σ : Server} {e : Event} {s : Nat}

/-! ### The requests of the writer, as they were asked -/

/-- The requests for the writer that an event dispatches. -/
def asks (libs : Libs) (σ : Server) : Event → List Request
  | .receive s line =>
      if (σ.sessions s).reads = 0 then []
      else
        match Command.ofLine line with
        | .newNamespace => [.newNamespace (libs.parse (argumentOf line))]
        | .transact => [.transact (σ.sessions s).ns (libs.parse (argumentOf line))]
        | _ => []
  | _ => []

/-- The requests asked for, and those that were run. -/
structure Serial (libs : Libs) (asked : List Request) (ran : List Input) (σ : Server) : Prop
    extends Narrow σ where
  one : ∀ s, (σ.sessions s).reads + σ.handlers s + σ.posted s ≤ 1
  split : asked = ran.map (·.2) ++ σ.writerQueue.map (σ.writerRequest libs)
  ran_ns : ∀ i ∈ ran, InputNs i

theorem serial_init (libs : Libs) (st : Store) : Serial libs [] [] (init st) where
  toKnown := known_init st
  ns _ := Nat.two_pow_pos 32
  found _ _ h := absurd h List.not_mem_nil
  one _ := Nat.zero_le 1
  split := rfl
  ran_ns _ h := absurd h List.not_mem_nil

/-- A task that is queued has its session to itself, so its request stays as it is. -/
theorem Serial.writerRequest_step {asked : List Request} {ran : List Input}
    (h : Serial libs asked ran σ) {w : WriterTask} (hw : w ∈ σ.writerQueue) (e : Event) :
    (σ.step libs e).writerRequest libs w = σ.writerRequest libs w := by
  have hqueued := mem_handlers_writer hw rfl
  have hone := h.one w.session
  have hreads : (σ.sessions w.session).reads = 0 := by omega
  have harg : ((σ.step libs e).sessions w.session).arg = (σ.sessions w.session).arg := by
    rw [arg_step h.nodup]
    obtain hnone | ⟨line, -, hr, -⟩ := requests_cases (σ := σ) (e := e) (s := w.session)
    · rw [hnone]
      rfl
    · exact absurd hreads hr
  have hns : ((σ.step libs e).sessions w.session).ns = (σ.sessions w.session).ns := by
    cases e with
    | postReader k =>
        cases hk : σ.readers[k]? with
        | none =>
            have hstep : σ.step libs (.postReader k) = σ := by simp only [Server.step, hk]
            rw [hstep]
        | some t =>
            rw [ns_postReader h.nodup hk, if_neg]
            intro hs
            -- a reader cannot have the session as well
            have htask : 0 < σ.writerQueue.countP (·.session = w.session) :=
              List.countP_pos_iff.mpr ⟨w, hw, by simp⟩
            have hreader : 0 < σ.readers.countP (·.session = w.session) :=
              List.countP_pos_iff.mpr ⟨t, List.mem_of_getElem? hk, by simp [hs]⟩
            unfold handlers at hone
            omega
    | _ => exact ns_step h.nodup (fun k => Event.noConfusion) w.session
  cases w with
  | newNamespace s =>
      simp only [writerRequest, Session.argument_eq]
      exact congrArg _ (congrArg _ (congrArg _ harg))
  | transact s =>
      have harg : ((σ.step libs e).sessions s).arg = (σ.sessions s).arg := harg
      have hns : ((σ.step libs e).sessions s).ns = (σ.sessions s).ns := hns
      simp only [writerRequest, Session.argument_eq, Session.selected, harg, hns]

/-- A request is queued as it was asked. -/
theorem Serial.writerRequest_receive {asked : List Request} {ran : List Input} {line : Bytes}
    (h : Serial libs asked ran σ) (hr : (σ.sessions s).reads ≠ 0) :
    (writerPosts s (.ofLine line)).map ((σ.step libs (.receive s line)).writerRequest libs) =
      asks libs σ (.receive s line) := by
  have harg : ((σ.step libs (.receive s line)).sessions s).arg = line := by
    rw [arg_step h.nodup, requests, if_pos ⟨rfl, hr⟩]
    rfl
  have hns : ((σ.step libs (.receive s line)).sessions s).ns = (σ.sessions s).ns :=
    ns_step h.nodup (fun k => Event.noConfusion) s
  simp only [asks, if_neg hr]
  cases Command.ofLine line with
  | newNamespace =>
      simp [writerPosts, writerRequest, Session.argument_eq, harg]
  | transact =>
      simp [writerPosts, writerRequest, Session.argument_eq, Session.selected, harg, hns]
  | _ => rfl

theorem Serial.inputs_ns {asked : List Request} {ran : List Input} (h : Serial libs asked ran σ)
    (e : Event) : ∀ i ∈ inputs libs σ e, InputNs i := by
  intro i hi n arg hreq
  obtain ⟨hnone, -⟩ | ⟨o, w, -, hone, -⟩ := inputs_cases libs σ e
  · rw [hnone] at hi
    exact absurd hi List.not_mem_nil
  · rw [hone] at hi
    rw [List.mem_singleton.mp hi] at hreq
    cases w with
    | newNamespace s => exact absurd hreq (by simp [writerRequest])
    | transact s =>
        rw [← (Request.transact.inj hreq).1]
        exact h.ns s

theorem Serial.step {asked : List Request} {ran : List Input} (h : Serial libs asked ran σ)
    (e : Event) :
    Serial libs (asked ++ asks libs σ e) (ran ++ inputs libs σ e) (σ.step libs e) where
  toNarrow := h.toNarrow.step e
  one := h.toKnown.one_step h.one
  ran_ns i hi := (List.mem_append.mp hi).elim (h.ran_ns i) (h.inputs_ns e i)
  split := by
    have hkept : ∀ ws : List WriterTask, ws ⊆ σ.writerQueue →
        ws.map ((σ.step libs e).writerRequest libs) = ws.map (σ.writerRequest libs) := by
      intro ws hws
      apply List.map_congr_left
      intro w hw
      exact h.writerRequest_step (hws hw) e
    rw [step_writerQueue, h.split]
    cases e with
    | receive s line =>
        by_cases hr : (σ.sessions s).reads = 0
        · have hasks : asks libs σ (.receive s line) = [] := if_pos hr
          simp only [writerQueueAfter, if_pos hr]
          rw [hkept _ (List.Subset.refl _), hasks]
          simp [inputs]
        · simp only [writerQueueAfter, if_neg hr]
          simp only [List.map_append]
          rw [hkept _ (List.Subset.refl _), h.writerRequest_receive hr]
          simp [inputs]
    | runWriter o =>
        cases hw : σ.writer with
        | some t =>
            simp only [writerQueueAfter, inputs, asks, hw, List.append_nil]
            rw [hkept _ (List.Subset.refl _)]
        | none =>
            cases hq : σ.writerQueue with
            | nil => simp [writerQueueAfter, inputs, asks, hw, hq]
            | cons w rest =>
                simp only [writerQueueAfter, inputs, asks, hw, hq, List.tail_cons, List.append_nil]
                rw [hkept rest (hq ▸ List.subset_cons_self w rest)]
                simp
    | _ =>
        simp only [writerQueueAfter, inputs, asks, List.append_nil]
        rw [hkept _ (List.Subset.refl _)]

theorem run_serial (libs : Libs) (es : List Event) : ∀ {σ : Server} {asked : List Request}
    {ran : List Input}, Serial libs asked ran σ →
      Serial libs (asked ++ record (Server.step libs) (asks libs) σ es)
        (ran ++ record (Server.step libs) (inputs libs) σ es) (run (Server.step libs) σ es) := by
  induction es with
  | nil =>
      intro σ asked ran h
      rw [record, record, List.append_nil, List.append_nil]
      exact h
  | cons e es ih =>
      intro σ asked ran h
      rw [record, record, ← List.append_assoc, ← List.append_assoc]
      exact ih (h.step e)

theorem run_store (libs : Libs) : ∀ (es : List Event) (σ : Server),
    (run (Server.step libs) σ es).store =
      run (Nstore.step libs.sha256) σ.store (record (Server.step libs) (inputs libs) σ es) := by
  intro es
  induction es with
  | nil => intro σ; rfl
  | cons e es ih =>
      intro σ
      rw [record, run_append, ← store_step]
      exact ih (σ.step libs e)

/--
**The writer is first come, first served.**  In every run the requests that were run on
the database are the first of those dispatched to the writer, whichever sessions they
came from, in the order in which their lines were read and each as it was asked; they
are all of them once its queue is empty.  The store is what they leave.
-/
theorem run_writes_in_order (libs : Libs) (st : Store) (es : List Event) :
    let σ := run (Server.step libs) (init st) es
    let asked := record (Server.step libs) (asks libs) (init st) es
    let ran := record (Server.step libs) (inputs libs) (init st) es
    σ.store = run (Nstore.step libs.sha256) st ran ∧ ran.map (·.2) <+: asked ∧
      (σ.writerQueue = [] → ran.map (·.2) = asked) := by
  intro σ asked ran
  have h : Serial libs asked ran σ := run_serial libs es (serial_init libs st)
  refine ⟨run_store libs es (init st), ?_, fun hq => ?_⟩
  · rw [h.split]
    exact List.prefix_append _ _
  · rw [h.split, hq]
    simp

/-! ### The shutdown -/

theorem Serial.clear {asked : List Request} {ran : List Input} (h : Serial libs asked ran σ) :
    Serial libs asked ran σ.clear where
  nodup _ := List.nodup_nil
  fresh := h.fresh
  started := h.started
  member _ _ hs := absurd hs List.not_mem_nil
  task := h.task
  writerTask := h.writerTask
  readerTask := h.readerTask
  ns := h.ns
  found := h.found
  one := h.one
  split := h.split
  ran_ns := h.ran_ns

/-- The tasks that some thread has, or will be given. -/
def tasks (σ : Server) : Nat :=
  σ.writerQueue.length + σ.writer.toList.length + σ.readerQueue.length + σ.readers.length +
    σ.ioQueue.length

/-- The steps it takes the other threads to get where they are joined. -/
def unjoined (σ : Server) : Nat :=
  2 * σ.writerQueue.length + σ.writer.toList.length + 2 * σ.readerQueue.length + σ.readers.length

private theorem joined_iff : σ.unjoined = 0 ↔ σ.WriterJoined ∧ σ.ReadersJoined := by
  unfold unjoined WriterJoined ReadersJoined
  simp only [Nat.add_eq_zero_iff, Nat.mul_eq_zero, OfNat.ofNat_ne_zero, false_or,
    List.length_eq_zero_iff, Option.toList_eq_nil_iff, and_assoc]

/-- A step off the io thread does nothing, or it brings the end nearer; no task gets lost. -/
theorem offIo_step (libs : Libs) (σ : Server) (he : e.OffIo) :
    (σ.step libs e).tasks = σ.tasks ∧
      (σ.step libs e = σ ∨ (σ.step libs e).unjoined < σ.unjoined) := by
  have htasks : (σ.step libs e).tasks =
      (writerQueueAfter σ e).length + (writerAfter libs σ e).toList.length +
        (readerQueueAfter σ e).length + (readersAfter libs σ e).length +
        (ioQueueAfter σ e).length := by
    unfold tasks
    rw [step_writerQueue, step_writer, step_readerQueue, step_readers, step_ioQueue]
  have hunjoined : (σ.step libs e).unjoined =
      2 * (writerQueueAfter σ e).length + (writerAfter libs σ e).toList.length +
        2 * (readerQueueAfter σ e).length + (readersAfter libs σ e).length := by
    unfold unjoined
    rw [step_writerQueue, step_writer, step_readerQueue, step_readers]
  have hsame (h : σ.step libs e = σ) : (σ.step libs e).tasks = σ.tasks ∧
      (σ.step libs e = σ ∨ (σ.step libs e).unjoined < σ.unjoined) :=
    ⟨congrArg tasks h, .inl h⟩
  cases e with
  | runWriter o =>
      cases hw : σ.writer with
      | some t => exact hsame (by simp only [Server.step, hw])
      | none =>
          cases hq : σ.writerQueue with
          | nil => exact hsame (by simp only [Server.step, hw, hq])
          | cons w rest =>
              rw [htasks, hunjoined]
              refine ⟨?_, .inr ?_⟩
              · simp [tasks, writerQueueAfter, writerAfter, readerQueueAfter, readersAfter,
                  ioQueueAfter, hw, hq]
              · simp [unjoined, writerQueueAfter, writerAfter, readerQueueAfter, readersAfter, hw,
                  hq]
                omega
  | postWriter =>
      cases hw : σ.writer with
      | none => exact hsame (by simp only [Server.step, hw])
      | some t =>
          rw [htasks, hunjoined]
          refine ⟨?_, .inr ?_⟩
          · simp [tasks, writerQueueAfter, writerAfter, readerQueueAfter, readersAfter,
              ioQueueAfter, hw]
            omega
          · simp [unjoined, writerQueueAfter, writerAfter, readerQueueAfter, readersAfter, hw]
  | runReader o =>
      cases hq : σ.readerQueue with
      | nil => exact hsame (by simp only [Server.step, hq])
      | cons r rest =>
          rw [htasks, hunjoined]
          refine ⟨?_, .inr ?_⟩
          · simp [tasks, writerQueueAfter, writerAfter, readerQueueAfter, readersAfter,
              ioQueueAfter, hq]
            omega
          · simp [unjoined, writerQueueAfter, writerAfter, readerQueueAfter, readersAfter, hq]
            omega
  | postReader k =>
      cases hk : σ.readers[k]? with
      | none => exact hsame (by simp only [Server.step, hk])
      | some t =>
          have hlt : k < σ.readers.length := (List.getElem?_eq_some_iff.mp hk).1
          rw [htasks, hunjoined]
          refine ⟨?_, .inr ?_⟩
          · simp only [tasks, writerQueueAfter, writerAfter, readerQueueAfter, readersAfter,
              ioQueueAfter, hk, List.length_append, Option.toList_some, List.length_singleton,
              List.length_eraseIdx_of_lt hlt]
            omega
          · simp only [unjoined, writerQueueAfter, writerAfter, readerQueueAfter, readersAfter,
              List.length_eraseIdx_of_lt hlt]
            omega
  | _ => exact he.elim

/-- While a thread cannot be joined yet, one of them can go on. -/
theorem exists_unjoined_lt (libs : Libs) (h : σ.unjoined ≠ 0) :
    ∃ e : Event, e.OffIo ∧ (σ.step libs e).unjoined < σ.unjoined := by
  have hmove (e : Event) (he : e.OffIo) (hne : (σ.step libs e).unjoined ≠ σ.unjoined) :
      ∃ e : Event, e.OffIo ∧ (σ.step libs e).unjoined < σ.unjoined := by
    refine ⟨e, he, ?_⟩
    rcases (offIo_step libs σ he).2 with hsame | hlt
    · exact absurd (congrArg unjoined hsame) hne
    · exact hlt
  cases hw : σ.writer with
  | some t =>
      apply hmove .postWriter trivial
      unfold unjoined
      rw [step_writerQueue, step_writer, step_readerQueue, step_readers]
      simp [writerQueueAfter, writerAfter, readerQueueAfter, readersAfter, hw]
  | none =>
      cases hq : σ.writerQueue with
      | cons w rest =>
          apply hmove (.runWriter .calm) trivial
          unfold unjoined
          rw [step_writerQueue, step_writer, step_readerQueue, step_readers]
          simp [writerQueueAfter, writerAfter, readerQueueAfter, readersAfter, hw, hq]
          omega
      | nil =>
          cases hr : σ.readers with
          | cons t rest =>
              apply hmove (.postReader 0) trivial
              unfold unjoined
              rw [step_writerQueue, step_writer, step_readerQueue, step_readers]
              simp [writerQueueAfter, writerAfter, readerQueueAfter, readersAfter, hr]
          | nil =>
              cases hrq : σ.readerQueue with
              | cons r rest =>
                  apply hmove (.runReader .calm) trivial
                  unfold unjoined
                  rw [step_writerQueue, step_writer, step_readerQueue, step_readers]
                  simp [writerQueueAfter, writerAfter, readerQueueAfter, readersAfter, hrq]
                  omega
              | nil => exact absurd (by simp [unjoined, hw, hq, hr, hrq]) h

private theorem exists_joined (libs : Libs) : ∀ (n : Nat) (σ : Server), σ.unjoined ≤ n →
    ∃ ts, (∀ t ∈ ts, Event.OffIo t) ∧ ts.length ≤ n ∧
      (run (Server.step libs) σ ts).unjoined = 0 := by
  intro n
  induction n with
  | zero =>
      intro σ hn
      exact ⟨[], fun t ht => absurd ht List.not_mem_nil, le_rfl, Nat.le_zero.mp hn⟩
  | succ n ih =>
      intro σ hn
      by_cases hzero : σ.unjoined = 0
      · exact ⟨[], fun t ht => absurd ht List.not_mem_nil, Nat.zero_le _, hzero⟩
      · obtain ⟨e, he, hlt⟩ := exists_unjoined_lt libs hzero
        obtain ⟨ts, hts, hlen, hend⟩ := ih (σ.step libs e) (by omega)
        refine ⟨e :: ts, ?_, Nat.succ_le_succ hlen, hend⟩
        intro t ht
        rcases List.mem_cons.mp ht with rfl | ht
        · exact he
        · exact hts t ht

/-- Off the io thread nothing is written or sent. -/
theorem offIo_stream (hn : ∀ c, (σ.members c).Nodup) (he : e.OffIo) (s : Nat) :
    ((σ.step libs e).sessions s).stream = (σ.sessions s).stream := by
  rw [sessions_step hn]
  cases e with
  | postReader k =>
      simp only [change]
      split
      · split <;> rfl
      · rfl
  | runWriter o => rfl
  | postWriter => rfl
  | runReader o => rfl
  | _ => exact he.elim

/-- Nothing is completed or dispatched there, so the requests underway stay underway. -/
theorem offIo_quiet (libs : Libs) (he : e.OffIo) : completed σ e = [] ∧ asks libs σ e = [] := by
  cases e with
  | runIo => exact he.elim
  | receive s line => exact he.elim
  | _ => exact ⟨rfl, rfl⟩

private theorem offIo_load (libs : Libs) (σ : Server) (he : e.OffIo) (s : Nat) :
    (σ.step libs e).handlers s + (σ.step libs e).posted s = σ.handlers s + σ.posted s := by
  have hload := load_step (σ := σ) (e := e) (s := s) libs
  cases e with
  | runIo => exact he.elim
  | receive s line => exact he.elim
  | _ => exact hload

end Server

namespace Life

open Server

variable {libs : Libs} {st : Store}

/-- What was asked of the writer while the process was running. -/
def asked (libs : Libs) (st : Store) (l : Life) : List Request :=
  record (Server.step libs) (asks libs) (.init st) l.running

/-- What the writer has run, the shutdown included. -/
def ran (libs : Libs) (st : Store) (l : Life) : List Input :=
  record (Server.step libs) (inputs libs) (.init st) l.running ++
    record (Server.step libs) (inputs libs) (l.stopped libs st) l.stopping

theorem ended_serial (libs : Libs) (st : Store) (l : Life) :
    Serial libs (l.asked libs st) (l.ran libs st) (l.ended libs st) := by
  have hrunning : Serial libs (l.asked libs st)
      (record (Server.step libs) (inputs libs) (.init st) l.running) (l.stopped libs st) :=
    (run_serial libs l.running (serial_init libs st)).clear
  have h := run_serial libs l.stopping hrunning
  rw [record_eq_nil fun e he _ => (offIo_quiet libs (l.offIo e he)).2, List.append_nil] at h
  exact h

theorem ended_store (libs : Libs) (st : Store) (l : Life) :
    (l.ended libs st).store = run (Nstore.step libs.sha256) st (l.ran libs st) := by
  have hrunning : (l.stopped libs st).store = run (Nstore.step libs.sha256) st
      (record (Server.step libs) (inputs libs) (.init st) l.running) :=
    run_store libs l.running (.init st)
  rw [ended, run_store, hrunning, ran, run_append]

/--
**The shutdown.**  After the signal nothing is written to a session, sent to it or
completed.  No task gets lost or doubled: with the threads joined, each session has as many
waiting for the io thread, which runs no more, as it had requests underway, and the
transactions among them are those on their way at the signal and then those committed
since.  In particular the writer has run every request that was dispatched to it, each
once and in order.  Every step of a thread brings the end nearer, and the threads can be
joined from wherever they are.
-/
theorem ended_shutdown (libs : Libs) (st : Store) (l : Life) :
    let σ := run (Server.step libs) (.init st) l.running
    let τ := l.ended libs st
    (∀ s, (τ.sessions s).stream = (σ.sessions s).stream) ∧
      record (Server.step libs) completed (l.stopped libs st) l.stopping = [] ∧
      τ.store = run (Nstore.step libs.sha256) st (l.ran libs st) ∧
      (τ.WriterJoined → (l.ran libs st).map (·.2) = l.asked libs st) ∧
      (τ.WriterJoined → τ.ReadersJoined → τ.ioQueue.length = σ.tasks ∧
        (∀ s, τ.posted s = σ.handlers s + σ.posted s) ∧
        τ.ioQueue.flatMap IoTask.completion =
          σ.onTheWay ++ record (Server.step libs) (committed libs) (l.stopped libs st) l.stopping) ∧
      (∀ e : Event, e.OffIo → τ.step libs e = τ ∨ (τ.step libs e).unjoined < τ.unjoined) ∧
      ∃ ts, (∀ t ∈ ts, Event.OffIo t) ∧ ts.length ≤ τ.unjoined ∧
        (run (Server.step libs) τ ts).WriterJoined ∧
        (run (Server.step libs) τ ts).ReadersJoined := by
  intro σ τ
  have hserial := ended_serial libs st l
  have hstopped : Known (l.stopped libs st) :=
    (run_serial libs l.running (serial_init libs st)).clear.toKnown
  have hquiet : ReadersQuiet (l.stopped libs st) :=
    run_invariant ReadersQuiet (fun _ _ h => h.step) l.running fun _ h => absurd h List.not_mem_nil
  have hcompleted : record (Server.step libs) completed (l.stopped libs st) l.stopping = [] :=
    record_eq_nil (fun e he _ => (offIo_quiet libs (l.offIo e he)).1) _
  have hway := onTheWay_run libs l.stopping hquiet
  rw [hcompleted, List.nil_append] at hway
  have hlast : Known τ ∧ (∀ s, (τ.sessions s).stream = (σ.sessions s).stream) ∧
      τ.tasks = σ.tasks ∧ ∀ s, τ.handlers s + τ.posted s = σ.handlers s + σ.posted s := by
    have halong : Along (Server.step libs) (fun _ e => e.OffIo) (l.stopped libs st) l.stopping :=
      along_of_mem l.offIo _
    apply halong.invariant (fun τ => Known τ ∧
      (∀ s, (τ.sessions s).stream = (σ.sessions s).stream) ∧ τ.tasks = σ.tasks ∧
        ∀ s, τ.handlers s + τ.posted s = σ.handlers s + σ.posted s) _
      ⟨hstopped, fun _ => rfl, rfl, fun _ => rfl⟩
    intro τ e hτ he
    obtain ⟨hknown, hstream, htasks, hload⟩ := hτ
    refine ⟨hknown.step e, fun s => ?_, ?_, fun s => ?_⟩
    · exact (offIo_stream hknown.nodup he s).trans (hstream s)
    · exact (offIo_step libs τ he).1.trans htasks
    · exact (offIo_load libs τ he s).trans (hload s)
  obtain ⟨-, hstream, htasks, hload⟩ := hlast
  refine ⟨hstream, hcompleted, ended_store libs st l, ?_, ?_, ?_, ?_⟩
  · intro hjoined
    rw [hserial.split, hjoined.1]
    simp
  · intro hwriter hreaders
    refine ⟨?_, fun s => ?_, ?_⟩
    · rw [← htasks]
      unfold tasks
      rw [hwriter.1, hwriter.2, hreaders.1, hreaders.2]
      simp
    · rw [← hload s]
      unfold handlers
      rw [hwriter.1, hwriter.2, hreaders.1, hreaders.2]
      simp
    · have hway : τ.onTheWay = σ.onTheWay ++ _ := hway
      rw [← hway]
      unfold onTheWay
      rw [hwriter.2]
      simp
  · intro e he
    exact (offIo_step libs τ he).2
  · obtain ⟨ts, hts, hlen, hend⟩ := exists_joined libs τ.unjoined τ le_rfl
    exact ⟨ts, hts, hlen, joined_iff.mp hend⟩

end Life

/-! ### One process after another -/

/-- A namespace that exists goes on to exist. -/
theorem nsExists_serve {sha256 : Bytes → Value} {s : Store} {i : Input} {n : Nat} (hi : InputNs i)
    (hn : n < 2 ^ 32) (hex : nsExists s n = true) : nsExists (step sha256 s i) n = true := by
  unfold nsExists at hex ⊢
  cases hc : isCommit sha256 n s i with
  | false =>
      rw [step_counters hi hn hex hc (by decide)]
      exact hex
  | true =>
      obtain ⟨-, -, -, -, -, tx, htx⟩ := reportedIds_of_commit hi hc
      rw [htx]
      rfl

theorem nsExists_run {sha256 : Bytes → Value} {n : Nat} (hn : n < 2 ^ 32) : ∀ {is : List Input}
    {s : Store}, (∀ i ∈ is, InputNs i) → nsExists s n = true →
      nsExists (run (step sha256) s is) n = true := by
  intro is
  induction is with
  | nil => intro s _ hex; exact hex
  | cons i is ih =>
      intro s his hex
      exact ih (fun j hj => his j (List.mem_cons_of_mem _ hj))
        (nsExists_serve (his i List.mem_cons_self) hn hex)

/-- `db::open` leaves a database that it has set up before. -/
theorem dbOpen_of_exists {s : Store} (hex : nsExists s 0 = true) (o : Oracle) : dbOpen o s = s := by
  unfold dbOpen setup
  rw [if_pos hex]

section Lives

variable {libs : Libs}

/-- The requests asked of a process, and those it has run, the database opened first. -/
def askedOf (libs : Libs) (st : Store) (p : Oracle × Life) : List Request :=
  p.2.asked libs (dbOpen p.1 st)

def ranOf (libs : Libs) (st : Store) (p : Oracle × Life) : List Input :=
  p.2.ran libs (dbOpen p.1 st)

end Lives

/-- The signal comes while a transaction is queued. -/
def signalled : Life where
  running := [.accept, .receive 0 (ascii "t[[-1,50,7,0]]\r")]
  stopping := [.runWriter .calm, .postWriter]
  offIo := by decide

end Nstore
