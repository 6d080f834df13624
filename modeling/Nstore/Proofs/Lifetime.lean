/-
The life of a session whose socket may fail.

A read that fails arms no other, and a write that fails starts no other: it leaves its
message at the front of the queue, which is then never empty again, so nothing is ever
handed to the socket any more.  Each of the two therefore happens once at most, and
`session::end`, which both of them call, is run twice at most.

What a client has received is a beginning of what was written to it, even then.
-/
import Nstore.Proofs.Service
import Nstore.Proofs.Delivery

namespace Nstore

open Machine

/-! ### The stream of a session -/

namespace Session

variable {libs : Libs} {x y : Session}

/-- The part of a session that its writes are about. -/
def stream (x : Session) : List Msg × List Bytes × Bytes × List Msg :=
  (x.writeQueue, x.writing, x.sent, x.log)

/-- A write has failed: its message stays where it is, and nothing is on its way. -/
def Stalled (libs : Libs) (x : Session) : Prop :=
  x.writing = [] ∧ ∃ whole m q front rest, x.writeQueue = m :: q ∧ x.log = whole ++ m :: q ∧
    front ++ rest = libs.render m ∧ x.sent = whole.flatMap libs.render ++ front

/-- The writes of a session go on, or one of them has failed. -/
def Flows (libs : Libs) (x : Session) : Prop := Streams libs x ∨ Stalled libs x

/-- What an event can do to the stream of a session. -/
inductive Moves (libs : Libs) (x : Session) : Session → Prop
  | still : Moves libs x x
  | write (m : Msg) : Moves libs x (x.write libs m)
  | send (k n : Nat) : Moves libs x (x.send k n)
  | wrote (k : Nat) : Moves libs x (x.wrote libs k)
  | dropWrite (k : Nat) (h : (x.writing[k]?).isSome) : Moves libs x (x.dropWrite k)

theorem Streams.congr (h : x.Streams libs) (hxy : x.stream = y.stream) : y.Streams libs := by
  simp only [stream, Prod.mk.injEq] at hxy
  exact Server.streams_congr h hxy.1.symm hxy.2.1.symm hxy.2.2.1.symm hxy.2.2.2.symm

theorem Stalled.congr (h : x.Stalled libs) (hxy : x.stream = y.stream) : y.Stalled libs := by
  simp only [stream, Prod.mk.injEq] at hxy
  unfold Stalled at h ⊢
  rw [← hxy.1, ← hxy.2.1, ← hxy.2.2.1, ← hxy.2.2.2]
  exact h

/-- The only write that can fail is the one outstanding. -/
theorem Streams.dropWrite {k : Nat} (h : x.Streams libs) (hk : (x.writing[k]?).isSome) :
    (x.dropWrite k).Stalled libs := by
  obtain ⟨-, hw, -⟩ | ⟨whole, m, q, front, rest, hq, hw, hl, hf, hs⟩ := h.cases
  · rw [hw] at hk
    exact absurd hk (by simp)
  · cases k with
    | zero => exact ⟨by simp [Session.dropWrite, hw], whole, m, q, front, rest, hq, hl, hf, hs⟩
    | succ k =>
        rw [hw] at hk
        exact absurd hk (by simp)

/-- **Nothing moves a stalled session**: it only gets more to write. -/
theorem Stalled.moves (h : x.Stalled libs) (hm : Moves libs x y) : y.Stalled libs ∧
    y.sent = x.sent ∧ ∃ ms, y.writeQueue = x.writeQueue ++ ms ∧ y.log = x.log ++ ms := by
  have hself : x.Stalled libs ∧ x.sent = x.sent ∧
      ∃ ms, x.writeQueue = x.writeQueue ++ ms ∧ x.log = x.log ++ ms :=
    ⟨h, rfl, [], by simp, by simp⟩
  obtain ⟨hw, whole, m, q, front, rest, hq, hl, hf, hs⟩ := h
  cases hm with
  | still => exact hself
  | write m' =>
      rw [write_eq]
      refine ⟨⟨by simp [hq, hw], whole, m, q ++ [m'], front, rest, ?_, ?_, hf, hs⟩, rfl, [m'],
        rfl, rfl⟩
      · simp [hq]
      · simp [hl]
  | send k n =>
      have hsend : x.send k n = x := by simp [Session.send, hw]
      rw [hsend]
      exact hself
  | wrote k =>
      have hwrote : x.wrote libs k = x := by simp [Session.wrote, hw]
      rw [hwrote]
      exact hself
  | dropWrite k hk =>
      rw [hw] at hk
      exact absurd hk (by simp)

theorem Flows.moves (h : x.Flows libs) (hm : Moves libs x y) : y.Flows libs := by
  rcases h with h | h
  · cases hm with
    | still => exact .inl h
    | write m => exact .inl (h.write m)
    | send k n => exact .inl (h.send k n)
    | wrote k => exact .inl (h.wrote k)
    | dropWrite k hk => exact .inr (h.dropWrite hk)
  · exact .inr (h.moves hm).1

/-- What was sent is a beginning of what was written, through one write at a time. -/
theorem Flows.sent_of_log (h : x.Flows libs) : x.sent <+: x.log.flatMap libs.render ∧
    x.writing.length ≤ 1 ∧ (x.writeQueue = [] → x.sent = x.log.flatMap libs.render) := by
  have hfront {whole q : List Msg} {m : Msg} {front rest : Bytes} (hl : x.log = whole ++ m :: q)
      (hf : front ++ rest = libs.render m) (hs : x.sent = whole.flatMap libs.render ++ front) :
      x.sent <+: x.log.flatMap libs.render := by
    refine ⟨rest ++ q.flatMap libs.render, ?_⟩
    rw [hs, hl, List.flatMap_append, List.flatMap_cons, ← hf]
    simp
  rcases h with h | ⟨hw, whole, m, q, front, rest, hq, hl, hf, hs⟩
  · obtain ⟨-, hw, hs⟩ | ⟨whole, m, q, front, rest, hq, hw, hl, hf, hs⟩ := h.cases
    · exact ⟨by rw [hs], by simp [hw], fun _ => hs⟩
    · refine ⟨hfront hl hf hs, by simp [hw], fun hnil => ?_⟩
      rw [hq] at hnil
      exact absurd hnil (by simp)
  · refine ⟨hfront hl hf hs, by simp [hw], fun hnil => ?_⟩
    rw [hq] at hnil
    exact absurd hnil (by simp)

end Session

namespace Server

open Session (Moves)

variable {libs : Libs} {σ : Server} {e : Event} {s : Nat}

private theorem moves_dispatched (x : Session) (reads : Nat) (line : Bytes) (cmd : Command) :
    ∃ y, Moves libs x y ∧
      y.stream = (dispatched libs { x with reads := reads, arg := line } cmd).stream := by
  cases cmd with
  | ping =>
      refine ⟨_, .write (.echo (argumentOf line)), ?_⟩
      simp only [dispatched, Session.write_eq]
      rfl
  | unknown =>
      refine ⟨_, .write (.reply .ackErr), ?_⟩
      simp only [dispatched, Session.write_eq]
      rfl
  | _ => exact ⟨x, .still, rfl⟩

private theorem moves_ioChange (members : Nat → List Nat) (i : Nat) (x : Session) (t : IoTask) :
    ∃ y, Moves libs x y ∧ y.stream = (ioChange libs members i x t).stream := by
  cases t with
  | answer s r =>
      simp only [ioChange]
      split
      · exact ⟨_, .write (.reply r), rfl⟩
      · exact ⟨x, .still, rfl⟩
  | selected s n =>
      simp only [ioChange]
      split
      · exact ⟨_, .write (.reply .ackOk), rfl⟩
      · exact ⟨x, .still, rfl⟩
  | transacted s n tx facts newIds =>
      simp only [ioChange]
      split
      · exact ⟨_, .write (.reply (.response tx facts newIds)), rfl⟩
      · split
        · exact ⟨_, .write (.event tx facts), rfl⟩
        · exact ⟨x, .still, rfl⟩

/-- **An event does one thing to a stream at most.** -/
theorem moves_change (libs : Libs) (σ : Server) (i : Nat) (x : Session) (e : Event) :
    ∃ y, Moves libs x y ∧ y.stream = (change libs σ i x e).stream := by
  cases e with
  | accept =>
      refine ⟨x, .still, ?_⟩
      simp only [change]
      split <;> rfl
  | receive s line =>
      simp only [change]
      split
      · exact moves_dispatched x _ line _
      · exact ⟨x, .still, rfl⟩
  | readError s =>
      refine ⟨x, .still, ?_⟩
      simp only [change]
      split <;> rfl
  | send s k n =>
      simp only [change]
      split
      · exact ⟨_, .send k n, rfl⟩
      · exact ⟨x, .still, rfl⟩
  | wrote s k =>
      simp only [change]
      split
      · exact ⟨_, .wrote k, rfl⟩
      · exact ⟨x, .still, rfl⟩
  | writeError s k =>
      simp only [change]
      split
      · rename_i h
        exact ⟨_, .dropWrite k h.2, rfl⟩
      · exact ⟨x, .still, rfl⟩
  | runIo =>
      simp only [change]
      split
      · exact ⟨x, .still, rfl⟩
      · exact moves_ioChange _ _ _ _
  | postReader k =>
      refine ⟨x, .still, ?_⟩
      simp only [change]
      split
      · split <;> rfl
      · rfl
  | _ => exact ⟨x, .still, rfl⟩

theorem flows_step (hk : Known σ) (h : (σ.sessions s).Flows libs) (e : Event) :
    ((σ.step libs e).sessions s).Flows libs := by
  rw [sessions_step hk.nodup]
  obtain ⟨y, hmoves, hstream⟩ := moves_change libs σ s (σ.sessions s) e
  rcases h.moves hmoves with hy | hy
  · exact .inl (hy.congr hstream)
  · exact .inr (hy.congr hstream)

theorem flows_new : Session.new.Flows libs := .inl Session.streams_new

theorem run_flows (libs : Libs) (st : Store) (es : List Event) (s : Nat) :
    Known (run (Server.step libs) (init st) es) ∧
      ((run (Server.step libs) (init st) es).sessions s).Flows libs :=
  run_invariant (fun σ => Known σ ∧ (σ.sessions s).Flows libs)
    (fun _ e h => ⟨h.1.step e, flows_step h.1 h.2 e⟩) es ⟨known_init st, flows_new⟩

/--
**Clients receive a beginning of what was written to them.**  In every run, whatever
fails and when, the bytes sent to a session are a prefix of the messages written to it,
one after the other, and all of them once its queue is empty; no two writes of it are
ever outstanding.
-/
theorem run_sent_of_log (libs : Libs) (st : Store) (es : List Event) (s : Nat) :
    let x := (run (Server.step libs) (init st) es).sessions s
    x.sent <+: x.log.flatMap libs.render ∧ x.writing.length ≤ 1 ∧
      (x.writeQueue = [] → x.sent = x.log.flatMap libs.render) := by
  exact (run_flows libs st es s).2.sent_of_log

/-! ### Failures -/

/-- What fails on the socket of a session; either ends the session. -/
inductive Failure where
  | read
  | write
deriving DecidableEq, Repr

/-- The failures of a session that an event reports. -/
def failures (s : Nat) (σ : Server) : Event → List Failure
  | .readError i => if s = i ∧ (σ.sessions s).reads ≠ 0 then [.read] else []
  | .writeError i k => if s = i ∧ ((σ.sessions s).writing[k]?).isSome then [.write] else []
  | _ => []

private theorem change_ended (i : Nat) (x : Session) (e : Event) :
    (change libs σ i x e).ended = (x.ended ||
      match e with
      | .readError s => decide (i = s ∧ x.reads ≠ 0)
      | .writeError s k => decide (i = s ∧ (x.writing[k]?).isSome)
      | _ => false) := by
  have hneutral (he : e.Neutral) : (change libs σ i x e).ended = x.ended :=
    congrArg (·.2.2) (change_neutral he i x)
  cases e with
  | accept =>
      simp only [change]
      split <;> simp [Session.readRequest]
  | readError s =>
      simp only [change]
      split
      · rename_i h
        rw [decide_eq_true h, Bool.or_true]
      · rename_i h
        rw [decide_eq_false h, Bool.or_false]
  | writeError s k =>
      simp only [change]
      split
      · rename_i h
        rw [decide_eq_true h, Bool.or_true]
      · rename_i h
        rw [decide_eq_false h, Bool.or_false]
  | postReader k =>
      simp only [change]
      split
      · split <;> simp [Session.select]
      · simp
  | _ =>
      rw [hneutral trivial]
      simp

theorem ended_step (hk : Known σ) (e : Event) :
    ((σ.step libs e).sessions s).ended = true ↔
      (σ.sessions s).ended = true ∨ failures s σ e ≠ [] := by
  rw [sessions_step hk.nodup, change_ended]
  cases e with
  | readError i => simp [failures]
  | writeError i k => simp [failures]
  | _ => simp [failures]

/-- Where a session may be: waiting for a line, or with a task of its own. -/
def turns (σ : Server) (s : Nat) : Nat := (σ.sessions s).reads + σ.handlers s + σ.posted s

/--
What holds of a session after the failures it has had: each kind at most once.  After a
failed read the session is nowhere any more, and after a failed write it is stalled.
-/
structure Lifetime (libs : Libs) (s : Nat) (failed : List Failure) (σ : Server) : Prop
    extends Known σ where
  turn : ∀ i, σ.turns i ≤ 1
  flows : (σ.sessions s).Flows libs
  nodup_failed : failed.Nodup
  ended : (σ.sessions s).ended = true ↔ failed ≠ []
  gone : .read ∈ failed → s < σ.nextUid ∧ σ.turns s = 0
  stalled : .write ∈ failed → (σ.sessions s).Stalled libs

theorem lifetime_init (libs : Libs) (s : Nat) (st : Store) : Lifetime libs s [] (init st) where
  toKnown := known_init st
  turn _ := Nat.zero_le 1
  flows := flows_new
  nodup_failed := List.nodup_nil
  ended := by simp [init, Session.new]
  gone h := absurd h List.not_mem_nil
  stalled h := absurd h List.not_mem_nil

/-- The cases of an event for the failures of a session. -/
theorem failures_cases : failures s σ e = [] ∨
    (e = .readError s ∧ (σ.sessions s).reads ≠ 0 ∧ failures s σ e = [.read]) ∨
    ∃ k, e = .writeError s k ∧ ((σ.sessions s).writing[k]?).isSome ∧
      failures s σ e = [.write] := by
  cases e with
  | readError i =>
      by_cases h : s = i ∧ (σ.sessions s).reads ≠ 0
      · exact .inr (.inl ⟨by rw [h.1], h.2, if_pos h⟩)
      · exact .inl (if_neg h)
  | writeError i k =>
      by_cases h : s = i ∧ ((σ.sessions s).writing[k]?).isSome
      · exact .inr (.inr ⟨k, by rw [h.1], h.2, if_pos h⟩)
      · exact .inl (if_neg h)
  | _ => exact .inl rfl

/-- A session that was started never gets another turn. -/
theorem turns_step_le (libs : Libs) (hk : Known σ) (hs : s < σ.nextUid) (e : Event) :
    (σ.step libs e).turns s ≤ σ.turns s := by
  have hload := load_step libs (σ := σ) (e := e) (s := s)
  have hreads := reads_step_le libs (e := e) hk.nodup hs
  unfold turns
  omega

/-- A read that fails takes the turn away. -/
theorem turns_readError (libs : Libs) (hk : Known σ) (hr : (σ.sessions s).reads ≠ 0) :
    (σ.step libs (.readError s)).turns s + 1 ≤ σ.turns s := by
  have hload := load_step libs (σ := σ) (e := .readError s) (s := s)
  have hreads : ((σ.step libs (.readError s)).sessions s).reads + 1 = (σ.sessions s).reads := by
    rw [sessions_step hk.nodup]
    simp only [change]
    rw [if_pos ⟨trivial, hr⟩]
    simp only
    omega
  unfold turns
  simp only [requests, repliesNow, List.length_nil] at hload
  omega

theorem Lifetime.step {failed : List Failure} (h : Lifetime libs s failed σ) (e : Event) :
    Lifetime libs s (failed ++ failures s σ e) (σ.step libs e) where
  toKnown := h.toKnown.step e
  turn := h.toKnown.one_step h.turn
  flows := flows_step h.toKnown h.flows e
  nodup_failed := by
    obtain hnone | ⟨-, hr, hread⟩ | ⟨k, -, hw, hwrite⟩ := failures_cases (s := s) (σ := σ) (e := e)
    · rw [hnone, List.append_nil]
      exact h.nodup_failed
    · -- a second read would take a turn that is gone
      have hnew : .read ∉ failed := fun hmem => by
        have := (h.gone hmem).2
        unfold turns at this
        omega
      rw [hread]
      exact List.Nodup.append h.nodup_failed (List.nodup_singleton _) (by simpa using hnew)
    · have hnew : .write ∉ failed := fun hmem => by
        rw [(h.stalled hmem).1] at hw
        exact absurd hw (by simp)
      rw [hwrite]
      exact List.Nodup.append h.nodup_failed (List.nodup_singleton _) (by simpa using hnew)
  ended := by
    rw [ended_step h.toKnown, h.ended]
    simp only [ne_eq, List.append_eq_nil_iff, not_and_or]
  gone hmem := by
    rcases List.mem_append.mp hmem with hmem | hmem
    · have hs := (h.gone hmem).1
      have hle := turns_step_le libs h.toKnown hs e
      have hzero := (h.gone hmem).2
      exact ⟨lt_of_lt_of_le hs nextUid_le_step, by omega⟩
    · obtain hnone | ⟨he, hr, -⟩ | ⟨k, -, -, hwrite⟩ :=
        failures_cases (s := s) (σ := σ) (e := e)
      · rw [hnone] at hmem
        exact absurd hmem List.not_mem_nil
      · subst he
        have hle := turns_readError libs h.toKnown hr
        have hone := h.turn s
        exact ⟨lt_of_lt_of_le (h.toKnown.lt_of_reads hr) nextUid_le_step, by omega⟩
      · rw [hwrite] at hmem
        exact absurd hmem (by simp)
  stalled hmem := by
    rcases List.mem_append.mp hmem with hmem | hmem
    · rw [sessions_step h.nodup]
      obtain ⟨y, hmoves, hstream⟩ := moves_change libs σ s (σ.sessions s) e
      exact (Session.Stalled.moves (h.stalled hmem) hmoves).1.congr hstream
    · obtain hnone | ⟨-, -, hread⟩ | ⟨k, he, hw, -⟩ := failures_cases (s := s) (σ := σ) (e := e)
      · rw [hnone] at hmem
        exact absurd hmem List.not_mem_nil
      · rw [hread] at hmem
        exact absurd hmem (by simp)
      · subst he
        rcases h.flows with hx | hx
        · rw [sessions_step h.nodup]
          simp only [change]
          rw [if_pos ⟨trivial, hw⟩]
          exact (Session.Streams.dropWrite hx hw).congr rfl
        · rw [hx.1] at hw
          exact absurd hw (by simp)

theorem run_lifetime (libs : Libs) (st : Store) (s : Nat) (es : List Event) :
    Lifetime libs s (record (Server.step libs) (failures s) (init st) es)
      (run (Server.step libs) (init st) es) := by
  induction es using List.reverseRecOn with
  | nil => exact lifetime_init libs s st
  | append_singleton es e ih =>
      rw [run_concat, record_concat]
      exact ih.step e

/--
**A session ends twice at most.**  Whatever the network and the scheduler do, a read of
it fails once at most and a write of it fails once at most, and it has ended if and only
if one of them has.  After a failed read the server has no read and no task for it; after
a failed write nothing is on its way to it, though its queue is not empty.
-/
theorem run_failures (libs : Libs) (st : Store) (es : List Event) (s : Nat) :
    let σ := run (Server.step libs) (init st) es
    let failed := record (Server.step libs) (failures s) (init st) es
    failed.Nodup ∧ failed.length ≤ 2 ∧ ((σ.sessions s).ended = true ↔ failed ≠ []) ∧
      (.read ∈ failed → (σ.sessions s).reads = 0 ∧ σ.handlers s = 0 ∧ σ.posted s = 0) ∧
      (.write ∈ failed → (σ.sessions s).writing = [] ∧ (σ.sessions s).writeQueue ≠ []) := by
  intro σ failed
  have h : Lifetime libs s failed σ := run_lifetime libs st s es
  refine ⟨h.nodup_failed, ?_, h.ended, fun hmem => ?_, fun hmem => ?_⟩
  · -- there are two kinds
    have hsub : failed ⊆ [.read, .write] := fun f _ => by cases f <;> simp
    exact (h.nodup_failed.subperm hsub).length_le
  · have := (h.gone hmem).2
    unfold turns at this
    omega
  · obtain ⟨hw, whole, m, q, front, rest, hq, -⟩ := h.stalled hmem
    exact ⟨hw, by simp [hq]⟩

/-- What a stalled session has sent, and the messages that were in its queue. -/
def Keeps (s : Nat) (σ σ' : Server) : Prop :=
  (σ'.sessions s).sent = (σ.sessions s).sent ∧
    ∃ ms, (σ'.sessions s).writeQueue = (σ.sessions s).writeQueue ++ ms ∧
      (σ'.sessions s).log = (σ.sessions s).log ++ ms

theorem Keeps.trans {σ₁ σ₂ σ₃ : Server} (h₁ : Keeps s σ₁ σ₂) (h₂ : Keeps s σ₂ σ₃) :
    Keeps s σ₁ σ₃ := by
  obtain ⟨hs₁, ms₁, hq₁, hl₁⟩ := h₁
  obtain ⟨hs₂, ms₂, hq₂, hl₂⟩ := h₂
  exact ⟨hs₂.trans hs₁, ms₁ ++ ms₂, by rw [hq₂, hq₁, List.append_assoc],
    by rw [hl₂, hl₁, List.append_assoc]⟩

theorem keeps_step (hk : Known σ) (h : (σ.sessions s).Stalled libs) (e : Event) :
    ((σ.step libs e).sessions s).Stalled libs ∧ Keeps s σ (σ.step libs e) := by
  unfold Keeps
  rw [sessions_step hk.nodup]
  obtain ⟨y, hmoves, hstream⟩ := moves_change libs σ s (σ.sessions s) e
  obtain ⟨hy, hsent, ms, hq, hl⟩ := h.moves hmoves
  refine ⟨hy.congr hstream, ?_⟩
  simp only [Session.stream, Prod.mk.injEq] at hstream
  rw [← hstream.1, ← hstream.2.2.1, ← hstream.2.2.2]
  exact ⟨hsent, ms, hq, hl⟩

/--
**After a failed write a session is silent for good**: whatever follows, no byte more is
sent on it, and every message written to it from then on stays in its queue.
-/
theorem run_silent (libs : Libs) (st : Store) (s : Nat) (pre post : List Event)
    (hfailed : .write ∈ record (Server.step libs) (failures s) (init st) pre) :
    Keeps s (run (Server.step libs) (init st) pre)
      (run (Server.step libs) (init st) (pre ++ post)) := by
  have h := run_lifetime libs st s pre
  rw [run_append]
  exact run_relation (fun σ => Known σ ∧ (σ.sessions s).Stalled libs) (Keeps s)
    (fun σ => ⟨rfl, [], by simp, by simp⟩) (fun _ _ _ => Keeps.trans)
    (fun σ e hσ => ⟨hσ.1.step e, (keeps_step hσ.1 hσ.2 e).1⟩)
    (fun σ e hσ => (keeps_step hσ.1 hσ.2 e).2) post ⟨h.toKnown, h.stalled hfailed⟩

/-- A client sends a line and is gone before the answer reaches it. -/
def goneRun : List Event := [.accept, .receive 0 (ascii "x\r"), .writeError 0 0]

theorem goneRun_silent :
    Keeps 0 (run (Server.step sampleLibs) (init []) goneRun)
      (run (Server.step sampleLibs) (init []) (goneRun ++ [.receive 0 (ascii "x\r"), .send 0 0 9])) :=
  run_silent sampleLibs [] 0 goneRun [.receive 0 (ascii "x\r"), .send 0 0 9] (by decide +kernel)

end Server

end Nstore
