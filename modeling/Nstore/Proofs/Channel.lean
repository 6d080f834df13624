/-
Channels and selected namespaces.

A session joins channel 0 as it starts and leaves its channel as it ends.  In
between it should be a member of the channel of the namespace it has selected, and
of no other.  The completion of `handle_select` gets this wrong: it leaves the
channel of the namespace just selected, where it should leave the one before and
join this one.  So a select that succeeds takes a live session out of every channel
it could be published in, or keeps it in one it has turned away from.

As long as `self->select` is only called on sessions that have ended, channels and
sessions agree, whatever the order of starts, ends, refused selects and
transactions.
-/
import Nstore.Proofs.Server

namespace Nstore

namespace Server

open Machine

variable {libs : Libs} {σ : Server} {e : Event}

/-! ### What channels are for -/

/-- A select of the session is half-way: handled, and its completion has not run. -/
def SelectPending (σ : Server) (s : Nat) : Prop := ∃ n, .selected s n ∈ σ.pending

/-- The members of a channel are the live sessions that have its namespace selected. -/
def MembersExact (σ : Server) : Prop :=
  ∀ s c, ¬ σ.SelectPending s →
    (s ∈ σ.members c ↔ (σ.sessions s).live = true ∧ c = (σ.sessions s).ns)

/--
The completion of a transaction writes its event to the other live sessions that
have its namespace selected, and to no others.
-/
def PublishesExactly (libs : Libs) (σ : Server) : Prop :=
  ∀ sender n tx facts newIds rest, σ.ioQueue = .transacted sender n tx facts newIds :: rest →
    ∀ s, ¬ σ.SelectPending s → s ≠ sender →
      ((σ.step libs .runIo).sessions s).log = (σ.sessions s).log ++
        if (σ.sessions s).live = true ∧ n = (σ.sessions s).ns then [.event tx facts] else []

/-- `self->select` is not called on a live session. -/
def SelectsRefused (σ : Server) : Event → Prop
  | .postReader k =>
      match σ.readers[k]? with
      | some (.selected s _) => (σ.sessions s).live = false
      | _ => True
  | _ => True

/-! ### The invariant -/

structure Channels (σ : Server) : Prop extends Known σ where
  exact : ∀ s c, s ∈ σ.members c ↔ (σ.sessions s).live = true ∧ c = (σ.sessions s).ns
  ended : ∀ s n, .selected s n ∈ σ.ioQueue → (σ.sessions s).live = false
  writer : ∀ s n, σ.writer ≠ some (.selected s n)

theorem channels_init (st : Store) : Channels (init st) where
  toKnown := known_init st
  exact s c := by simp [init, Session.new, Session.live]
  ended s n h := absurd h List.not_mem_nil
  writer s n h := absurd h (by simp [init])

/-- What has ended stays so. -/
theorem change_not_live {i : Nat} {x : Session} (hi : i < σ.nextUid) (hx : x.live = false) :
    (change libs σ i x e).live = false := by
  have hneutral (he : e.Neutral) : (change libs σ i x e).live = false := by
    rw [Session.live_eq_status, change_neutral he, ← Session.live_eq_status]
    exact hx
  cases e with
  | accept =>
      simp only [change]
      rw [if_neg (Nat.ne_of_lt hi)]
      exact hx
  | readError s =>
      simp only [change]
      split
      · simp [Session.live]
      · exact hx
  | writeError s k =>
      simp only [change]
      split
      · simp [Session.live]
      · exact hx
  | postReader k =>
      simp only [change]
      split
      · split
        · exact hx
        · exact hx
      · exact hx
  | _ => exact hneutral trivial

/-- A neutral event that moves no one in or out of a channel. -/
theorem Channels.exact_neutral (h : Channels σ) (he : e.Neutral) {s c : Nat}
    (hj : ¬ Joins σ c s e) (hl : Leaves σ c s e → s ∉ σ.members c) :
    s ∈ (σ.step libs e).members c ↔
      ((σ.step libs e).sessions s).live = true ∧ c = ((σ.step libs e).sessions s).ns := by
  have hst : (change libs σ s (σ.sessions s) e).status = (σ.sessions s).status :=
    change_neutral he s _
  have hns : ((σ.step libs e).sessions s).ns = (σ.sessions s).ns := by
    rw [sessions_step h.nodup]
    exact congrArg (·.1) hst
  have hlive : ((σ.step libs e).sessions s).live = (σ.sessions s).live := by
    rw [sessions_step h.nodup, Session.live_eq_status, hst, ← Session.live_eq_status]
  rw [hns, hlive, ← h.exact s c, mem_members_step]
  tauto

/-- The session ends and leaves its channel. -/
theorem Channels.exact_end (h : Channels σ) {i s c : Nat} {x : Session} (hx : i = s → x.live = false)
    (hne : i ≠ s → x = σ.sessions i) :
    (i ∈ σ.members c ∧ ¬ (c = (σ.sessions s).ns ∧ i = s)) ↔ x.live = true ∧ c = x.ns := by
  by_cases hi : i = s
  · subst hi
    rw [h.exact]
    simp only [hx rfl]
    tauto
  · rw [hne hi, h.exact]
    tauto

theorem Channels.exact_step (h : Channels σ) (he : SelectsRefused σ e) (s c : Nat) :
    s ∈ (σ.step libs e).members c ↔
      ((σ.step libs e).sessions s).live = true ∧ c = ((σ.step libs e).sessions s).ns := by
  have hneutral (hn : e.Neutral) (hj : ¬ Joins σ c s e) (hl : Leaves σ c s e → s ∉ σ.members c) :
      s ∈ (σ.step libs e).members c ↔
        ((σ.step libs e).sessions s).live = true ∧ c = ((σ.step libs e).sessions s).ns :=
    h.exact_neutral hn hj hl
  cases e with
  | accept =>
      rw [mem_members_step, sessions_step h.nodup]
      simp only [Joins, Leaves, change, not_false_eq_true, and_true]
      by_cases hs : s = σ.nextUid
      · subst hs
        have hnew : σ.sessions σ.nextUid = .new := h.fresh _ (Nat.le_refl _)
        rw [if_pos rfl, h.exact, hnew]
        simp [Session.new, Session.live, Session.readRequest]
      · rw [if_neg hs, h.exact]
        tauto
  | readError i =>
      rw [mem_members_step, sessions_step h.nodup]
      simp only [Joins, Leaves, change, or_false]
      by_cases hr : (σ.sessions i).reads = 0
      · rw [if_neg, h.exact]
        · simp [hr]
        · rintro ⟨rfl, hc⟩
          exact hc hr
      · simp only [ne_eq, hr, not_false_eq_true, true_and]
        refine h.exact_end (fun hs => ?_) fun hs => if_neg fun hc => hs hc.1
        subst hs
        rw [if_pos ⟨rfl, hr⟩]
        simp [Session.live]
  | writeError i k =>
      rw [mem_members_step, sessions_step h.nodup]
      simp only [Joins, Leaves, change, or_false]
      by_cases hw : ((σ.sessions i).writing[k]?).isSome = true
      · simp only [hw, true_and]
        refine h.exact_end (fun hs => ?_) fun hs => if_neg fun hc => hs hc.1
        subst hs
        rw [if_pos ⟨rfl, hw⟩]
        simp [Session.live]
      · rw [if_neg, h.exact]
        · simp [hw]
        · rintro ⟨rfl, hc⟩
          exact hw hc
  | runIo =>
      refine hneutral trivial id fun hl => ?_
      -- a completion of a select is run for a session that is not live
      have hmem : .selected s c ∈ σ.ioQueue := List.mem_of_head? hl
      rw [h.exact, h.ended s c hmem]
      simp
  | postReader k =>
      rw [mem_members_step, sessions_step h.nodup]
      simp only [Joins, Leaves, or_false, not_false_eq_true, and_true, change]
      split
      · rename_i i n hk
        simp only [SelectsRefused, hk] at he
        by_cases hs : s = i
        · subst hs
          rw [if_pos rfl, h.exact, he]
          simp only [Bool.false_eq_true, false_and, false_iff, not_and]
          intro hc
          exact absurd (hc.symm.trans he) (by simp)
        · rw [if_neg hs, h.exact]
      · exact h.exact s c
  | _ => exact hneutral trivial id fun hl => hl.elim

theorem mem_ioQueue_step {t : IoTask} (h : t ∈ (σ.step libs e).ioQueue) :
    t ∈ σ.ioQueue ∨ (e = .postWriter ∧ σ.writer = some t) ∨
      ∃ k, e = .postReader k ∧ σ.readers[k]? = some t := by
  rw [step_ioQueue] at h
  cases e with
  | runIo => exact .inl (List.mem_of_mem_tail h)
  | postWriter =>
      rcases List.mem_append.mp h with h | h
      · exact .inl h
      · exact .inr (.inl ⟨rfl, by simpa using h⟩)
  | postReader k =>
      rcases List.mem_append.mp h with h | h
      · exact .inl h
      · exact .inr (.inr ⟨k, rfl, by simpa using h⟩)
  | _ => exact .inl h

private theorem runWriterTask_ne_selected (o : Oracle) (w : WriterTask) (s n : Nat) :
    (σ.runWriterTask libs o w).2 ≠ .selected s n := by
  cases w with
  | newNamespace i => simp [runWriterTask]
  | transact i =>
      simp only [runWriterTask]
      split <;> simp

theorem writer_ne_selected_step (h : ∀ s n, σ.writer ≠ some (.selected s n)) (s n : Nat) :
    (σ.step libs e).writer ≠ some (.selected s n) := by
  rw [step_writer]
  cases e with
  | runWriter o =>
      simp only [writerAfter]
      split
      · simpa using runWriterTask_ne_selected o _ s n
      · exact h s n
  | postWriter => simp [writerAfter]
  | _ => exact h s n

/-- **A step that selects on no live session keeps channels and sessions in agreement.** -/
theorem Channels.step (h : Channels σ) (he : SelectsRefused σ e) : Channels (σ.step libs e) where
  toKnown := h.toKnown.step e
  exact := h.exact_step he
  ended s n hmem := by
    obtain ⟨hs, hlt⟩ : (σ.sessions s).live = false ∧ s < σ.nextUid := by
      obtain hmem | ⟨-, hw⟩ | ⟨k, rfl, hk⟩ := mem_ioQueue_step hmem
      · exact ⟨h.ended s n hmem, h.task _ (mem_pending.mpr (.inl hmem))⟩
      · exact absurd hw (h.writer s n)
      · refine ⟨?_, h.task _ (mem_pending.mpr (.inr (.inr (List.mem_of_getElem? hk))))⟩
        simpa only [SelectsRefused, hk] using he
    rw [sessions_step h.nodup]
    exact change_not_live hlt hs
  writer := writer_ne_selected_step h.writer

/-! ### Whole runs -/

theorem Channels.membersExact (h : Channels σ) : σ.MembersExact :=
  fun s c _ => h.exact s c

theorem Channels.publishesExactly (h : Channels σ) : σ.PublishesExactly libs := by
  intro sender n tx facts newIds rest hq s _ hne
  rw [log_step h.nodup]
  simp only [written, hq, ioWrites, if_neg hne]
  by_cases hm : s ∈ σ.members n
  · rw [if_pos hm, if_pos ((h.exact s n).mp hm)]
  · rw [if_neg hm, if_neg fun hc => hm ((h.exact s n).mpr hc)]

/--
**Channels and sessions agree in every run in which no select of a live session
succeeds.**
-/
theorem run_membersExact (libs : Libs) (st : Store) (es : List Event)
    (h : Along (step libs) SelectsRefused (init st) es) :
    (run (step libs) (init st) es).MembersExact ∧
      (run (step libs) (init st) es).PublishesExactly libs := by
  have hinv : Channels (run (step libs) (init st) es) :=
    Along.invariant Channels (fun _ _ hc he => hc.step he) (channels_init st) h
  exact ⟨hinv.membersExact, hinv.publishesExactly⟩

/-- A select that went through leaves a live session outside the channel it has selected. -/
theorem select_leaves (hn : ∀ c, (σ.members c).Nodup) {s n : Nat} {rest : List IoTask}
    (hq : σ.ioQueue = .selected s n :: rest) (hlive : (σ.sessions s).live = true)
    (hns : (σ.sessions s).ns = n) :
    ((σ.step libs .runIo).sessions s).live = true ∧ ((σ.step libs .runIo).sessions s).ns = n ∧
      s ∉ (σ.step libs .runIo).members n := by
  have hst : (change libs σ s (σ.sessions s) .runIo).status = (σ.sessions s).status :=
    change_neutral (e := .runIo) trivial s _
  rw [sessions_step hn, mem_members_step]
  refine ⟨?_, (congrArg (·.1) hst).trans hns, fun h => h.2 ?_⟩
  · rw [Session.live_eq_status, hst, ← Session.live_eq_status]
    exact hlive
  · simp [Leaves, hq]

/-! ### Runs on a database that was just created -/

/-- A session selects the namespace it is in. -/
def selectRun : List Event :=
  [.accept, .receive 0 (ascii "s0\r"), .runReader .calm, .postReader 0, .runIo]

/-- No select is half-way, and the session is outside the channel it has selected. -/
theorem not_membersExact_select :
    ¬ (run (step sampleLibs) (init (dbOpen .calm [])) selectRun).MembersExact := by
  intro h
  have hstate : (run (step sampleLibs) (init (dbOpen .calm [])) selectRun).pending = [] ∧
      (run (step sampleLibs) (init (dbOpen .calm [])) selectRun).members 0 = [] ∧
      ((run (step sampleLibs) (init (dbOpen .calm [])) selectRun).sessions 0).live = true ∧
      ((run (step sampleLibs) (init (dbOpen .calm [])) selectRun).sessions 0).ns = 0 := by
    decide +kernel
  obtain ⟨hpending, hmembers, hlive, hns⟩ := hstate
  have hmem := (h 0 0 (by simp [SelectPending, hpending])).mpr ⟨hlive, hns.symm⟩
  simp [hmembers] at hmem

/-- A select that is refused, and a transaction whose completion is about to run. -/
def refusedRun : List Event :=
  [.accept, .accept, .receive 0 (ascii "s1\r"), .runReader .calm, .postReader 0, .runIo,
    .receive 0 (ascii "t[[60,50,7,0]]\r"), .runWriter .calm, .postWriter]

theorem run_membersExact_sample :
    (run (step sampleLibs) (init (dbOpen .calm [])) refusedRun).MembersExact ∧
      (run (step sampleLibs) (init (dbOpen .calm [])) refusedRun).PublishesExactly sampleLibs := by
  refine run_membersExact sampleLibs (dbOpen .calm []) refusedRun ?_
  have hread : (run (step sampleLibs) (init (dbOpen .calm [])) (refusedRun.take 4)).readers[0]? =
      some (.answer 0 .ackErr) := by
    decide +kernel
  have hpost : SelectsRefused (run (step sampleLibs) (init (dbOpen .calm [])) (refusedRun.take 4))
      (.postReader 0) := by
    simp only [SelectsRefused, hread]
  exact ⟨trivial, trivial, trivial, trivial, hpost, trivial, trivial, trivial, trivial, trivial⟩

end Server

end Nstore
