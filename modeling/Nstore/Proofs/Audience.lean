/-
Who hears of a transaction.

Sessions are let into channel 0 as they start, and nothing lets them into another: the
completion of `handle_select` leaves a channel and joins none.  So in every run, whoever
selects what and whatever fails, the transactions of namespace 0 are all that is ever
published.  A session hears of them from its start to the moment it leaves channel 0, one
after the other and without a gap, and never again; its own transactions are always
answered.

A client that asks for the latest facts while it hears of namespace 0 therefore misses
nothing: what its answer does not tell, because it is numbered from the label of the
answer on, reaches it afterwards in the order of the numbers.
-/
import Nstore.Proofs.Log

namespace Nstore

open Machine

namespace Server

variable {libs : Libs} {σ τ : Server} {e : Event} {s : Nat}

/-! ### Answers -/

/-- No answer to a session speaks of a transaction; only a completion does. -/
def SpeaksNot : IoTask → Prop
  | .answer _ r => ∀ tx facts newIds, r ≠ .response tx facts newIds
  | _ => True

private theorem speaksNot_of_plain {t : IoTask} (ht : Plain t) : SpeaksNot t := by
  cases t with
  | answer i r => exact ht
  | selected i m => trivial
  | transacted i m tx facts newIds => trivial

private theorem speaksNot_runReaderTask (o : Oracle) (r : ReaderTask) :
    SpeaksNot (σ.runReaderTask libs o r) := by
  cases r with
  | facts i => exact handleFacts_ne_response o _ _ _
  | select i =>
      simp only [runReaderTask]
      split
      · trivial
      · intro tx facts newIds
        exact Reply.noConfusion

/-! ### Channels -/

/-- Nobody is in a channel other than 0. -/
structure Audible (σ : Server) : Prop extends Known σ where
  home : ∀ c, c ≠ 0 → σ.members c = []
  quiet : ReadersQuiet σ
  plain : ∀ t ∈ σ.pending, SpeaksNot t

theorem audible_init (st : Store) : Audible (init st) where
  toKnown := known_init st
  home _ _ := rfl
  quiet _ h := absurd h List.not_mem_nil
  plain _ h := absurd h (by simp [pending, init])

theorem Audible.step (h : Audible σ) (e : Event) : Audible (σ.step libs e) where
  toKnown := h.toKnown.step e
  home c hc := by
    rw [List.eq_nil_iff_forall_not_mem]
    intro i hi
    rcases (mem_members_step.mp hi).1 with hi | hi
    · rw [h.home c hc] at hi
      exact List.not_mem_nil hi
    · -- the only one to join is a session that starts
      cases e with
      | accept => exact hc hi.1
      | _ => exact hi
  quiet := h.quiet.step
  plain t ht := by
    obtain ht | ⟨o, w, -, -, rfl⟩ | ⟨o, r, -, -, rfl⟩ := mem_pending_step ht
    · exact h.plain t ht
    · exact speaksNot_of_plain (plain_runWriterTask o w)
    · exact speaksNot_runReaderTask o r

theorem run_audible (libs : Libs) (st : Store) (es : List Event) :
    Audible (run (Server.step libs) (init st) es) :=
  run_invariant Audible (fun _ e h => h.step e) es (audible_init st)

/-! ### One step -/

/-- A session that hears of a completion has its message for it written. -/
def Hears (σ : Server) (s : Nat) (c : Completion) : Prop := c.sender = s ∨ s ∈ σ.members c.ns

instance (σ : Server) (s : Nat) (c : Completion) : Decidable (σ.Hears s c) :=
  inferInstanceAs (Decidable (_ ∨ _))

private theorem filter_ioWrites_hears {t : IoTask} (ht : SpeaksNot t) :
    ((ioWrites σ.members s t).filter fun m => m.tx.isSome) =
      (t.completion.filter fun c => σ.Hears s c).map (·.message s) := by
  cases t with
  | answer i r =>
      have hr : (Msg.reply r).tx = none := by
        cases r with
        | response tx facts newIds => exact absurd rfl (ht tx facts newIds)
        | _ => rfl
      simp only [ioWrites, IoTask.completion]
      split <;> simp [hr]
  | selected i m =>
      simp only [ioWrites, IoTask.completion]
      split <;> simp [Msg.tx]
  | transacted i m tx facts newIds =>
      simp only [ioWrites, IoTask.completion]
      by_cases hi : s = i
      · simp [hi, Hears, Completion.message, Msg.tx]
      · by_cases hm : s ∈ σ.members m
        · simp [hi, hm, Hears, Completion.message, Msg.tx]
        · simp [hi, hm, Hears, Ne.symm hi]

/-- **What a step lets a session hear**: its message for the completion that is run. -/
theorem Audible.transactions_step (h : Audible σ) (libs : Libs) (e : Event) (s : Nat) :
    ((σ.step libs e).sessions s).transactions = (σ.sessions s).transactions ++
      ((completed σ e).filter fun c => σ.Hears s c).map (·.message s) := by
  rw [Server.transactions_step h.nodup]
  congr 1
  cases e with
  | runIo =>
      simp only [written, completed]
      cases hq : σ.ioQueue with
      | nil => rfl
      | cons t rest =>
          have ht : SpeaksNot t := h.plain t (mem_pending.mpr (.inl (by simp [hq])))
          simpa using filter_ioWrites_hears ht
  | _ => exact filter_written Event.noConfusion

/-! ### Between start and leaving -/

/-- A session gets what is about namespace 0, and what it has sent itself. -/
def Completion.Concerns (s : Nat) (c : Completion) : Prop := c.ns = 0 ∨ c.sender = s

instance (s : Nat) (c : Completion) : Decidable (Completion.Concerns s c) :=
  inferInstanceAs (Decidable (_ ∨ _))

theorem Audible.hears_of_mem (h : Audible σ) (hs : s ∈ σ.members 0) (c : Completion) :
    σ.Hears s c ↔ Completion.Concerns s c := by
  unfold Hears Completion.Concerns
  by_cases hc : c.ns = 0
  · rw [hc]
    simp [hs]
  · rw [h.home c.ns hc]
    simp [hc]

theorem Audible.hears_of_notMem (h : Audible σ) (hs : s ∉ σ.members 0) (c : Completion) :
    σ.Hears s c ↔ c.sender = s := by
  unfold Hears
  by_cases hc : c.ns = 0
  · rw [hc]
    simp [hs]
  · rw [h.home c.ns hc]
    simp

/-- A member stays one or leaves, and who has left does not come back. -/
theorem mem_of_mem_step (hs : s < σ.nextUid) (hmem : s ∈ (σ.step libs e).members 0) :
    s ∈ σ.members 0 := by
  rcases (mem_members_step.mp hmem).1 with hmem | hjoin
  · exact hmem
  · cases e with
    | accept => exact absurd hjoin.2 (Nat.ne_of_lt hs)
    | _ => exact hjoin.elim

/-- What a session that is still in channel 0 was told of the completions run since. -/
def Follows (s : Nat) (cs : List Completion) (σ τ : Server) : Prop :=
  σ.nextUid ≤ τ.nextUid ∧
    (s < σ.nextUid → s ∈ τ.members 0 → s ∈ σ.members 0 ∧
      (τ.sessions s).transactions = (σ.sessions s).transactions ++
        (cs.filter fun c => Completion.Concerns s c).map (·.message s))

theorem Follows.refl (s : Nat) (σ : Server) : Follows s [] σ σ :=
  ⟨le_rfl, fun _ hmem => ⟨hmem, by simp⟩⟩

theorem Follows.trans {υ : Server} {cs cs' : List Completion} (h1 : Follows s cs σ τ)
    (h2 : Follows s cs' τ υ) : Follows s (cs ++ cs') σ υ := by
  obtain ⟨hle, htold⟩ := h1
  obtain ⟨hle', htold'⟩ := h2
  refine ⟨hle.trans hle', fun hs hmem => ?_⟩
  obtain ⟨hmem, htrans'⟩ := htold' (hs.trans_le hle) hmem
  obtain ⟨hmem, htrans⟩ := htold hs hmem
  refine ⟨hmem, ?_⟩
  rw [htrans', htrans, List.filter_append, List.map_append, List.append_assoc]

theorem Audible.follows (h : Audible σ) (libs : Libs) (e : Event) (s : Nat) :
    Follows s (completed σ e) σ (σ.step libs e) := by
  refine ⟨nextUid_le_step, fun hs hmem => ?_⟩
  have hmem := mem_of_mem_step hs hmem
  refine ⟨hmem, ?_⟩
  rw [h.transactions_step]
  simp only [h.hears_of_mem hmem]

theorem run_follows (libs : Libs) (h : Audible σ) (es : List Event) (s : Nat) :
    Follows s (record (Server.step libs) completed σ es) σ (run (Server.step libs) σ es) :=
  run_relation_record Audible (Follows s) (Follows.refl s) (fun _ _ _ _ _ => Follows.trans)
    (fun _ e h => h.step e) (fun _ e h => h.follows libs e s) es h

/-- A session is out of channel 0 for good: it is told of its own transactions only. -/
def StaysOut (s : Nat) (cs : List Completion) (σ τ : Server) : Prop :=
  σ.nextUid ≤ τ.nextUid ∧
    (s < σ.nextUid → s ∉ σ.members 0 → s ∉ τ.members 0 ∧
      (τ.sessions s).transactions = (σ.sessions s).transactions ++
        (cs.filter fun c => c.sender = s).map (·.message s))

theorem StaysOut.refl (s : Nat) (σ : Server) : StaysOut s [] σ σ :=
  ⟨le_rfl, fun _ hmem => ⟨hmem, by simp⟩⟩

theorem StaysOut.trans {υ : Server} {cs cs' : List Completion} (h1 : StaysOut s cs σ τ)
    (h2 : StaysOut s cs' τ υ) : StaysOut s (cs ++ cs') σ υ := by
  obtain ⟨hle, htold⟩ := h1
  obtain ⟨hle', htold'⟩ := h2
  refine ⟨hle.trans hle', fun hs hmem => ?_⟩
  obtain ⟨hmem, htrans⟩ := htold hs hmem
  obtain ⟨hmem, htrans'⟩ := htold' (hs.trans_le hle) hmem
  refine ⟨hmem, ?_⟩
  rw [htrans', htrans, List.filter_append, List.map_append, List.append_assoc]

theorem Audible.staysOut (h : Audible σ) (libs : Libs) (e : Event) (s : Nat) :
    StaysOut s (completed σ e) σ (σ.step libs e) := by
  refine ⟨nextUid_le_step, fun hs hmem => ?_⟩
  refine ⟨fun hc => hmem (mem_of_mem_step hs hc), ?_⟩
  rw [h.transactions_step]
  simp only [h.hears_of_notMem hmem]

private theorem run_staysOut (libs : Libs) (h : Audible σ) (es : List Event) (s : Nat) :
    StaysOut s (record (Server.step libs) completed σ es) σ (run (Server.step libs) σ es) :=
  run_relation_record Audible (StaysOut s) (StaysOut.refl s) (fun _ _ _ _ _ => StaysOut.trans)
    (fun _ e h => h.step e) (fun _ e h => h.staysOut libs e s) es h

/-- A member is one as long as nothing takes it out. -/
theorem mem_run_iff (libs : Libs) {s : Nat} : ∀ (es : List Event) {σ : Server}, s < σ.nextUid →
    (s ∈ (run (Server.step libs) σ es).members 0 ↔
      s ∈ σ.members 0 ∧ Along (Server.step libs) (fun σ e => ¬ Leaves σ 0 s e) σ es) := by
  intro es
  induction es with
  | nil => intro σ _; exact (and_iff_left trivial).symm
  | cons e es ih =>
      intro σ hs
      have hjoin : ¬ Joins σ 0 s e := by
        cases e with
        | accept => exact fun h => absurd h.2 (Nat.ne_of_lt hs)
        | _ => exact id
      have hstep : s ∈ (σ.step libs e).members 0 ↔ s ∈ σ.members 0 ∧ ¬ Leaves σ 0 s e := by
        rw [mem_members_step, or_iff_left hjoin]
      have hrest := ih (σ := σ.step libs e) (hs.trans_le nextUid_le_step)
      rw [hstep, and_assoc] at hrest
      exact hrest

/-! ### Numbers -/

/-- Numbers counted up from one. -/
def countedFrom (first : Int) (k : Nat) : List Int := (List.range k).map fun i : Nat => first + i

theorem countedFrom_succ (first : Int) (k : Nat) :
    countedFrom first (k + 1) = countedFrom first k ++ [first + k] := by
  unfold countedFrom
  rw [List.range_succ, List.map_append]
  rfl

private theorem consecutive_countedFrom (first : Int) (k : Nat) :
    Consecutive (countedFrom first k) := by
  induction k with
  | zero => exact List.isChain_nil
  | succ k ih =>
      rw [countedFrom_succ]
      refine List.isChain_append.mpr ⟨ih, List.isChain_singleton _, fun a ha b hb => ?_⟩
      have hb : b = first + k := by simpa using hb.symm
      cases k with
      | zero => exact absurd ha (by simp [countedFrom])
      | succ k =>
          rw [countedFrom_succ, List.getLast?_concat] at ha
          have ha : a = first + k := by simpa using ha.symm
          rw [ha, hb]
          push_cast
          omega

/-- The numbers from one of them on. -/
theorem filter_countedFrom (first : Int) (m k : Nat) :
    ((countedFrom first k).filter fun i => first + m ≤ i) = countedFrom (first + m) (k - m) := by
  induction k with
  | zero => simp [countedFrom]
  | succ k ih =>
      rw [countedFrom_succ, List.filter_append, ih]
      by_cases hm : m ≤ k
      · have hle : first + (m : Int) ≤ first + k := by omega
        have hsub : k + 1 - m = k - m + 1 := by omega
        rw [hsub, countedFrom_succ, List.filter_cons_of_pos (by simpa using hm)]
        have hlast : first + (k : Int) = first + m + ((k - m : Nat) : Int) := by omega
        rw [hlast]
        rfl
      · have hsub : k + 1 - m = k - m := by omega
        rw [hsub, List.filter_cons_of_neg (by simpa using hm)]
        simp

private theorem countedFrom_add (first : Int) (m k : Nat) :
    countedFrom first (m + k) = countedFrom first m ++ countedFrom (first + m) k := by
  induction k with
  | zero => simp [countedFrom]
  | succ k ih =>
      have hlast : first + ((m + k : Nat) : Int) = first + m + k := by
        push_cast
        omega
      rw [← Nat.add_assoc, countedFrom_succ, countedFrom_succ, ih, List.append_assoc, hlast]

theorem mem_countedFrom {first i : Int} {k : Nat} (h : i ∈ countedFrom first k) :
    first ≤ i ∧ i < first + k := by
  obtain ⟨j, hj, rfl⟩ := List.mem_map.mp h
  rw [List.mem_range] at hj
  omega

/-- The first of the transactions are numbered as they all are. -/
theorem NumberedFrom.numbers_of_first {n : Nat} {first : Int} {log done : List Completion}
    (h : NumberedFrom n first log σ) (hdone : done <+: log) :
    (done.filter (·.ns = n)).map (·.tx) =
      countedFrom first (done.filter (·.ns = n)).length := by
  have hpart : (done.filter (·.ns = n)) <+: (log.filter (·.ns = n)) := hdone.filter _
  rw [List.prefix_iff_eq_take.mp hpart, List.map_take, h.numbers, ← List.map_take,
    List.take_range, List.length_take]
  rfl

/-- About namespace 0, and numbered from a label on. -/
def Completion.Late (label : Int) (c : Completion) : Prop := c.ns = 0 ∧ label ≤ c.tx

instance (label : Int) (c : Completion) : Decidable (Completion.Late label c) :=
  inferInstanceAs (Decidable (_ ∧ _))

theorem filter_late (label : Int) (cs : List Completion) :
    ((cs.filter fun c => Completion.Late label c).map (·.tx)) =
      ((cs.filter (·.ns = 0)).map (·.tx)).filter fun i => label ≤ i := by
  rw [List.filter_map, List.filter_filter]
  congr 1
  refine List.filter_congr fun c _ => ?_
  simp [Completion.Late, and_comm]

/-- What is committed so far is below the counter. -/
theorem NumberedFrom.lt_counter {n : Nat} {first next : Int} {log : List Completion}
    (h : NumberedFrom n first log σ) (hnext : getMeta σ.store n metaTx = some next)
    {c : Completion} (hc : c ∈ log) (hn : c.ns = n) : c.tx < next := by
  have hmem : c.tx ∈ (log.filter (·.ns = n)).map (·.tx) :=
    List.mem_map_of_mem (List.mem_filter.mpr ⟨hc, by simpa using hn⟩)
  rw [h.numbers] at hmem
  rw [h.counter, Option.some.injEq] at hnext
  rw [← hnext]
  exact (mem_countedFrom hmem).2

/-- And what is committed later is not. -/
theorem NumberedFrom.counter_le {n : Nat} {first next : Int} {log cs : List Completion}
    (h : NumberedFrom n first log σ) (hend : NumberedFrom n first (log ++ cs) τ)
    (hnext : getMeta σ.store n metaTx = some next) {c : Completion} (hc : c ∈ cs)
    (hn : c.ns = n) : next ≤ c.tx := by
  have hnumbers := hend.numbers
  rw [List.filter_append, List.map_append, h.numbers, List.length_append] at hnumbers
  have hrest := List.append_cancel_left (hnumbers.trans (countedFrom_add first _ _))
  have hmem : c.tx ∈ (cs.filter (·.ns = n)).map (·.tx) :=
    List.mem_map_of_mem (List.mem_filter.mpr ⟨hc, by simpa using hn⟩)
  rw [h.counter, Option.some.injEq] at hnext
  rw [hrest, hnext] at hmem
  exact (mem_countedFrom hmem).1

/-- The completions run from a state on whose numbers are not below its counter. -/
theorem NumberedFrom.late {first label : Int} {log log' done cs : List Completion}
    (h : NumberedFrom 0 first log σ) (hend : NumberedFrom 0 first log' τ)
    (hlabel : getMeta σ.store 0 metaTx = some label) (hdone : done <+: log)
    (hall : done ++ cs <+: log') :
    ((cs.filter fun c => Completion.Concerns s c).filter fun c => Completion.Late label c) =
        ((done ++ cs).filter fun c => Completion.Late label c) ∧
      ((done ++ cs).filter fun c => Completion.Late label c).map (·.tx) = countedFrom label
        (((done ++ cs).filter (·.ns = 0)).length - (log.filter (·.ns = 0)).length) := by
  constructor
  · have hold : (done.filter fun c => Completion.Late label c) = [] := by
      rw [List.filter_eq_nil_iff]
      intro c hc hlate
      obtain ⟨hn, hle⟩ : Completion.Late label c := by simpa using hlate
      have hlt := h.lt_counter hlabel (hdone.subset hc) hn
      omega
    rw [List.filter_append, hold, List.nil_append, List.filter_filter]
    refine List.filter_congr fun c _ => ?_
    have himp : Completion.Late label c → Completion.Concerns s c := fun h => .inl h.1
    by_cases hlate : Completion.Late label c
    · simp [hlate, himp hlate]
    · simp [hlate]
  · have hcounter := h.counter
    rw [hlabel, Option.some.injEq] at hcounter
    rw [filter_late, hend.numbers_of_first hall, hcounter, filter_countedFrom]

end Server

end Nstore
