/-
The log of the server.

The log is what the writer has committed so far, and the completions that the io thread
has run are the first of it, as `Proofs/Delivery.lean` shows.

Two things are read off the log.  The transactions of a namespace are numbered one
after the other, and the counter is where they end.  And the datoms of a namespace
are the base facts and the facts of its transactions.
-/
import Nstore.Proofs.Service
import Nstore.Proofs.Delivery
import Nstore.Proofs.Snapshot
import Nstore.Proofs.Latest

namespace Nstore

open Machine

namespace Server

variable {libs : Libs} {σ : Server} {e : Event} {n : Nat}

/-! ### The requests of the writer -/

/-- The request that a task of the writer makes. -/
def writerRequest (libs : Libs) (σ : Server) : WriterTask → Request
  | .newNamespace s => .newNamespace (libs.parse (σ.sessions s).argument)
  | .transact s => .transact (σ.sessions s).selected (libs.parse (σ.sessions s).argument)

/-- What an event asks of the database. -/
def inputs (libs : Libs) (σ : Server) : Event → List Input
  | .runWriter o =>
      match σ.writer, σ.writerQueue with
      | none, w :: _ => [(o, σ.writerRequest libs w)]
      | _, _ => []
  | _ => []

private theorem store_runWriterTask (o : Oracle) (w : WriterTask) :
    (σ.runWriterTask libs o w).1 = Nstore.step libs.sha256 σ.store (o, σ.writerRequest libs w) := by
  cases w with
  | newNamespace s => rfl
  | transact s =>
      simp only [runWriterTask, writerRequest, Nstore.step, serve]
      split
      · rename_i h
        rw [h]
      · rename_i h
        rw [h]

theorem store_step (libs : Libs) (σ : Server) (e : Event) :
    (σ.step libs e).store = run (Nstore.step libs.sha256) σ.store (inputs libs σ e) := by
  rw [step_store]
  cases e with
  | runWriter o =>
      simp only [storeAfter, inputs]
      cases σ.writer with
      | some t => rfl
      | none =>
          cases σ.writerQueue with
          | nil => rfl
          | cons w rest => exact store_runWriterTask o w
  | _ => rfl

/-! ### Commits -/

/-- A request that is not answered with a response has committed nothing. -/
theorem isCommit_of_reply {sha256 : Bytes → Value} {s : Store} {i : Input}
    (h : ∀ tx facts newIds, reply sha256 s i ≠ .response tx facts newIds) (m : Nat) :
    isCommit sha256 m s i = false := by
  unfold isCommit
  split
  · rename_i hrep
    exact absurd hrep (h _ _ _)
  · rfl

theorem isCommit_of_response {sha256 : Bytes → Value} {s : Store} {i : Input} {m : Nat}
    {arg : Option Json} {tx : Int} {facts : List Fact} {newIds : List (Int × Int)}
    (hreq : i.2 = .transact m arg) (hrep : reply sha256 s i = .response tx facts newIds) :
    isCommit sha256 n s i = decide (m = n) := by
  unfold isCommit
  rw [hreq, hrep]

/-- **What a task of the writer commits**: nothing, or the transaction of its response. -/
theorem transacted_cases (libs : Libs) (o : Oracle) (w : WriterTask) :
    (σ.transacted libs o w = [] ∧
      ∀ m, isCommit libs.sha256 m σ.store (o, σ.writerRequest libs w) = false) ∨
    ∃ arg c, c.ns = (σ.sessions w.session).ns ∧ σ.writerRequest libs w = .transact c.ns arg ∧
      reply libs.sha256 σ.store (o, σ.writerRequest libs w) = .response c.tx c.facts c.newIds ∧
      σ.transacted libs o w = [c] := by
  rw [← completion_runWriterTask]
  cases w with
  | newNamespace s => exact .inl ⟨rfl, fun _ => rfl⟩
  | transact s =>
      simp only [runWriterTask, writerRequest, reply, serve]
      split
      · rename_i tx facts newIds store h
        exact .inr ⟨_, ⟨_, s, tx, facts, newIds⟩, rfl, rfl, congrArg Prod.fst h, rfl⟩
      · rename_i r store hne h
        refine .inl ⟨rfl, isCommit_of_reply fun tx facts newIds hrep => ?_⟩
        have hr : r = .response tx facts newIds := (congrArg Prod.fst h).symm.trans hrep
        exact hne tx facts newIds hr

/-- The cases of an event for the log: nothing is asked of the database, or one request. -/
theorem inputs_cases (libs : Libs) (σ : Server) (e : Event) :
    (inputs libs σ e = [] ∧ committed libs σ e = []) ∨
    ∃ o w, w ∈ σ.writerQueue ∧ inputs libs σ e = [(o, σ.writerRequest libs w)] ∧
      committed libs σ e = σ.transacted libs o w := by
  cases e with
  | runWriter o =>
      simp only [inputs, committed]
      cases σ.writer with
      | some t => exact .inl ⟨rfl, rfl⟩
      | none =>
          cases σ.writerQueue with
          | nil => exact .inl ⟨rfl, rfl⟩
          | cons w rest => exact .inr ⟨o, w, List.mem_cons_self, rfl, rfl⟩
  | _ => exact .inl ⟨rfl, rfl⟩

/-! ### Numbers -/

/-- The sessions know only of namespaces that `namespace_t` can hold. -/
structure Narrow (σ : Server) : Prop extends Known σ where
  ns : ∀ s, (σ.sessions s).ns < 2 ^ 32
  found : ∀ s m, .selected s m ∈ σ.readers → m < 2 ^ 32

private theorem handleSelect_lt {o : Oracle} {st : Store} {arg : Option Json} {m : Nat}
    (h : handleSelect o st arg = some m) : m < 2 ^ 32 := by
  unfold handleSelect at h
  split at h
  · rename_i i
    split at h
    · exact absurd h (by simp)
    · split at h
      · rw [← Option.some.inj h]
        exact toNamespace_lt _
      · exact absurd h (by simp)
  · exact absurd h (by simp)

theorem Narrow.step (hσ : Narrow σ) (e : Event) : Narrow (σ.step libs e) where
  toKnown := hσ.toKnown.step e
  ns s := by
    cases e with
    | postReader k =>
        cases hk : σ.readers[k]? with
        | none =>
            have hstep : σ.step libs (.postReader k) = σ := by simp only [Server.step, hk]
            rw [hstep]
            exact hσ.ns s
        | some t =>
            rw [ns_postReader hσ.nodup hk]
            cases t with
            | selected i m =>
                have hm := hσ.found i m (List.mem_of_getElem? hk)
                simp only [nsAfter]
                split
                · exact hm
                · exact hσ.ns s
            | answer i r => simpa [nsAfter] using hσ.ns s
            | transacted i m tx facts newIds => simpa [nsAfter] using hσ.ns s
    | _ =>
        rw [ns_step hσ.nodup fun k => Event.noConfusion]
        exact hσ.ns s
  found s m hm := by
    rw [step_readers] at hm
    cases e with
    | runReader o =>
        rcases List.mem_append.mp hm with hm | hm
        · exact hσ.found s m hm
        · cases hr : σ.readerQueue with
          | nil => simp [hr] at hm
          | cons r rest =>
              have hm : .selected s m = σ.runReaderTask libs o r := by simpa [hr] using hm
              cases r with
              | facts i => exact absurd hm (by simp [runReaderTask])
              | select i =>
                  simp only [runReaderTask] at hm
                  split at hm
                  · rename_i m' hsel
                    rw [(IoTask.selected.inj hm).2]
                    exact handleSelect_lt hsel
                  · exact absurd hm (by simp)
    | postReader k => exact hσ.found s m (List.mem_of_mem_eraseIdx hm)
    | _ => exact hσ.found s m hm

/-- The transactions of a namespace are numbered from `first` on; `log` is what was committed. -/
structure NumberedFrom (n : Nat) (first : Int) (log : List Completion) (σ : Server) : Prop
    extends Narrow σ where
  quiet : ReadersQuiet σ
  numbers : (log.filter (·.ns = n)).map (·.tx) =
    (List.range (log.filter (·.ns = n)).length).map fun i : Nat => first + i
  counter : getMeta σ.store n metaTx = some (first + (log.filter (·.ns = n)).length)

/-- A response has the number the counter had, and moves it on by one. -/
theorem response_counter {sha256 : Bytes → Value} {s : Store} {i : Input} {m : Nat}
    {arg : Option Json} {tx : Int} {facts : List Fact} {newIds : List (Int × Int)}
    (hreq : i.2 = .transact m arg) (hrep : reply sha256 s i = .response tx facts newIds)
    (hm : m < 2 ^ 32) : getMeta s m metaTx = some tx ∧
      getMeta (Nstore.step sha256 s i) m metaTx = some (tx + 1) := by
  obtain ⟨fs, -, htr⟩ := response_transact hreq hrep
  obtain ⟨tx', id, st, htx, -, -, hs', hr⟩ := transact_cases htr
  have heq : tx = tx' := (Reply.response.inj hr).1
  rw [heq, hs']
  exact ⟨htx, (getMeta_commitStore m tx' st hm).1⟩

theorem NumberedFrom.step {first : Int} {log : List Completion} (hn : n < 2 ^ 32)
    (hσ : NumberedFrom n first log σ) (e : Event) :
    NumberedFrom n first (log ++ committed libs σ e) (σ.step libs e) := by
  have hstore := store_step libs σ e
  obtain ⟨hnumbers, hcounter⟩ :
      ((log ++ committed libs σ e).filter (·.ns = n)).map (·.tx) =
        ((List.range ((log ++ committed libs σ e).filter (·.ns = n)).length).map
          fun i : Nat => first + i) ∧
      getMeta (σ.step libs e).store n metaTx =
        some (first + ((log ++ committed libs σ e).filter (·.ns = n)).length) := by
    rw [hstore]
    obtain ⟨hin, hcom⟩ | ⟨o, w, -, hin, hcom⟩ := inputs_cases libs σ e
    · rw [hin, hcom, List.append_nil]
      exact ⟨hσ.numbers, hσ.counter⟩
    · rw [hin, hcom]
      have hns (arg : Option Json) (m : Nat) (h : σ.writerRequest libs w = .transact m arg) :
          m < 2 ^ 32 := by
        cases w with
        | newNamespace s => exact absurd h (by simp [writerRequest])
        | transact s =>
            rw [← (Request.transact.inj h).1]
            exact hσ.ns s
      have hsame (hc : isCommit libs.sha256 n σ.store (o, σ.writerRequest libs w) = false) :
          getMeta (Nstore.step libs.sha256 σ.store (o, σ.writerRequest libs w)) n metaTx =
            some (first + (log.filter (·.ns = n)).length) := by
        rw [step_counters (fun m arg h => hns arg m h) hn (by simp [nsExists, hσ.counter]) hc
          (by decide)]
        exact hσ.counter
      obtain ⟨hnone, hcommit⟩ | ⟨arg, c, -, hreq, hrep, hone⟩ := transacted_cases libs o w
      · rw [hnone, List.append_nil]
        exact ⟨hσ.numbers, hsame (hcommit n)⟩
      · rw [hone, List.filter_append, List.map_append, List.length_append]
        by_cases hc : c.ns = n
        · -- the transaction is numbered where the numbers so far have ended
          obtain ⟨htx, htx'⟩ := response_counter hreq hrep (hns arg _ hreq)
          rw [hc, hσ.counter, Option.some.injEq] at htx
          rw [hc] at htx'
          rw [List.filter_cons_of_pos (by simp [hc]), hσ.numbers]
          simp only [List.filter_nil, List.length_singleton, List.range_succ, List.map_append,
            List.map_cons, List.map_nil]
          refine ⟨by rw [← htx], ?_⟩
          refine htx'.trans (congrArg some ?_)
          push_cast
          omega
        · have hnot : isCommit libs.sha256 n σ.store (o, σ.writerRequest libs w) = false := by
            rw [isCommit_of_response hreq hrep]
            simpa using hc
          rw [List.filter_cons_of_neg (by simpa using hc)]
          simp only [List.filter_nil, List.map_nil, List.append_nil, List.length_nil, Nat.add_zero]
          exact ⟨hσ.numbers, hsame hnot⟩
  exact
    { toNarrow := hσ.toNarrow.step e
      quiet := hσ.quiet.step
      numbers := hnumbers
      counter := hcounter }

theorem numberedFrom_init {st : Store} {first : Int} (hfirst : getMeta st n metaTx = some first) :
    NumberedFrom n first [] (init st) where
  toKnown := known_init st
  ns _ := by show (0 : Nat) < 2 ^ 32; norm_num
  found _ _ h := absurd h List.not_mem_nil
  quiet _ h := absurd h List.not_mem_nil
  numbers := rfl
  counter := hfirst.trans (congrArg some (Int.add_zero first).symm)

theorem run_numberedFrom (libs : Libs) {st : Store} {first : Int} (hn : n < 2 ^ 32)
    (hfirst : getMeta st n metaTx = some first) (es : List Event) :
    NumberedFrom n first (record (Server.step libs) (committed libs) (init st) es)
      (run (Server.step libs) (init st) es) :=
  run_invariant_record (NumberedFrom n first) (fun _ _ e hσ => hσ.step hn e) es
    (numberedFrom_init hfirst)

/-- Idle threads have left nothing on its way. -/
theorem completed_of_idle {st : Store} {es : List Event}
    (hidle : (run (Server.step libs) (init st) es).work = 0) :
    record (Server.step libs) completed (init st) es =
      record (Server.step libs) (committed libs) (init st) es := by
  unfold work at hidle
  refine run_completed_of_idle (List.eq_nil_of_length_eq_zero (by omega)) ?_
  exact Option.toList_eq_nil_iff.mp (List.eq_nil_of_length_eq_zero (by omega))

/--
The facts of a completion are stored: each has its key, and the last one of an entity
and an attribute its own datom.
-/
structure Logged (sha256 : Bytes → Value) (s : Store) (c : Completion) : Prop where
  facts : ∀ f ∈ c.facts, f.tx = c.tx ∧ (encodeFact sha256 f.v).Ok sha256
  stored : ∀ f ∈ c.facts, ∃ x ∈ s, x.1.coords = (factEntry sha256 c.ns f).1.coords
  last : ∀ l f r, c.facts = l ++ f :: r → (∀ g ∈ r, ¬ (g.e = f.e ∧ g.a = f.a)) →
    factEntry sha256 c.ns f ∈ s

theorem Logged.mono {sha256 : Bytes → Value} {s s' : Store} {c : Completion} (hs : StoreOk s)
    (hkeep : ∀ x ∈ s, x.1.IsDatom → x ∈ s') (h : Logged sha256 s c) : Logged sha256 s' c where
  facts := h.facts
  stored f hf := by
    obtain ⟨x, hx, hcoords⟩ := h.stored f hf
    have hd := isDatom_of_coords_eq (hs.keys x hx) (factEntry_isDatom (h.facts f hf).2) hcoords
    exact ⟨x, hkeep x hx hd, hcoords⟩
  last l f r hsplit hr := by
    have hf : f ∈ c.facts := by
      rw [hsplit]
      simp
    exact hkeep _ (h.last l f r hsplit hr) (factEntry_isDatom (h.facts f hf).2)

/-- The facts of the log are what the datoms of a namespace are, the base facts apart. -/
structure Accounted (libs : Libs) (st : Store) (n : Nat) (log : List Completion) (σ : Server) :
    Prop where
  inv : DatomInv libs.sha256 σ.store
  kept : ∀ x ∈ st, x.1.IsDatom → x ∈ σ.store
  listed : ∀ x ∈ σ.store, x.1.IsDatom → x.1.ns = n → x.1.sort = sortEATV →
    x ∈ st ∨ x ∈ setupWrites n ∨
      ∃ c ∈ log, c.ns = n ∧ ∃ f ∈ c.facts, x = factEntry libs.sha256 n f
  logged : ∀ c ∈ log, c.ns = n → Logged libs.sha256 σ.store c

/-- The requests an event makes have their numbers and strings in range. -/
def EventBounded (libs : Libs) (σ : Server) (e : Event) : Prop :=
  ∀ i ∈ inputs libs σ e, InputBounded libs.sha256 σ.store i

/-- A request that commits nothing adds base facts at most. -/
theorem mem_step_of_not_commit {sha256 : Bytes → Value} {s : Store} {i : Input} (hr : Sound s)
    (hi : InputBounded sha256 s i) (hnot : ∀ m, isCommit sha256 m s i = false) {x : Entry}
    (hx : x ∈ Nstore.step sha256 s i) (hd : x.1.IsDatom) : x ∈ s ∨ x ∈ setupWrites x.1.ns := by
  have hmeta : x.1.type ≠ .keyMeta := fun hc => not_isDatom_of_meta hc hd
  obtain ⟨hsame, -⟩ | ⟨m, -, -, -, hset, -⟩ | ⟨m, tx, fs, st, hc⟩ := sound_step_cases hr hi
  · exact .inl (hsame ▸ hx)
  · by_cases hm : x.1.ns = m
    · rcases hset.added x hx with hx | hx
      · exact .inl hx
      · exact .inr (hm ▸ (mem_setupEntries hmeta).mp hx)
    · exact .inl ((hset.foreign x hm).mp hx)
  · exact absurd hc.isCommit (by simp [hnot m])

/-- A committed transaction logs its facts, and the datoms it adds are theirs. -/
theorem logged_of_response {sha256 : Bytes → Value} {s : Store} {i : Input} {c : Completion}
    {arg : Option Json} (hr : DatomInv sha256 s) (hi : InputBounded sha256 s i)
    (hreq : i.2 = .transact c.ns arg) (hrep : reply sha256 s i = .response c.tx c.facts c.newIds) :
    Logged sha256 (Nstore.step sha256 s i) c ∧
      ∀ x ∈ Nstore.step sha256 s i, x.1.IsDatom → x.1.sort = sortEATV →
        x ∈ s ∨ (x.1.ns = c.ns ∧ ∃ f ∈ c.facts, x = factEntry sha256 c.ns f) := by
  obtain ⟨vs, st, hcommits, hfacts⟩ := response_commits hr.toSound hi hreq hrep
  have hadds := hcommits.adds hr
  rw [hfacts] at hadds
  refine ⟨⟨fun f hf => ?_, hadds.stored, hadds.last⟩, fun x hx hd hsort => ?_⟩
  · exact ⟨(hadds.facts f hf).1, (hadds.facts f hf).2.2⟩
  · by_cases hns : x.1.ns = c.ns
    · by_cases ht : x.1.t / 2 = c.tx
      · exact .inr ⟨hns, hadds.listed x hx hd hns hsort ht⟩
      · exact .inl ((hcommits.transacted.datoms x hd ht).mp hx)
    · exact .inl ((hcommits.transacted.foreign x hns).mp hx)

theorem Accounted.step {st : Store} {log : List Completion} (hσ : Accounted libs st n log σ)
    {e : Event} (he : EventBounded libs σ e) :
    Accounted libs st n (log ++ committed libs σ e) (σ.step libs e) := by
  have hstore := store_step libs σ e
  obtain ⟨hin, hcom⟩ | ⟨o, w, -, hin, hcom⟩ := inputs_cases libs σ e
  · rw [hin] at hstore
    have hstore : (σ.step libs e).store = σ.store := hstore
    rw [hcom, List.append_nil]
    constructor
    · exact hstore ▸ hσ.inv
    · exact hstore ▸ hσ.kept
    · rw [hstore]
      exact hσ.listed
    · rw [hstore]
      exact hσ.logged
  · have hi : InputBounded libs.sha256 σ.store (o, σ.writerRequest libs w) :=
      he _ (hin ▸ List.mem_singleton_self _)
    rw [hin] at hstore
    rw [hcom]
    have hstore : (σ.step libs e).store =
        Nstore.step libs.sha256 σ.store (o, σ.writerRequest libs w) := hstore
    have hkeep (x : Entry) (hx : x ∈ σ.store) (hd : x.1.IsDatom) :
        x ∈ Nstore.step libs.sha256 σ.store (o, σ.writerRequest libs w) :=
      mem_step_of_datom hσ.inv.toSound hi hx hd
    obtain ⟨hnone, hcommit⟩ | ⟨arg, c, -, hreq, hrep, hone⟩ := transacted_cases libs o w
    · rw [hnone, List.append_nil]
      constructor
      · exact hstore ▸ datomInv_step hσ.inv hi
      · rw [hstore]
        exact fun x hx hd => hkeep x (hσ.kept x hx hd) hd
      · rw [hstore]
        intro x hx hd hn hsort
        rcases mem_step_of_not_commit hσ.inv.toSound hi hcommit hx hd with hx | hx
        · exact hσ.listed x hx hd hn hsort
        · exact .inr (.inl (hn ▸ hx))
      · rw [hstore]
        exact fun c hc hn => (hσ.logged c hc hn).mono hσ.inv.ok hkeep
    · rw [hone]
      obtain ⟨hlogged, hadded⟩ := logged_of_response hσ.inv hi hreq hrep
      constructor
      · exact hstore ▸ datomInv_step hσ.inv hi
      · rw [hstore]
        exact fun x hx hd => hkeep x (hσ.kept x hx hd) hd
      · rw [hstore]
        intro x hx hd hn hsort
        rcases hadded x hx hd hsort with hx | ⟨hns, f, hf, heq⟩
        · rcases hσ.listed x hx hd hn hsort with h | h | ⟨c', hc', h⟩
          · exact .inl h
          · exact .inr (.inl h)
          · exact .inr (.inr ⟨c', List.mem_append_left _ hc', h⟩)
        · have hcn : c.ns = n := hns.symm.trans hn
          exact .inr (.inr ⟨c, List.mem_append_right _ (List.mem_singleton_self c), hcn, f, hf,
            hcn ▸ heq⟩)
      · rw [hstore]
        intro c' hc' hn
        rcases List.mem_append.mp hc' with hc' | hc'
        · exact (hσ.logged c' hc' hn).mono hσ.inv.ok hkeep
        · rw [List.mem_singleton.mp hc']
          exact hlogged

theorem accounted_init {st : Store} (hst : DatomInv libs.sha256 st) :
    Accounted libs st n [] (init st) where
  inv := hst
  kept _ hx _ := hx
  listed _ hx _ _ _ := .inl hx
  logged _ h := absurd h List.not_mem_nil

theorem run_accounted {o : Oracle} {es : List Event}
    (hes : Along (Server.step libs) (EventBounded libs) (init (dbOpen o [])) es) :
    Accounted libs (dbOpen o []) n
      (record (Server.step libs) (committed libs) (init (dbOpen o [])) es)
      (run (Server.step libs) (init (dbOpen o [])) es) :=
  hes.invariant_record (Accounted libs (dbOpen o []) n) (fun _ _ _ hσ he => hσ.step he)
    (accounted_init (datomInv_dbOpen o))

/--
**The log accounts for the store.**  In every interleaving whose requests have their
numbers and strings in range, what was stored stays; every datom of a namespace is one that was
there at first, a base fact, or a fact of a committed transaction; and every fact of a
committed transaction is stored, across all transactions that came after it.
-/
theorem run_log_accounts (libs : Libs) (o : Oracle) (n : Nat) {es : List Event}
    (hes : Along (Server.step libs) (EventBounded libs) (init (dbOpen o [])) es) :
    let σ := run (Server.step libs) (init (dbOpen o [])) es
    let commits := record (Server.step libs) (committed libs) (init (dbOpen o [])) es
    (∀ x ∈ dbOpen o [], x.1.IsDatom → x ∈ σ.store) ∧
    (∀ x ∈ σ.store, x.1.IsDatom → x.1.ns = n → x.1.sort = sortEATV →
      x ∈ dbOpen o [] ∨ x ∈ setupWrites n ∨
        ∃ c ∈ commits, c.ns = n ∧ ∃ f ∈ c.facts, x = factEntry libs.sha256 n f) ∧
    (∀ c ∈ commits, c.ns = n → Logged libs.sha256 σ.store c) := by
  intro σ commits
  have hσ : Accounted libs (dbOpen o []) n commits σ := run_accounted hes
  exact ⟨hσ.kept, hσ.listed, hσ.logged⟩

theorem exchangeRun_bounded :
    Along (Server.step sampleLibs) (EventBounded sampleLibs) (init (dbOpen .calm []))
      exchangeRun := by
  have hidle {σ : Server} {e : Event} (h : inputs sampleLibs σ e = []) :
      EventBounded sampleLibs σ e := by
    intro i hi
    rw [h] at hi
    exact absurd hi List.not_mem_nil
  have hnone : inputs sampleLibs (run (Server.step sampleLibs) (init (dbOpen .calm []))
      (exchangeRun.take 1)) (.receive 0 (ascii "t[[60,50,7,0]]\r")) = [] := rfl
  have hone : inputs sampleLibs (run (Server.step sampleLibs) (init (dbOpen .calm []))
      (exchangeRun.take 2)) (.runWriter .calm) =
        [(.calm, .transact 0 (some (.array [.array [.int64 60, .int64 50, .int64 7, .int64 0]])))] :=
    rfl
  have hget : getMeta (Nstore.step .ofBytes (dbOpen .calm []) (.calm, .transact 0
        (some (.array [.array [.int64 60, .int64 50, .int64 7, .int64 0]])))) 0 metaTx = some 2 ∧
      getMeta (Nstore.step .ofBytes (dbOpen .calm []) (.calm, .transact 0
        (some (.array [.array [.int64 60, .int64 50, .int64 7, .int64 0]])))) 0 metaId = some 11 := by
    decide +kernel
  refine ⟨hidle rfl, hidle hnone, ?_, hidle rfl, hidle rfl, hidle rfl, hidle rfl, trivial⟩
  intro i hi
  have hi : i = (.calm, .transact 0
      (some (.array [.array [.int64 60, .int64 50, .int64 7, .int64 0]]))) := by
    rw [← List.mem_singleton, ← hone]
    exact hi
  rw [hi]
  apply InputInRange.bounded
  refine inputInRange_of_counters (by norm_num) (fun v hv => ?_) hget (by norm_num)
  rw [List.mem_singleton.mp hv]
  decide

theorem exchangeRun_log_accounts :
    let σ := run (Server.step sampleLibs) (init (dbOpen .calm [])) exchangeRun
    (∀ x ∈ dbOpen .calm [], x.1.IsDatom → x ∈ σ.store) ∧
      ∀ c ∈ record (Server.step sampleLibs) (committed sampleLibs) (init (dbOpen .calm []))
        exchangeRun, c.ns = 0 → Logged .ofBytes σ.store c :=
  have h := run_log_accounts sampleLibs .calm 0 exchangeRun_bounded
  ⟨h.1, h.2.2⟩

end Server

end Nstore
