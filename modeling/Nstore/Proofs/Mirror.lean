/-
A client that keeps a copy of a namespace.

It asks for the latest facts, and from then on enters the facts of what it is told: of the
events, and of the responses to its own transactions, each if its number is not below the
label of the answer.  `Proofs/Audience.lean` shows that no transaction is missing then, and
`Proofs/Replica.lean` when the facts of one transaction say what it did.  Here the two come
together: as long as the transactions are of that kind, the copy is at every moment the
facts as of the last transaction the client was told of.

What carries it over a run is that each completion, on its way or run, tells the two
versions of the store apart that lie around it, and that later transactions change neither.
-/
import Nstore.Proofs.Audience
import Nstore.Proofs.Replica
import Nstore.Proofs.Future

namespace Nstore

open Machine Overwrite

/-! ### Versions -/

section Versions

variable {sha256 : Bytes → Value} {q : Oracle} {s s' : Store} {n : Nat} {i : Input} {next : Int}

theorem SamePast.factsAt_eq {t : Int64} (h : SamePast n t.toInt s s') (hs : Sound s)
    (hs' : Sound s') (hn : n < 2 ^ 31) (h0 : 0 ≤ t.toInt) :
    factsAt q s' n t = factsAt q s n t := by
  have hneg : ¬ t.toInt < 0 := by omega
  unfold factsAt handleFacts
  simp only [hneg, if_false]
  split
  · rfl
  · exact h.factList_eq hs hs' hn h0 q

/-- A request that commits nothing in a namespace leaves its datoms and its counter. -/
theorem samePast_of_not_commit (hr : Sound s) (hi : InputBounded sha256 s i) (hn : n < 2 ^ 31)
    (hnext : getMeta s n metaTx = some next) (hnot : isCommit sha256 n s i = false) :
    (∀ tx, SamePast n tx s (step sha256 s i)) ∧ getMeta (step sha256 s i) n metaTx = some next := by
  obtain ⟨hsame, -⟩ | ⟨m, -, -, hm, hset, -⟩ | ⟨m, tx, fs, st, hc⟩ := sound_step_cases hr hi
  · rw [hsame]
    exact ⟨fun _ _ _ _ _ => Iff.rfl, hnext⟩
  · have hne : n ≠ m := by
      rintro rfl
      simp [nsExists, hnext] at hm
    refine ⟨fun _ x _ hx _ => hset.foreign x (hx ▸ hne), ?_⟩
    rw [hset.getMeta_foreign hr.ok hn hne (by decide)]
    exact hnext
  · have hne : n ≠ m := by
      rintro rfl
      rw [hc.isCommit] at hnot
      exact absurd hnot (by decide)
    refine ⟨fun _ x _ hx _ => hc.transacted.foreign x (hx ▸ hne), ?_⟩
    rw [hc.transacted.getMeta_foreign hr.ok hn hne (by decide)]
    exact hnext

/-- The latest facts are those as of the last transaction. -/
theorem factList_latest (hr : Sound s) (hn : n < 2 ^ 31) (hq : q.Faultless)
    (hnext : getMeta s n metaTx = some next) :
    (handleFactsAt q s n next).factList = (handleFactsAt q s n (next - 1)).factList := by
  obtain ⟨h1, h29⟩ := hr.tx_range n next hn hnext
  refine factList_congr hq fun x hx hns hsort => ?_
  have hd : x.1.IsDatom := by
    rcases (hr.ok.keys x hx).kind with ⟨-, h0⟩ | ⟨-, h0⟩ | hd
    · exact absurd h0 hsort
    · exact absurd h0 hsort
    · exact hd
  have htime := hr.times x hx hd next (hns ▸ hnext)
  unfold Considered
  rw [txBound_eq (by omega) (by omega), txBound_eq (by omega) (by omega)]
  omega

end Versions

namespace Server

variable {libs : Libs} {q : Oracle} {n : Nat} {many : List Int} {facts : List Fact}
  {label : Int} {log : List Completion} {σ τ : Server} {e : Event}

/-! ### What a completion tells -/

/-- The facts of a completion take a copy from one version of a store to the next. -/
def Tells (q : Oracle) (n : Nat) (many : List Int) (s : Store) (c : Completion) : Prop :=
  ∀ t t₀ : Int64, t.toInt = c.tx → t₀.toInt = c.tx - 1 →
    (factsAt q s n t).Perm (updateReplica many (factsAt q s n t₀) c.facts)

/--
The transactions an event commits in a namespace assert only, on attributes that are not
of the schema, and list their facts in key order.
-/
def Mirrorable (libs : Libs) (q : Oracle) (n : Nat) (σ : Server) (e : Event) : Prop :=
  ∀ c ∈ committed libs σ e, c.ns = n → (∀ f ∈ c.facts, f.retract = false ∧ dbInitialId ≤ f.a) ∧
    ∀ t₀ : Int64, t₀.toInt = c.tx - 1 →
      InKeyOrder libs.sha256 n (manySet q σ.store n (c.tx - 1)) (factsAt q σ.store n t₀) c.facts

/-- From a label on, the completions of a namespace tell the versions of the store apart. -/
structure Mirrored (libs : Libs) (q : Oracle) (n : Nat) (many : List Int) (facts : List Fact)
    (label next : Int) (log : List Completion) (σ : Server) : Prop where
  inv : DatomInv libs.sha256 σ.store
  counter : getMeta σ.store n metaTx = some next
  le : 1 ≤ label ∧ label ≤ next
  base : ∀ t₀ : Int64, t₀.toInt = label - 1 → factsAt q σ.store n t₀ = facts
  cards : ∀ tx, label - 1 ≤ tx → tx < next → manySet q σ.store n tx = many
  tells : ∀ c ∈ log, c.ns = n → label ≤ c.tx → c.tx < next ∧ Tells q n many σ.store c

theorem Tells.past {s s' : Store} {c : Completion} (h : Tells q n many s c) (hs : Sound s)
    (hs' : Sound s') (hn : n < 2 ^ 31) (h1 : 1 ≤ c.tx) (hpast : ∀ tx ≤ c.tx, SamePast n tx s s') :
    Tells q n many s' c := by
  intro t t₀ ht ht₀
  rw [(hpast t.toInt (by omega)).factsAt_eq hs hs' hn (by omega),
    (hpast t₀.toInt (by omega)).factsAt_eq hs hs' hn (by omega)]
  exact h t t₀ ht ht₀

/-- What is told stays true in a store that differs from the counter on only. -/
theorem Mirrored.keep {next : Int} {s' : Store}
    (h : Mirrored libs q n many facts label next log σ) (hn : n < 2 ^ 31) (hs' : Sound s')
    (hpast : ∀ tx < next, SamePast n tx σ.store s') :
    (∀ t₀ : Int64, t₀.toInt = label - 1 → factsAt q s' n t₀ = facts) ∧
    (∀ tx, label - 1 ≤ tx → tx < next → manySet q s' n tx = many) ∧
      ∀ c ∈ log, c.ns = n → label ≤ c.tx → c.tx < next ∧ Tells q n many s' c := by
  have hs := h.inv.toSound
  obtain ⟨hlabel, hnext⟩ := h.le
  refine ⟨fun t₀ ht₀ => ?_, fun tx hle hlt => ?_, fun c hc hcn hle => ?_⟩
  · rw [(hpast t₀.toInt (by omega)).factsAt_eq hs hs' hn (by omega)]
    exact h.base t₀ ht₀
  · rw [(hpast tx hlt).manySet_eq hs hs' hn (by omega)]
    exact h.cards tx hle hlt
  · obtain ⟨hlt, htells⟩ := h.tells c hc hcn hle
    exact ⟨hlt, htells.past hs hs' hn (by omega) fun tx htx => hpast tx (by omega)⟩

/-- A request that is no commit in the namespace adds no completion of it. -/
theorem Mirrored.step_other {next : Int} (h : Mirrored libs q n many facts label next log σ)
    (hn : n < 2 ^ 31) {i : Input} (hi : InputBounded libs.sha256 σ.store i)
    (hnot : isCommit libs.sha256 n σ.store i = false)
    (hstore : (σ.step libs e).store = Nstore.step libs.sha256 σ.store i)
    (hcommits : ∀ c ∈ committed libs σ e, c.ns ≠ n) :
    Mirrored libs q n many facts label next (log ++ committed libs σ e) (σ.step libs e) := by
  have hinv := datomInv_step h.inv hi
  obtain ⟨hpast, hcounter⟩ := samePast_of_not_commit h.inv.toSound hi hn h.counter hnot
  obtain ⟨hbase, hcards, htells⟩ := h.keep hn hinv.toSound fun tx _ => hpast tx
  rw [← hstore] at hinv hcounter hbase hcards htells
  refine ⟨hinv, hcounter, h.le, hbase, hcards, fun c hc hcn => ?_⟩
  rcases List.mem_append.mp hc with hc | hc
  · exact htells c hc hcn
  · exact absurd hcn (hcommits c hc)

/-- A commit in the namespace adds one, which tells its two versions apart. -/
theorem Mirrored.step_commit {next : Int} (h : Mirrored libs q n many facts label next log σ)
    (hn : n < 2 ^ 31) (hq : q.Faultless) {i : Input} (hi : InputBounded libs.sha256 σ.store i)
    {c : Completion} {arg : Option Json} (hcn : c.ns = n) (hreq : i.2 = .transact n arg)
    (hrep : reply libs.sha256 σ.store i = .response c.tx c.facts c.newIds)
    (hstore : (σ.step libs e).store = Nstore.step libs.sha256 σ.store i)
    (hcommits : committed libs σ e = [c]) (hmirror : Mirrorable libs q n σ e) :
    Mirrored libs q n many facts label (next + 1) (log ++ committed libs σ e)
      (σ.step libs e) := by
  have hinv := datomInv_step h.inv hi
  obtain ⟨vs, st, hc, hfacts⟩ := response_commits h.inv.toSound hi hreq hrep
  have hadds := hc.adds h.inv
  rw [hfacts] at hadds
  have htx : next = c.tx := Option.some.inj (h.counter.symm.trans hc.transacted.exists_before)
  have hpast : ∀ tx < next, SamePast n tx σ.store (Nstore.step libs.sha256 σ.store i) := by
    intro tx hlt x hd _ hxt
    exact hc.transacted.datoms x hd (by omega)
  obtain ⟨hbase, hcards, htells⟩ := h.keep hn hinv.toSound hpast
  obtain ⟨hplain, horder⟩ := hmirror c (hcommits ▸ List.mem_singleton_self c) hcn
  have hlabel := h.le
  -- the new version has the cardinalities of the one before
  have hmany : manySet q (Nstore.step libs.sha256 σ.store i) n (c.tx - 1) = many :=
    hcards (c.tx - 1) (by omega) (by omega)
  have hlast : manySet q (Nstore.step libs.sha256 σ.store i) n c.tx = many := by
    rw [hadds.manySet_eq fun f hf => (hplain f hf).2]
    exact hmany
  have hnew : Tells q n many (Nstore.step libs.sha256 σ.store i) c := by
    intro t t₀ ht ht₀
    obtain ⟨hfacts₀, hmany₀⟩ := hc.past h.inv ht₀ (q := q)
    have horder₀ := horder t₀ ht₀
    rw [← hmany₀, ← hfacts₀] at horder₀
    have hperm := (factsAt_replica_iff hadds hplain hq ht ht₀).mpr horder₀
    rw [hmany] at hperm
    exact hperm
  have hcounter : getMeta (Nstore.step libs.sha256 σ.store i) n metaTx = some (next + 1) := by
    rw [htx]
    exact hc.transacted.tx
  rw [← hstore] at hinv hcounter hbase hcards htells hlast hnew
  refine ⟨hinv, hcounter, ⟨hlabel.1, by omega⟩, hbase, fun tx hle hlt => ?_,
    fun c' hc' hcn' hle => ?_⟩
  · by_cases heq : tx = c.tx
    · rw [heq]
      exact hlast
    · exact hcards tx hle (by omega)
  · rw [hcommits] at hc'
    rcases List.mem_append.mp hc' with hc' | hc'
    · obtain ⟨hlt, ht⟩ := htells c' hc' hcn' hle
      exact ⟨by omega, ht⟩
    · rw [List.mem_singleton.mp hc']
      exact ⟨by omega, hnew⟩

/-- **What a step keeps while the transactions can be mirrored.** -/
theorem Mirrored.step {next : Int} (h : Mirrored libs q n many facts label next log σ)
    (hn : n < 2 ^ 31) (hq : q.Faultless) (he : EventBounded libs σ e)
    (hm : Mirrorable libs q n σ e) :
    ∃ next', Mirrored libs q n many facts label next' (log ++ committed libs σ e)
      (σ.step libs e) := by
  have hstore := store_step libs σ e
  obtain ⟨hin, hcom⟩ | ⟨o, w, -, hin, hcom⟩ := inputs_cases libs σ e
  · rw [hin] at hstore
    have hstore : (σ.step libs e).store = σ.store := hstore
    refine ⟨next, ?_, ?_, h.le, ?_, ?_, ?_⟩
    · rw [hstore]
      exact h.inv
    · rw [hstore]
      exact h.counter
    · rw [hstore]
      exact h.base
    · rw [hstore]
      exact h.cards
    · rw [hstore, hcom, List.append_nil]
      exact h.tells
  · have hi : InputBounded libs.sha256 σ.store (o, σ.writerRequest libs w) :=
      he _ (hin ▸ List.mem_singleton_self _)
    rw [hin] at hstore
    obtain ⟨hnone, hnot⟩ | ⟨arg, c, -, hreq, hrep, hone⟩ := transacted_cases libs o w
    · refine ⟨next, h.step_other hn hi (hnot n) hstore fun c hc => ?_⟩
      rw [hcom, hnone] at hc
      exact absurd hc List.not_mem_nil
    · rw [hone] at hcom
      by_cases hcn : c.ns = n
      · exact ⟨next + 1, h.step_commit hn hq hi hcn (hcn ▸ hreq) hrep hstore hcom hm⟩
      · refine ⟨next, h.step_other hn hi ?_ hstore fun c' hc' => ?_⟩
        · rw [isCommit_of_response hreq hrep]
          exact decide_eq_false hcn
        · rw [hcom] at hc'
          rw [List.mem_singleton.mp hc']
          exact hcn

/-- Where a copy begins: at an answer with the latest facts. -/
theorem mirrored_of_latest {first : Int} {t : Int64} (h : NumberedFrom n first log σ)
    (hinv : DatomInv libs.sha256 σ.store) (hn : n < 2 ^ 31) (hq : q.Faultless) (ht : t.toInt < 0)
    (hreply : handleFacts q σ.store n (some (.int64 t)) = .facts label facts) :
    Mirrored libs q n (manySet q σ.store n (label - 1)) facts label label log σ := by
  obtain ⟨hlabel, hat⟩ := handleFacts_latest hq ht hreply
  have h1 := (hinv.toSound.tx_range n label hn hlabel).1
  refine ⟨hinv, hlabel, ⟨h1, le_rfl⟩, fun t₀ ht₀ => ?_, fun tx hle hlt => ?_,
    fun c hc hcn hle => ?_⟩
  · unfold factsAt
    rw [handleFacts_of_nonneg hq _ n (by omega), ht₀, ← factList_latest hinv.toSound hn hq hlabel,
      hat]
    rfl
  · rw [show tx = label - 1 by omega]
  · exact absurd (h.lt_counter hlabel hc hcn) (not_lt.mpr hle)

private theorem run_mirrored (libs : Libs) {o : Oracle} {first : Int} (hn : n < 2 ^ 31)
    (hfirst : getMeta (dbOpen o []) n metaTx = some first) (hq : q.Faultless)
    {pre post : List Event}
    (hpre : Along (Server.step libs) (EventBounded libs) (init (dbOpen o [])) pre)
    (hpost : Along (Server.step libs) (fun σ e => EventBounded libs σ e ∧ Mirrorable libs q n σ e)
      (run (Server.step libs) (init (dbOpen o [])) pre) post)
    {t : Int64} (ht : t.toInt < 0)
    (hreply : handleFacts q (run (Server.step libs) (init (dbOpen o [])) pre).store n
      (some (.int64 t)) = .facts label facts) :
    ∃ next, Mirrored libs q n
      (manySet q (run (Server.step libs) (init (dbOpen o [])) pre).store n (label - 1)) facts label
      next (record (Server.step libs) (committed libs) (init (dbOpen o [])) (pre ++ post))
      (run (Server.step libs) (init (dbOpen o [])) (pre ++ post)) := by
  have hσ := run_numberedFrom libs (by omega) hfirst pre
  have hinv := (run_accounted (n := n) hpre).inv
  rw [run_append, record_append]
  refine hpost.invariant_record (fun log σ => ∃ next, Mirrored libs q n _ facts label next log σ)
    (fun _ _ _ h he => ?_) ⟨label, mirrored_of_latest hσ hinv hn hq ht hreply⟩
  obtain ⟨next, h⟩ := h
  exact h.step hn hq he.1 he.2

/-- The latest facts are those the last transaction has left. -/
theorem Mirrored.latest {next : Int} {t : Int64}
    (h : Mirrored libs q n many facts label next log σ) (hn : n < 2 ^ 31) (hq : q.Faultless) (ht : t.toInt < 0) :
    ∃ t' : Int64, t'.toInt = next - 1 ∧ factsAt q σ.store n t = factsAt q σ.store n t' := by
  have hle := h.le
  have hrange := h.inv.toSound.tx_range n next hn h.counter
  have hlast : (Int64.ofInt (next - 1)).toInt = next - 1 :=
    Int64.toInt_ofInt_of_le (by omega) (by omega)
  refine ⟨_, hlast, ?_⟩
  unfold factsAt
  rw [handleFacts_of_neg hq _ _ ht, handleFacts_of_nonneg hq _ _ (by omega), h.counter, hlast]
  exact factList_latest h.inv.toSound hn hq h.counter

/-! ### The copy -/

/-- A copy after a list of completions, told one after the other. -/
def copyAfter (many : List Int) (facts : List Fact) (cs : List Completion) : List Fact :=
  cs.foldl (fun copy c => updateReplica many copy c.facts) facts

private theorem copyAfter_concat (cs : List Completion) (c : Completion) :
    copyAfter many facts (cs ++ [c]) = updateReplica many (copyAfter many facts cs) c.facts :=
  List.foldl_concat ..

/-- Told without a gap, the completions take the copy from version to version. -/
theorem factsAt_copyAfter {s : Store} (h1 : 1 ≤ label)
    (hbase : ∀ t₀ : Int64, t₀.toInt = label - 1 → factsAt q s n t₀ = facts) :
    ∀ {cs : List Completion} {k : Nat}, cs.map (·.tx) = countedFrom label k →
      (∀ c ∈ cs, Tells q n many s c) → ∀ t : Int64, t.toInt = label - 1 + k →
        (factsAt q s n t).Perm (copyAfter many facts cs) := by
  intro cs
  induction cs using List.reverseRecOn with
  | nil =>
      intro k hk _ t ht
      have hk : k = 0 := by simpa [countedFrom] using (congrArg List.length hk).symm
      rw [hbase t (by omega)]
      exact List.Perm.refl _
  | append_singleton cs c ih =>
      intro k hk htells t ht
      obtain ⟨k, rfl⟩ : ∃ k', k = k' + 1 := by
        refine ⟨cs.length, ?_⟩
        have hlength := congrArg List.length hk
        simpa [countedFrom] using hlength.symm
      rw [countedFrom_succ, List.map_append] at hk
      obtain ⟨hk, hc⟩ := List.append_inj' hk rfl
      have hc : c.tx = label + k := List.singleton_inj.mp hc
      -- the version before this one
      have hlt := t.toInt_lt
      have ht₀ : (Int64.ofInt (label - 1 + k)).toInt = label - 1 + k :=
        Int64.toInt_ofInt_of_le (by omega) (by omega)
      have hcopy := ih hk (fun c hc => htells c (List.mem_append_left _ hc)) _ ht₀
      have htold := htells c (List.mem_append_right _ (List.mem_singleton_self c)) t
        (Int64.ofInt (label - 1 + k)) (by omega) (by omega)
      rw [copyAfter_concat]
      exact htold.trans (enterAll_perm hcopy)

/-- One assertion can be mirrored. -/
theorem inKeyOrder_singleton {sha256 : Bytes → Value} {before : List Fact} {f : Fact}
    (hf : f.a ∉ many) : InKeyOrder sha256 n many before [f] where
  one l g r hsplit _ _ g' hg' _ _ := by
    cases l with
    | nil => exact absurd hg' List.not_mem_nil
    | cons x l =>
        have hlength := congrArg List.length hsplit
        simp at hlength
  many g hg hm := by
    rw [List.mem_singleton.mp hg] at hm
    exact absurd hm hf

/-- A session asserts a value of an attribute without cardinality. -/
def assertRun : List Event :=
  [.receive 0 (ascii "t[[60,50,7,0]]\r"), .runWriter .calm, .postWriter, .runIo]

theorem mirrorable_of_idle (h : committed libs σ e = []) : Mirrorable libs q n σ e := by
  intro c hc
  rw [h] at hc
  exact absurd hc List.not_mem_nil

private theorem assertRun_mirrorable :
    Along (Server.step sampleLibs) (Mirrorable sampleLibs .calm 0)
      (run (Server.step sampleLibs) (init (dbOpen .calm [])) [.accept]) assertRun := by
  have hwrite : committed sampleLibs
      (run (Server.step sampleLibs) (init (dbOpen .calm [])) (exchangeRun.take 2))
      (.runWriter .calm) = [⟨0, 0, 1, [⟨60, 50, .int 7, 1, false⟩], []⟩] := by
    decide +kernel
  have hmany : (50 : Int) ∉ manySet .calm
      (run (Server.step sampleLibs) (init (dbOpen .calm [])) (exchangeRun.take 2)).store 0 0 := by
    decide +kernel
  refine ⟨mirrorable_of_idle rfl, ?_, mirrorable_of_idle rfl, mirrorable_of_idle rfl, trivial⟩
  intro c hc _
  have hc : c = ⟨0, 0, 1, [⟨60, 50, .int 7, 1, false⟩], []⟩ := by
    rw [← List.mem_singleton, ← hwrite]
    exact hc
  rw [hc]
  refine ⟨fun f hf => ?_, fun t₀ _ => inKeyOrder_singleton hmany⟩
  rw [List.mem_singleton.mp hf]
  decide

end Server

end Nstore
