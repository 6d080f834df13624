/-
Reading the latest facts again.

A facts request for the latest facts is labelled with the transaction counter, which
is the number the next transaction will get and not the last that is included.  Asked
for under its label, the answer is the same as long as that next transaction has not
stored anything: what is committed after it has a greater number.
-/
import Nstore.Proofs.Frame

namespace Nstore

open Machine

/-! ### Transactions that store nothing -/

/-- An element that stores a fact, if its transaction commits: other values are skipped. -/
def Json.StoresFact : Json → Prop
  | .array [_, _, .int64 _, _] => True
  | .array [_, _, .string _, _] => True
  | _ => False

private theorem readElement_skips {sha256 : Bytes → Value} {eRef : List Int} {ids ids' : Ids}
    {v : Json} {w : Option Write} (hv : ¬ v.StoresFact)
    (hr : readElement sha256 eRef ids v = some (ids', w)) : w = none := by
  unfold readElement at hr
  split at hr
  · rename_i e a jv jr
    rw [Option.map_eq_some_iff] at hr
    obtain ⟨⟨e', ids₁⟩, -, hr⟩ := hr
    cases jv with
    | int64 x => exact absurd trivial hv
    | string str => exact absurd trivial hv
    | _ =>
        simp only [readValue, Prod.mk.injEq] at hr
        exact hr.2.symm
  · exact absurd hr (by simp)

private theorem transactLoop_skips {sha256 : Bytes → Value} {o : Oracle} {txn : Txn} :
    ∀ {vs : List Json} {i : Nat} {st st' : TxnState}, (∀ v ∈ vs, ¬ v.StoresFact) →
      transactLoop sha256 o txn i st vs = some st' → st'.store = st.store := by
  intro vs
  induction vs with
  | nil =>
      intro i st st' _ h
      rw [transactLoop, Option.some.injEq] at h
      rw [h]
  | cons v rest ih =>
      intro i st st' hvs h
      rw [transactLoop, Option.bind_eq_some_iff] at h
      obtain ⟨st₁, h1, h2⟩ := h
      rw [ih (fun x hx => hvs x (List.mem_cons_of_mem _ hx)) h2]
      obtain ⟨ids, ⟨-, rfl⟩ | ⟨w, hr, -⟩⟩ := transactFact_cases h1
      · rfl
      · exact absurd (readElement_skips (hvs v List.mem_cons_self) hr) (by simp)

/-- The request commits the transaction of a number on the namespace, and stores facts with it. -/
def StoresAt (sha256 : Bytes → Value) (n : Nat) (tx : Int) (s : Store) (i : Input) : Prop :=
  isCommit sha256 n s i = true ∧ getMeta s n metaTx = some tx ∧
    ∃ fs, i.2 = .transact n (some (.array fs)) ∧ ∃ v ∈ fs, v.StoresFact

/-! ### What a cursor finds -/

section Steps

variable {sha256 : Bytes → Value} {s : Store} {i : Input} {n : Nat} {tx : Int}

/-- The cursor of a facts request finds a fact of the namespace, or a key of a greater one. -/
theorem setRange_ne_nil_iff (hr : Sound s) (hn : n < 2 ^ 31) :
    mdbSetRange s (factsMinKey n) ≠ [] ↔
      (∃ x ∈ s, x.1.ns = n ∧ x.1.sort = sortEATV) ∨
        ∃ m, n < m ∧ m < 2 ^ 31 ∧ nsExists s m = true := by
  have hseek : mdbSetRange s (factsMinKey n) =
      s.filter fun x => (factsMinKey n).coords ≤ x.1.coords :=
    OrderedMap.seek_eq_filter compare_agrees (factsMinKey_fits hn) hr.ok.fits
  constructor
  · intro hne
    obtain ⟨x, hx⟩ := List.exists_mem_of_ne_nil _ hne
    rw [hseek, List.mem_filter] at hx
    obtain ⟨hxs, hle⟩ := hx
    have hle : (factsMinKey n).coords ≤ x.1.coords := by simpa using hle
    have hkey := hr.ok.keys x hxs
    rw [coords_factsMinKey, ← not_lt] at hle
    by_cases hns : x.1.ns = n
    · refine Or.inl ⟨x, hxs, hns, ?_⟩
      rcases hkey.kind with ⟨ht, -⟩ | ⟨ht, -⟩ | hd
      · simp only [CustomKey.coords, ht, hns, List.cons_lt_cons_iff] at hle
        exact absurd (Or.inr ⟨trivial, Or.inl (by decide)⟩) hle
      · simp only [CustomKey.coords, ht, hns, List.cons_lt_cons_iff] at hle
        exact absurd (Or.inr ⟨trivial, Or.inl (by decide)⟩) hle
      · rcases hd.2 with h | h
        · exact h
        · rw [coords_AETV hd h, hns] at hle
          simp only [List.cons_lt_cons_iff] at hle
          exact absurd (Or.inr ⟨trivial, Or.inr ⟨trivial, Or.inl (by decide)⟩⟩) hle
    · have hgt : n < x.1.ns := by
        by_contra hc
        have hlt : (x.1.ns : Int) < n := by omega
        simp only [CustomKey.coords, List.cons_lt_cons_iff] at hle
        exact hle (Or.inl hlt)
      exact Or.inr ⟨x.1.ns, hgt, hkey.ns_lt, hr.known x hxs (Or.inr (by omega))⟩
  · rintro (⟨x, hx, hxn, hxs⟩ | ⟨m, hm, hm31, hex⟩)
    · exact mdbSetRange_ne_nil hr.ok hr.positive hn ⟨x, hx, inEATV_iff.mpr ⟨hxn, hxs⟩⟩
    · obtain ⟨t, ht⟩ := Option.isSome_iff_exists.mp hex
      obtain ⟨x, hx, hxn, -⟩ := (getMeta_eq_some hr.ok hm31 (by decide)).mp ht
      refine List.ne_nil_of_mem (a := x) ?_
      rw [hseek, List.mem_filter]
      refine ⟨hx, ?_⟩
      simp only [decide_eq_true_eq]
      rw [coords_factsMinKey, ← not_lt, CustomKey.coords, hxn, List.cons_lt_cons_iff]
      omega

theorem setRange_ne_nil_step (hr : Sound s) (hi : InputBounded sha256 s i) (hn : n < 2 ^ 31)
    (hne : mdbSetRange s (factsMinKey n) ≠ []) :
    mdbSetRange (step sha256 s i) (factsMinKey n) ≠ [] := by
  rw [setRange_ne_nil_iff hr hn] at hne
  rw [setRange_ne_nil_iff (sound_step hr hi) hn]
  rcases hne with ⟨x, hx, hxn, hxs⟩ | ⟨m, hm, hm31, hex⟩
  · have hd := isDatom_of_sort (hr.ok.keys x hx) (Or.inl hxs)
    exact Or.inl ⟨x, mem_step_of_datom hr hi hx hd, hxn, hxs⟩
  · exact Or.inr ⟨m, hm, hm31, nsExists_step hr hi hm31 hex⟩

/-! ### The label stays true while nothing is stored under it -/

/-- A store in which the number is not above the next one of the namespace, which is readable. -/
structure Labelled (n : Nat) (tx : Int) (s : Store) : Prop where
  sound : Sound s
  next : ∃ t, getMeta s n metaTx = some t ∧ tx ≤ t
  readable : mdbSetRange s (factsMinKey n) ≠ []

theorem Labelled.step (h : Labelled n tx s) (hn : n < 2 ^ 31) (hi : InputBounded sha256 s i)
    (hnot : ¬ StoresAt sha256 n tx s i) :
    Labelled n tx (Nstore.step sha256 s i) ∧ SamePast n tx s (Nstore.step sha256 s i) := by
  obtain ⟨hr, ⟨next, hnext, hle⟩, hreadable⟩ := h
  have hr' := sound_step hr hi
  have hreadable' := setRange_ne_nil_step hr hi hn hreadable
  rcases sound_step_cases hr hi with ⟨h, -⟩ | ⟨m, -, -, hm, h, -⟩ |
    ⟨m, t, fs, st, hc⟩
  · rw [h] at hr' hreadable' ⊢
    exact ⟨⟨hr, ⟨next, hnext, hle⟩, hreadable⟩, fun _ _ _ _ => Iff.rfl⟩
  · have hne : n ≠ m := by
      rintro rfl
      simp [nsExists, hnext] at hm
    refine ⟨⟨hr', ⟨next, ?_, hle⟩, hreadable'⟩, fun x _ hx _ => h.foreign x (hx ▸ hne)⟩
    rw [h.getMeta_foreign hr.ok hn hne (by decide)]
    exact hnext
  · have h := hc.transacted
    by_cases hne : n = m
    · subst hne
      have ht : next = t := Option.some.inj (hnext.symm.trans h.exists_before)
      subst ht
      refine ⟨⟨hr', ⟨next + 1, h.tx, by omega⟩, hreadable'⟩, fun x hd hx ht => ?_⟩
      by_cases hlt : tx < next
      · exact h.datoms x hd (by omega)
      · -- the transaction of that number: every element of it was skipped
        have heq : tx = next := by omega
        have hskips : ∀ v ∈ fs, ¬ v.StoresFact := by
          intro v hv hstores
          exact hnot ⟨hc.isCommit, heq ▸ hnext, fs, hc.request, v, hv, hstores⟩
        obtain ⟨id, -, hloop⟩ := hc.loop
        have hstore : st.store = s := transactLoop_skips hskips hloop
        rw [hc.store, mem_commitStore (hstore ▸ hr.ok) hn fun hc => not_isDatom_of_meta hc hd, hstore]
    · refine ⟨⟨hr', ⟨next, ?_, hle⟩, hreadable'⟩, fun x _ hx _ => h.foreign x (hx ▸ hne)⟩
      rw [h.getMeta_foreign hr.ok hn hne (by decide)]
      exact hnext

/-- A request in range that stores nothing under the label. -/
def KeepsLabel (sha256 : Bytes → Value) (n : Nat) (tx : Int) (s : Store) (i : Input) : Prop :=
  InputBounded sha256 s i ∧ ¬ StoresAt sha256 n tx s i

theorem Labelled.run {js : List Input} (h : Labelled n tx s) (hn : n < 2 ^ 31)
    (hjs : Along (Nstore.step sha256) (KeepsLabel sha256 n tx) s js) :
    Labelled n tx (run (Nstore.step sha256) s js) ∧
      SamePast n tx s (run (Nstore.step sha256) s js) := by
  have hinv : ∀ s i, Labelled n tx s → KeepsLabel sha256 n tx s i →
      Labelled n tx (Nstore.step sha256 s i) := fun s i hs hi => (hs.step hn hi.1 hi.2).1
  refine ⟨Along.invariant (Labelled n tx) hinv h hjs, ?_⟩
  refine Along.relation (Labelled n tx) (SamePast n tx) (fun _ _ _ _ _ => Iff.rfl)
    (fun s t u h1 h2 x hd hx ht => ?_) hinv (fun s i hs hi => (hs.step hn hi.1 hi.2).2) h hjs
  exact (h2 x hd hx ht).trans (h1 x hd hx ht)

end Steps

/-! ### Reading again -/

section Latest

variable {sha256 : Bytes → Value} {s : Store} {n : Nat}

/-- A reply to a request for the latest facts is labelled with the counter. -/
theorem handleFacts_latest {q : Oracle} (hq : q.Faultless) {t : Int64} (ht : t.toInt < 0) {tx : Int}
    {fs : List Fact} (h : handleFacts q s n (some (.int64 t)) = .facts tx fs) :
    getMeta s n metaTx = some tx ∧ handleFactsAt q s n tx = .facts tx fs := by
  rw [handleFacts_of_neg hq s n ht] at h
  cases hget : getMeta s n metaTx with
  | none => simp [hget] at h
  | some next =>
      simp only [hget] at h
      have htx : next = tx := by
        unfold handleFactsAt at h
        simp only [hq _, Bool.false_eq_true, if_false] at h
        split at h
        · exact absurd h (by simp)
        · exact (Reply.facts.inj h).1
      rw [htx] at h ⊢
      exact ⟨rfl, h⟩

/--
**Repeatable snapshots.**  A reply to a request for the latest facts, labelled `tx`, is
given again for `tx` after any further requests in range, whatever became of them, as
long as no transaction numbered `tx` has stored facts in the namespace.
-/
theorem handleFacts_repeatable {o q q' : Oracle} (hq : q.Faultless) (hq' : q'.Faultless)
    {is js : List Input} (his : Along (step sha256) (InputBounded sha256) (dbOpen o []) is)
    (hn : n < 2 ^ 31) (hcard : SchemaInt (run (step sha256) (dbOpen o []) is) n dbCardinality)
    {t r : Int64} (ht : t.toInt < 0) {tx : Int} {fs : List Fact}
    (hreply : handleFacts q (run (step sha256) (dbOpen o []) is) n (some (.int64 t)) = .facts tx fs)
    (hjs : Along (step sha256) (KeepsLabel sha256 n tx) (run (step sha256) (dbOpen o []) is) js)
    (hr : r.toInt = tx) :
    handleFacts q' (run (step sha256) (run (step sha256) (dbOpen o []) is) js) n
      (some (.int64 r)) = .facts tx fs := by
  set s := run (step sha256) (dbOpen o []) is
  have hsound : Sound s := sound_run (sound_dbOpen o) his
  obtain ⟨hget, hat⟩ := handleFacts_latest hq ht hreply
  have h0 : 0 ≤ tx := by have := (hsound.tx_range n tx hn hget).1; omega
  have hreadable : mdbSetRange s (factsMinKey n) ≠ [] := by
    intro hnil
    rw [handleFactsAt_eq_ite q hsound.ok hsound.positive hn, if_pos (Or.inr (Or.inr hnil))] at hat
    exact absurd hat (by simp)
  obtain ⟨hlab, hpast⟩ := Labelled.run ⟨hsound, ⟨tx, hget, le_refl tx⟩, hreadable⟩ hn hjs
  rw [handleFacts_of_nonneg hq' _ n (by omega), hr, hpast.handleFactsAt_eq_of_faultless hsound hlab.sound hn h0 hq hq' hcard
    (iff_of_false hlab.readable hreadable)]
  exact hat

end Latest

/-- A transaction all of whose elements are skipped. -/
def skippedRequest : Input :=
  (.calm, .transact 0 (some (.array [.array [.int64 60, .int64 50, .null, .int64 0]])))

private theorem skippedRequest_keepsLabel :
    KeepsLabel .ofBytes 0 1 (dbOpen .calm []) skippedRequest := by
  have hget : getMeta (step .ofBytes (dbOpen .calm []) skippedRequest) 0 metaTx = some 2 ∧
      getMeta (step .ofBytes (dbOpen .calm []) skippedRequest) 0 metaId = some 11 := by
    decide +kernel
  refine ⟨⟨by show 0 < 2 ^ 31; norm_num, fun fs hfs v hv => ?_, fun x hx => ?_, fun x hx => ?_⟩, ?_⟩
  · cases hfs
    rw [List.mem_singleton.mp hv]
    decide
  · rw [hget.1, Option.some.injEq] at hx
    omega
  · rw [hget.2, Option.some.injEq] at hx
    omega
  · rintro ⟨-, -, fs, hfs, v, hv, hstores⟩
    cases hfs
    rw [List.mem_singleton.mp hv] at hstores
    exact hstores

theorem handleFacts_repeatable_skipped :
    handleFacts .calm (step .ofBytes (dbOpen .calm []) skippedRequest) 0 (some (.int64 1)) =
      .facts 1 (handleFacts .calm (dbOpen .calm []) 0 (some (.int64 (-1)))).factList := by
  have his : Along (step .ofBytes) (InputBounded .ofBytes) (dbOpen .calm []) [] := trivial
  have hjs : Along (step .ofBytes) (KeepsLabel .ofBytes 0 1)
      (run (step .ofBytes) (dbOpen .calm []) []) [skippedRequest] :=
    ⟨skippedRequest_keepsLabel, trivial⟩
  have hcard : SchemaInt (run (step .ofBytes) (dbOpen .calm []) []) 0 dbCardinality := by
    unfold SchemaInt
    decide +kernel
  have hreply : handleFacts .calm (run (step .ofBytes) (dbOpen .calm []) []) 0
      (some (.int64 (-1))) =
        .facts 1 (handleFacts .calm (dbOpen .calm []) 0 (some (.int64 (-1)))).factList := by
    decide +kernel
  exact handleFacts_repeatable Oracle.calm_faultless Oracle.calm_faultless his (by norm_num) hcard
    (by decide) hreply hjs (by decide)

/-- The first transaction of a database is stored under the label of its first answer. -/
theorem handleFacts_label_reused :
    let s := dbOpen .calm []
    let s' := step .ofBytes s
      (.calm, .transact 0 (some (.array [.array [.int64 60, .int64 50, .int64 7, .int64 0]])))
    let latest := handleFacts .calm s 0 (some (.int64 (-1)))
    let again := handleFacts .calm s' 0 (some (.int64 1))
    latest = .facts 1 latest.factList ∧ again = .facts 1 again.factList ∧
      ⟨60, 50, .int 7, 1, false⟩ ∉ latest.factList ∧
      ⟨60, 50, .int 7, 1, false⟩ ∈ again.factList := by
  decide +kernel

end Nstore
