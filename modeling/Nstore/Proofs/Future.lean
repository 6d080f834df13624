/-
Facts of the future.

A facts request may name a transaction that is still to come.  Its number is doubled
to be compared with the stored ones, in `handle_facts` and once more in `query_a`, and
up to 2^62 that shows everything there is, as a request for the latest facts does.
From 2^62 on the doubled number is negative, and every datom is passed over.

None of this needs keys in range or an ordered store: what counts is that every datom
of a namespace was stored by a transaction below its counter, whatever failed on the
way and wherever the comparator put the key.
-/
import Nstore.Proofs.Equality
import Nstore.Proofs.Fresh
import Nstore.Proofs.Frame

namespace Nstore

open BatchScan Machine

/-! ### Doubled numbers -/

/-- Neither loop passes over the key at this transaction. -/
def Considered (tx : Int) (x : Entry) : Prop := x.1.t ≤ txBound tx

/-- The transaction a datom was stored by: `t` as an unsigned number, without its last bit. -/
def CustomKey.txNumber (k : CustomKey) : Int := k.t % 2 ^ 64 / 2

theorem txNumber_le {k : CustomKey} {tx : Int} {retract : Bool} (h0 : 0 ≤ tx)
    (hk : k.t = datomT tx retract) : k.txNumber ≤ tx := by
  unfold CustomKey.txNumber
  rw [hk, datomT]
  obtain ⟨-, -, q, hq⟩ := toInt64_cases (2 * tx)
  cases retract with
  | false =>
      simp only [Bool.false_eq_true, if_false]
      omega
  | true =>
      simp only [if_true]
      omega

/-- Which datoms are considered, the doubled numbers being cut to 64 bits. -/
theorem considered_iff {x : Entry} (hx : IsInt64 x.1.t) {tx : Int} (h0 : 0 ≤ tx)
    (h1 : tx < 2 ^ 63) : Considered tx x ↔
      (x.1.txNumber < 2 ^ 62 ∧ tx < 2 ^ 62 ∧ x.1.txNumber ≤ tx) ∨
        (2 ^ 62 ≤ x.1.txNumber ∧ (tx < 2 ^ 62 ∨ x.1.txNumber ≤ tx)) := by
  unfold Considered CustomKey.txNumber txBound
  unfold IsInt64 at hx
  obtain ⟨h2, h3, q, hq⟩ := toInt64_cases (2 * tx)
  by_cases hlt : tx < 2 ^ 62
  · have hq0 : q = 0 := by omega
    omega
  · have hq1 : q = 1 := by omega
    omega

/-! ### Every datom is below the counter -/

/-- Counters begin at one, and every datom is from a transaction below its counter. -/
structure Numbered (s : Store) : Prop where
  counters : ∀ n tx, n < 2 ^ 32 → getMeta s n metaTx = some tx → 1 ≤ tx
  datoms : ∀ q ∈ storedKeys s, q.sort ≠ 0 → q.ns < 2 ^ 32 ∧ IsInt64 q.t ∧
    ∃ tx, getMeta s q.ns metaTx = some tx ∧ q.txNumber < tx

private theorem setupWrites_zero_t : ∀ x ∈ setupWrites 0, x.1.t = 0 := by
  decide +kernel

section Setup

variable {o : Oracle} {s : Store} {n m : Nat} {tx : Int}

/-- A counter that `setup` writes begins at one. -/
theorem getMeta_putMetas_tx (hn : n < 2 ^ 32) (hm : m < 2 ^ 32) :
    ∀ {ms : List (Int × Int)} {i : Nat} {s : Store},
      (∀ x ∈ ms, (0 ≤ x.1 ∧ x.1 < 5) ∧ (x.1 = metaTx → x.2 = 1)) →
      getMeta (putMetas o m i ms s).2 n metaTx = some tx →
      tx = 1 ∨ getMeta s n metaTx = some tx := by
  intro ms
  induction ms with
  | nil => intro i s _ h; exact Or.inr h
  | cons x rest ih =>
      intro i s hms h
      obtain ⟨hx, hone⟩ := hms x List.mem_cons_self
      rw [putMetas] at h
      split at h
      · exact Or.inr h
      · rcases ih (fun y hy => hms y (List.mem_cons_of_mem _ hy)) h with h | h
        · exact Or.inl h
        · by_cases hsame : n = m ∧ x.1 = metaTx
          · obtain ⟨rfl, hid⟩ := hsame
            rw [hid, getMeta_putMeta, hone hid, Option.some.injEq] at h
            exact Or.inl h.symm
          · rw [getMeta_putMeta_ne hm hn hx (by decide) (by tauto)] at h
            exact Or.inr h

private theorem setupMetas_one (n : Nat) :
    ∀ x ∈ setupMetas n, (0 ≤ x.1 ∧ x.1 < 5) ∧ (x.1 = metaTx → x.2 = 1) := by
  intro x hx
  unfold setupMetas at hx
  split at hx <;> revert x <;> decide

private theorem getMeta_setup_tx (hn : n < 2 ^ 32) (hm : m < 2 ^ 32)
    (h : getMeta (setup o s m).2 n metaTx = some tx) : tx = 1 ∨ getMeta s n metaTx = some tx := by
  have hmetas : getMeta (putMetas o m 0 (setupMetas m) s).2 n metaTx = some tx →
      tx = 1 ∨ getMeta s n metaTx = some tx := getMeta_putMetas_tx hn hm (setupMetas_one m)
  unfold setup at h
  split at h
  · exact Or.inr h
  · split at h
    · rename_i s' hp
      rw [hp] at hmetas
      exact hmetas h
    · rename_i s' hp
      rw [hp] at hmetas
      split at h
      · exact hmetas h
      · rw [getMeta_putAll fun x hx => setupWrites_ne_meta hx] at h
        exact hmetas h

theorem numbered_setup (hs : Numbered s) (hn : n < 2 ^ 32) : Numbered (setup o s n).2 := by
  constructor
  · intro m tx hm h
    rcases getMeta_setup_tx hm hn h with rfl | h
    · exact le_rfl
    · exact hs.counters m tx hm h
  · intro q hq hsort
    rcases setup_counters hn hq with hq | hq | ⟨⟨x, hx, rfl⟩, htx, -⟩
    · obtain ⟨hlt, hint, tx, hget, hnum⟩ := hs.datoms q hq hsort
      refine ⟨hlt, hint, tx, ?_, hnum⟩
      rw [getMeta_setup_of_exists hlt hn (by decide) (by rw [nsExists, hget]; rfl)]
      exact hget
    · exact absurd hq hsort
    · obtain ⟨y, hy, rfl⟩ := mem_setupWrites.mp hx
      have ht : (setNs n y).1.t = datomT 0 false := setupWrites_zero_t y hy
      have hnum := txNumber_le le_rfl ht
      exact ⟨hn, ht ▸ isInt64_datomT 0 false, 1, htx, by omega⟩

end Setup

section Steps

variable {sha256 : Bytes → Value} {s : Store}

/-- A transaction stores datoms of its own number and counts on. -/
theorem numbered_transact {o : Oracle} {n : Nat} {fs : List Json} {tx : Int} {facts : List Fact}
    {newIds : List (Int × Int)} {s' : Store} (hs : Numbered s) (hn : n < 2 ^ 32)
    (htr : transact sha256 o s n fs = some (.response tx facts newIds, s')) : Numbered s' := by
  obtain ⟨tx', id, st, htx, hid, hloop, hs', hr⟩ := transact_cases htr
  obtain rfl : tx = tx' := (Reply.response.inj hr).1
  have hmap := transact_tempids hid htr
  have hpos := hs.counters n tx hn htx
  have hcount : getMeta s' n metaTx = some (tx + 1) := by
    rw [hs', (getMeta_commitStore n tx st hn).1]
  have hother : ∀ m, m < 2 ^ 32 → m ≠ n → getMeta s' m metaTx = getMeta s m metaTx := by
    intro m hm hne
    rw [hs', getMeta_commitStore_ne hm hn hne (by decide), getMeta_transactLoop hloop]
  constructor
  · intro m tx' hm h
    by_cases hne : m = n
    · subst hne
      rw [hcount, Option.some.injEq] at h
      omega
    · rw [hother m hm hne] at h
      exact hs.counters m tx' hm h
  · intro q hq hsort
    rcases hmap.stored q hq with hq | hq | ⟨w, -, sort, rfl⟩
    · obtain ⟨hlt, hint, tx', hget, hnum⟩ := hs.datoms q hq hsort
      by_cases hne : q.ns = n
      · rw [hne, htx, Option.some.injEq] at hget
        exact ⟨hlt, hint, tx + 1, hne ▸ hcount, by omega⟩
      · exact ⟨hlt, hint, tx', (hother q.ns hlt hne).trans hget, hnum⟩
    · exact absurd hq hsort
    · -- what the transaction stores is numbered by the counter it found
      have ht : (w.key (beginTxn o s n tx) sort).t = datomT tx w.retract := rfl
      have hnum := txNumber_le (by omega) ht
      exact ⟨hn, ht ▸ isInt64_datomT tx w.retract, tx + 1, hcount, by omega⟩

theorem numbered_step {i : Input} (hs : Numbered s) (hns : InputNs i) :
    Numbered (step sha256 s i) := by
  obtain ⟨o, r⟩ := i
  cases r with
  | newNamespace arg =>
      rcases step_newNamespace_cases sha256 o s arg with h | ⟨m, -, h⟩
      · rw [h]
        exact hs
      · rw [h]
        exact numbered_setup hs (toNamespace_lt _)
  | transact n arg =>
      rcases step_transact_cases sha256 o s n arg with ⟨h, -⟩ | ⟨fs, tx, facts, newIds, rfl, htr, -⟩
      · rw [h]
        exact hs
      · exact numbered_transact hs (hns n _ rfl) htr
  | facts n arg => exact hs

theorem numbered_run {o : Oracle} {is : List Input}
    (his : Along (step sha256) (fun _ i => InputNs i) (dbOpen o []) is) :
    Numbered (run (step sha256) (dbOpen o []) is) := by
  have hnil : Numbered [] :=
    ⟨fun n tx _ h => absurd h (by simp [getMeta, mdbGet, OrderedMap.find?]),
      fun q hq => absurd hq List.not_mem_nil⟩
  exact Along.invariant Numbered (fun _ _ hs hi => numbered_step hs hi)
    (numbered_setup hnil (by norm_num)) his

end Steps

/-! ### What the loops see -/

section Scans

variable {s : Store} {n : Nat} {tx tx' : Int}

/-- `query_a` answers alike at transactions at which it considers the same keys. -/
theorem queryA_congr {a : Int} (h : ∀ x ∈ s, x.1.ns = n → x.1.sort = sortAETV →
    (Considered tx x ↔ Considered tx' x)) : queryA s n tx a = queryA s n tx' a := by
  rw [queryA_scan, queryA_scan]
  congr 1
  refine List.filter_congr fun x hx => ?_
  have hin := List.all_eq_true.mp List.all_takeWhile x hx
  obtain ⟨-, hns, hsort⟩ := inAETV_iff.mp hin
  have hmem : x ∈ s := (List.dropWhile_sublist _).subset ((List.takeWhile_sublist _).subset hx)
  have hsame := h x hmem hns hsort
  unfold Considered at hsame
  simp only [gt_iff_lt, ← not_le, hsame]

theorem mem_walked {x : Entry} (hx : x ∈ walked s n) : x ∈ s ∧ x.1.ns = n ∧ x.1.sort = sortEATV := by
  have hin := List.all_eq_true.mp List.all_takeWhile x hx
  exact ⟨(List.dropWhile_sublist _).subset ((List.takeWhile_sublist _).subset hx),
    inEATV_iff.mp hin⟩

theorem manySet_congr (q : Oracle) (h : ∀ x ∈ s, x.1.ns = n → x.1.sort ≠ 0 →
    (Considered tx x ↔ Considered tx' x)) : manySet q s n tx = manySet q s n tx' := by
  unfold manySet queryOr
  rw [queryA_congr fun x hx hns hsort => h x hx hns (by rw [hsort]; decide)]

theorem factList_scan {q : Oracle} (hq : q.Faultless) :
    (handleFactsAt q s n tx).factList = factsOf (manySet q s n tx)
      ((walked s n).filter fun x => !decide (x.1.t > txBound tx)) := by
  rw [handleFactsAt_scan]
  split
  · rename_i h
    have hnil : walked s n = [] := by
      rw [walked, h.resolve_left (by simp [hq _]) |>.resolve_left (by simp [hq _])]
      rfl
    rw [hnil]
    rfl
  · rfl

/-- `handle_facts` lists the same facts at transactions at which the same keys are considered. -/
theorem factList_congr {q : Oracle} (hq : q.Faultless) (h : ∀ x ∈ s, x.1.ns = n → x.1.sort ≠ 0 →
    (Considered tx x ↔ Considered tx' x)) :
    (handleFactsAt q s n tx).factList = (handleFactsAt q s n tx').factList := by
  rw [factList_scan hq, factList_scan hq, manySet_congr q h]
  congr 1
  refine List.filter_congr fun x hx => ?_
  obtain ⟨hmem, hns, hsort⟩ := mem_walked hx
  have hsame := h x hmem hns (by rw [hsort]; decide)
  unfold Considered at hsame
  simp only [gt_iff_lt, ← not_le, hsame]

/-- Where every key is passed over, no fact is listed. -/
theorem factList_of_none {q : Oracle} (hq : q.Faultless)
    (h : ∀ x ∈ s, x.1.ns = n → x.1.sort ≠ 0 → ¬ Considered tx x) :
    (handleFactsAt q s n tx).factList = [] := by
  have hnil : ((walked s n).filter fun x => !decide (x.1.t > txBound tx)) = [] := by
    rw [List.filter_eq_nil_iff]
    intro x hx
    obtain ⟨hmem, hns, hsort⟩ := mem_walked hx
    have hnot := h x hmem hns (by rw [hsort]; decide)
    unfold Considered at hnot
    simpa using hnot
  rw [factList_scan hq, hnil]
  rfl

/--
Nothing is current in a namespace: after every assertion comes another key of its
entity and attribute, and of its payload if the attribute is of cardinality many.
-/
def NothingCurrent (many : List Int) (s : Store) (n : Nat) : Prop :=
  ∀ b ∈ batches groupOf (walked s n), ∀ l x r, b.2 = l ++ x :: r → x.1.t % 2 = 0 →
    ∃ y ∈ r, b.1.2 ∈ many → y.1.v = x.1.v

private theorem factsOf_walked_eq_nil {many : List Int} :
    factsOf many (walked s n) = [] ↔ NothingCurrent many s n := by
  rw [factsOf_eq, List.map_eq_nil_iff, factsKeys, List.flatMap_eq_nil_iff]
  refine forall₂_congr fun b _ => ?_
  rw [List.eq_nil_iff_forall_not_mem]
  constructor
  · intro hnil l x r hsplit heven
    by_contra hnot
    push Not at hnot
    exact hnil x ((mem_winners_iff_split _).mpr ⟨l, r, hsplit, by omega, hnot⟩)
  · intro h x hx
    obtain ⟨l, r, hsplit, heven, hr⟩ := (mem_winners_iff_split _).mp hx
    obtain ⟨y, hy, hv⟩ := h l x r hsplit (by omega)
    exact (hr y hy).2 (hv (hr y hy).1)

/-- Where every key is considered, what is listed is what is current. -/
theorem factList_of_all {q : Oracle} (hq : q.Faultless)
    (h : ∀ x ∈ s, x.1.ns = n → x.1.sort ≠ 0 → Considered tx x) :
    (handleFactsAt q s n tx).factList = [] ↔ NothingCurrent (manySet q s n tx) s n := by
  have hall : ((walked s n).filter fun x => !decide (x.1.t > txBound tx)) = walked s n := by
    rw [List.filter_eq_self]
    intro x hx
    obtain ⟨hmem, hns, hsort⟩ := mem_walked hx
    have hle := h x hmem hns (by rw [hsort]; decide)
    unfold Considered at hle
    simpa using hle
  rw [factList_scan hq, hall, factsOf_walked_eq_nil]

end Scans

/-! ### Asking for the future -/

section Future

variable {s : Store} {n : Nat} {tx : Int}

/-- A datom of the namespace, considered or not. -/
theorem Numbered.considered_iff (hs : Numbered s) (hget : getMeta s n metaTx = some tx) {u : Int}
    (h0 : 0 ≤ u) (h1 : u < 2 ^ 63) : ∀ x ∈ s, x.1.ns = n → x.1.sort ≠ 0 →
      x.1.txNumber < tx ∧ (Considered u x ↔
        (x.1.txNumber < 2 ^ 62 ∧ u < 2 ^ 62 ∧ x.1.txNumber ≤ u) ∨
          (2 ^ 62 ≤ x.1.txNumber ∧ (u < 2 ^ 62 ∨ x.1.txNumber ≤ u))) := by
  intro x hx hns hsort
  obtain ⟨-, hint, tx', hget', hlt⟩ := hs.datoms x.1 (mem_storedKeys hx) hsort
  rw [hns, hget, Option.some.injEq] at hget'
  subst hget'
  exact ⟨hlt, Nstore.considered_iff hint h0 h1⟩

/-- The future is now as long as doubling moves neither number, or both, out of 64 bits. -/
theorem Numbered.facts_future_iff (hs : Numbered s) (hn : n < 2 ^ 32)
    (hget : getMeta s n metaTx = some tx) (hint : IsInt64 tx) {q q' : Oracle} (hq : q.Faultless)
    (hq' : q'.Faultless) (hmany : ∀ u, manySet q' s n u = manySet q s n u) {t : Int64}
    (ht : tx - 1 ≤ t.toInt) :
    (handleFacts q s n (some (.int64 t))).factList =
        (handleFacts q' s n (some (.int64 (-1)))).factList ↔
      (t.toInt < 2 ^ 62 ↔ tx < 2 ^ 62) ∨ NothingCurrent (manySet q s n (2 ^ 62 - 1)) s n := by
  have hpos := hs.counters n tx hn hget
  have hlt : t.toInt < 2 ^ 63 := t.toInt_lt
  have htx : tx < 2 ^ 63 := hint.2
  have hat := hs.considered_iff hget (u := t.toInt) (by omega) hlt
  have hnow := hs.considered_iff hget (u := tx) (by omega) htx
  have hmax : ∀ x ∈ s, x.1.ns = n → x.1.sort ≠ 0 → Considered (2 ^ 62 - 1) x :=
    fun x hx hns hsort => by
      obtain ⟨-, h⟩ := hs.considered_iff hget (u := 2 ^ 62 - 1) (by norm_num) (by norm_num)
        x hx hns hsort
      rw [h]
      omega
  have hsame : (handleFactsAt q' s n tx).factList = (handleFactsAt q s n tx).factList := by
    rw [factList_scan hq', factList_scan hq, hmany]
  have hlatest : handleFacts q' s n (some (.int64 (-1))) = handleFactsAt q' s n tx := by
    rw [handleFacts_of_neg hq' s n (by decide), hget]
  rw [handleFacts_of_nonneg hq s n (by omega), hlatest, hsame]
  by_cases hside : t.toInt < 2 ^ 62 ↔ tx < 2 ^ 62
  · refine iff_of_true (factList_congr hq fun x hx hns hsort => ?_) (Or.inl hside)
    obtain ⟨hnum, h1⟩ := hat x hx hns hsort
    obtain ⟨-, h2⟩ := hnow x hx hns hsort
    rw [h1, h2]
    omega
  · rw [or_iff_right hside]
    by_cases hfar : t.toInt < 2 ^ 62
    · -- the counter has come to 2^62: now shows nothing, and one before it everything
      have hnone : (handleFactsAt q s n tx).factList = [] :=
        factList_of_none hq fun x hx hns hsort hc => by
          obtain ⟨hnum, h2⟩ := hnow x hx hns hsort
          rw [h2] at hc
          omega
      have hall : ∀ x ∈ s, x.1.ns = n → x.1.sort ≠ 0 → Considered t.toInt x :=
        fun x hx hns hsort => by
          obtain ⟨hnum, h1⟩ := hat x hx hns hsort
          rw [h1]
          omega
      rw [hnone, factList_of_all hq hall, manySet_congr q fun x hx hns hsort =>
        iff_of_true (hall x hx hns hsort) (hmax x hx hns hsort)]
    · -- the number asked for is cut: it shows nothing, and now shows everything
      have hnone : (handleFactsAt q s n t.toInt).factList = [] :=
        factList_of_none hq fun x hx hns hsort hc => by
          obtain ⟨hnum, h1⟩ := hat x hx hns hsort
          rw [h1] at hc
          omega
      have hall : ∀ x ∈ s, x.1.ns = n → x.1.sort ≠ 0 → Considered tx x :=
        fun x hx hns hsort => by
          obtain ⟨hnum, h2⟩ := hnow x hx hns hsort
          rw [h2]
          omega
      rw [hnone, eq_comm, factList_of_all hq hall, manySet_congr q fun x hx hns hsort =>
        iff_of_true (hall x hx hns hsort) (hmax x hx hns hsort)]

/-- What is considered grows with the number asked for, unless doubling cuts the greater only. -/
theorem Numbered.considered_mono_iff (hs : Numbered s) (hget : getMeta s n metaTx = some tx)
    {t t' : Int64} (h0 : 0 ≤ t.toInt) (hle : t.toInt ≤ t'.toInt) :
    (∀ x ∈ s, x.1.ns = n → x.1.sort ≠ 0 → Considered t.toInt x → Considered t'.toInt x) ↔
      t'.toInt < 2 ^ 62 ∨ 2 ^ 62 ≤ t.toInt ∨ ∀ x ∈ s, x.1.ns = n → x.1.sort ≠ 0 →
        t.toInt < x.1.txNumber ∧ x.1.txNumber ≤ t'.toInt := by
  have hlt' : t'.toInt < 2 ^ 63 := t'.toInt_lt
  have hat := hs.considered_iff hget h0 (by omega)
  have hat' := hs.considered_iff hget (u := t'.toInt) (by omega) hlt'
  by_cases hcut : t'.toInt < 2 ^ 62 ∨ 2 ^ 62 ≤ t.toInt
  · refine iff_of_true (fun x hx hns hsort => ?_) (or_assoc.mp (Or.inl hcut))
    rw [(hat x hx hns hsort).2, (hat' x hx hns hsort).2]
    omega
  · rw [← or_assoc, or_iff_right hcut]
    refine forall₄_congr fun x hx hns hsort => ?_
    rw [(hat x hx hns hsort).2, (hat' x hx hns hsort).2]
    omega

end Future

end Nstore
