/-
History is immutable.

A request adds datoms only at the transaction it is, and a transaction that is
answered for is one that has been committed.  So the keys an answer at `tx` looks
at are the same in every later store, and the answer, which depends on nothing
else, is too.
-/
import Nstore.Proofs.Frame
import Nstore.Proofs.Invariant

namespace Nstore

open Machine

/-! ### Along a run -/

section Runs

variable {sha256 : Bytes → Value} {s : Store} {n : Nat} {tx : Int}

/-- The transaction is one that the namespace has committed. -/
def Committing (n : Nat) (tx : Int) (s : Store) : Prop :=
  ∃ next, getMeta s n metaTx = some next ∧ tx < next

theorem samePast_step {i : Input} (hr : RepInv sha256 s) (hi : InputInRange sha256 s i)
    (hn : n < 2 ^ 31) (hc : Committing n tx s) :
    SamePast n tx s (step sha256 s i) ∧ Committing n tx (step sha256 s i) := by
  obtain ⟨next, hnext, hlt⟩ := hc
  rcases step_cases hr hi with ⟨h, -⟩ | ⟨m, -, -, hex, h, -⟩ | ⟨m, tx', fs, ids, arg, -, -, -, h⟩
  · rw [h]
    exact ⟨fun _ _ _ _ => Iff.rfl, next, hnext, hlt⟩
  · have hne : n ≠ m := by
      rintro rfl
      simp [nsExists, hnext] at hex
    refine ⟨fun x _ hx _ => h.foreign x (hx ▸ hne), next, ?_, hlt⟩
    rw [h.getMeta_foreign hr.ok hn hne (by decide)]
    exact hnext
  · by_cases hne : n = m
    · subst hne
      have heq : next = tx' := by simpa [hnext] using h.exists_before
      refine ⟨fun x hd _ ht => h.datoms x hd (by omega), tx' + 1, h.tx, by omega⟩
    · refine ⟨fun x _ hx _ => h.foreign x (hx ▸ hne), next, ?_, hlt⟩
      rw [h.getMeta_foreign hr.ok hn hne (by decide)]
      exact hnext

theorem samePast_run {is : List Input} (hr : RepInv sha256 s) (hn : n < 2 ^ 31)
    (hc : Committing n tx s) (h : Along (step sha256) (InputInRange sha256) s is) :
    SamePast n tx s (run (step sha256) s is) := by
  refine Along.relation (fun s => RepInv sha256 s ∧ Committing n tx s) (SamePast n tx)
    (fun _ _ _ _ _ => Iff.rfl) (fun s t u h1 h2 x hd hx ht => ?_) ?_ ?_ ⟨hr, hc⟩ h
  · exact (h2 x hd hx ht).trans (h1 x hd hx ht)
  · exact fun s i hs hi => ⟨repInv_step hs.1 hi, (samePast_step hs.1 hi hn hs.2).2⟩
  · exact fun s i hs hi => (samePast_step hs.1 hi hn hs.2).1

/-- A namespace that exists has facts. -/
theorem RepInv.exists_eatv (hr : RepInv sha256 s) (hn : n < 2 ^ 31) (hex : nsExists s n = true) :
    ∃ x ∈ s, x.1.ns = n ∧ x.1.sort = sortEATV := by
  obtain ⟨x, hx, hd, hsort⟩ := setupWrites_eatv n
  obtain ⟨y, -, rfl⟩ := mem_setupWrites.mp hx
  exact ⟨_, hr.based n hn hex _ hx hd, rfl, hsort⟩

theorem RepInv.setRange_ne_nil (hr : RepInv sha256 s) (hn : n < 2 ^ 31)
    (hex : nsExists s n = true) : mdbSetRange s (factsMinKey n) ≠ [] := by
  obtain ⟨x, hx, hxn, hxs⟩ := hr.exists_eatv hn hex
  exact mdbSetRange_ne_nil hr.ok hr.positive hn ⟨x, hx, inEATV_iff.mpr ⟨hxn, hxs⟩⟩

/--
**History is immutable.**  What is answered for a committed transaction is answered
again after any further requests, whatever became of them.
-/
theorem handleFacts_immutable {o q q' : Oracle} (ho : o.SetupFaultless) (hq : q.Faultless)
    (hq' : q'.Faultless) {is js : List Input}
    (his : Along (step sha256) (InputInRange sha256) (dbOpen o []) is)
    (hjs : Along (step sha256) (InputInRange sha256) (run (step sha256) (dbOpen o []) is) js)
    (hn : n < 2 ^ 31) {t : Int64} (h0 : 0 ≤ t.toInt)
    (ht : ∃ next, getMeta (run (step sha256) (dbOpen o []) is) n metaTx = some next ∧
      t.toInt < next)
    (hcard : CardinalitiesInt (run (step sha256) (dbOpen o []) is)) :
    handleFacts q' (run (step sha256) (run (step sha256) (dbOpen o []) is) js) n
        (some (.int64 t)) =
      handleFacts q (run (step sha256) (dbOpen o []) is) n (some (.int64 t)) := by
  have hr := repInv_run (repInv_dbOpen ho) his
  set s := run (step sha256) (dbOpen o []) is
  have hr' := repInv_run hr hjs
  have hpast := samePast_run hr hn ht hjs
  have hex : nsExists s n = true := by
    obtain ⟨next, hnext, -⟩ := ht
    simp [nsExists, hnext]
  -- the continuation cannot make the namespace go away
  have hex' : nsExists (run (step sha256) s js) n = true := by
    obtain ⟨-, next, hnext, -⟩ := Along.invariant
      (fun s => RepInv sha256 s ∧ Committing n t.toInt s)
      (fun s i hs hi => ⟨repInv_step hs.1 hi, (samePast_step hs.1 hi hn hs.2).2⟩) ⟨hr, ht⟩ hjs
    simp [nsExists, hnext]
  rw [handleFacts_of_nonneg hq _ n h0, handleFacts_of_nonneg hq' _ n h0]
  exact hpast.handleFactsAt_eq_of_faultless hr.sound hr'.sound hn h0 hq hq' (hcard.schemaInt n)
    (iff_of_false (hr'.setRange_ne_nil hn hex') (hr.setRange_ne_nil hn hex))

end Runs

theorem handleFacts_immutable_sample :
    handleFacts .calm
        (run (step .ofBytes) (run (step .ofBytes) (dbOpen .calm []) (sampleRun.take 1))
          (sampleRun.drop 1)) 0 (some (.int64 0)) =
      handleFacts .calm (run (step .ofBytes) (dbOpen .calm []) (sampleRun.take 1)) 0
        (some (.int64 0)) :=
  handleFacts_immutable Oracle.calm_faultless.setup Oracle.calm_faultless Oracle.calm_faultless
    (along_append.mp sampleRun_along).1 (along_append.mp sampleRun_along).2 (by norm_num)
    (by decide) ⟨1, by decide +kernel, by decide⟩ (by unfold CardinalitiesInt; decide +kernel)

end Nstore
