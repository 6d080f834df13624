/-
Namespaces are kept apart.

A request changes keys of its own namespace only, also where it fails half-way or
copies a key of a neighbour out of the store: every key it deletes or puts carries
its own namespace.  An answer depends on the datoms of its namespace, and up to its
transaction only, so what is reported about another namespace is the same before
and after.
-/
import Nstore.Proofs.Sound

namespace Nstore

open Machine

/-! ### The visible keys of two stores -/

/-- Two stores hold the same datoms of a namespace up to a transaction. -/
def SamePast (n : Nat) (tx : Int) (s s' : Store) : Prop :=
  ∀ x : Entry, x.1.IsDatom → x.1.ns = n → x.1.t ≤ 2 * tx + 1 → (x ∈ s' ↔ x ∈ s)

theorem txBound_le {tx : Int} (h0 : 0 ≤ tx) : txBound tx ≤ 2 * tx + 1 := by
  unfold txBound
  obtain ⟨_, _, q, _⟩ := toInt64_cases (2 * tx)
  omega

section Visible

variable {s s' : Store} {n : Nat} {tx : Int}

theorem SamePast.visible (h : SamePast n tx s s') (hs : StoreOk s) (hs' : StoreOk s')
    (h0 : 0 ≤ tx) : visible s' n (txBound tx) = visible s n (txBound tx) := by
  have hle := txBound_le h0
  refine ((hs'.filter _).filter _).ext ((hs.filter _).filter _) fun x => ?_
  show x ∈ Nstore.visible s' n _ ↔ x ∈ Nstore.visible s n _
  rw [mem_visible, mem_visible]
  constructor
  · rintro ⟨hx, hn, hsort, ht⟩
    exact ⟨(h x (isDatom_of_sort (hs'.keys x hx) (Or.inl hsort)) hn (by omega)).mp hx, hn, hsort, ht⟩
  · rintro ⟨hx, hn, hsort, ht⟩
    exact ⟨(h x (isDatom_of_sort (hs.keys x hx) (Or.inl hsort)) hn (by omega)).mpr hx, hn, hsort, ht⟩

theorem SamePast.visibleA (h : SamePast n tx s s') (hs : StoreOk s) (hs' : StoreOk s')
    (h0 : 0 ≤ tx) (a : Int) : visibleA s' n a (txBound tx) = visibleA s n a (txBound tx) := by
  have hle := txBound_le h0
  refine ((hs'.filter _).filter _).ext ((hs.filter _).filter _) fun x => ?_
  show x ∈ Nstore.visibleA s' n a _ ↔ x ∈ Nstore.visibleA s n a _
  rw [mem_visibleA, mem_visibleA]
  constructor
  · rintro ⟨hx, ha, hn, hsort, ht⟩
    exact ⟨(h x (isDatom_of_sort (hs'.keys x hx) (Or.inr hsort)) hn (by omega)).mp hx, ha, hn, hsort, ht⟩
  · rintro ⟨hx, ha, hn, hsort, ht⟩
    exact ⟨(h x (isDatom_of_sort (hs.keys x hx) (Or.inr hsort)) hn (by omega)).mpr hx, ha, hn, hsort, ht⟩

private theorem factsOf_congr {many many' : List Int} (h : ∀ a, a ∈ many ↔ a ∈ many')
    (vis : List Entry) :
    factsOf many vis = factsOf many' vis := by
  have : factsTake many = factsTake many' := by
    funext current x
    simp only [factsTake, h]
  unfold factsOf
  rw [this]

/-- The facts a reply lists. -/
def Reply.factList : Reply → List Fact
  | .facts _ fs => fs
  | _ => []

private theorem visible_of_setRange_nil (hs : StoreOk s) (hpos : Positive s) (hn : n < 2 ^ 31)
    (hnil : mdbSetRange s (factsMinKey n) = []) (bound : Int) : Nstore.visible s n bound = [] := by
  have hreg := takeWhile_EATV hs hpos hn
  rw [hnil, List.takeWhile_nil] at hreg
  rw [Nstore.visible, ← hreg]
  rfl

theorem factList_handleFactsAt (o : Oracle) (hs : StoreOk s) (hpos : Positive s) (hn : n < 2 ^ 31) :
    (handleFactsAt o s n tx).factList =
      if o.fails .cursorOpen = true ∨ o.fails .setRange = true then []
      else factsOf (manySet o s n tx) (Nstore.visible s n (txBound tx)) := by
  rw [handleFactsAt_eq_ite o hs hpos hn]
  by_cases hfail : o.fails .cursorOpen = true ∨ o.fails .setRange = true
  · rw [if_pos hfail, if_pos (by tauto)]
    rfl
  · rw [if_neg hfail]
    by_cases hnil : mdbSetRange s (factsMinKey n) = []
    · rw [if_pos (by tauto), visible_of_setRange_nil hs hpos hn hnil]
      rfl
    · rw [if_neg (by tauto)]
      rfl

variable (h : SamePast n tx s s') (hs : Sound s) (hs' : Sound s') (hn : n < 2 ^ 31) (h0 : 0 ≤ tx)

include h hs hs' hn h0

theorem SamePast.queryA_eq {a : Int} :
    queryA s' n tx a = queryA s n tx a := by
  rw [Nstore.queryA_eq hs'.ok hs'.positive hn, Nstore.queryA_eq hs.ok hs.positive hn,
    h.visibleA hs.ok hs'.ok h0]

theorem SamePast.manySet_eq (o : Oracle) : manySet o s' n tx = manySet o s n tx := by
  unfold manySet queryOr
  rw [h.queryA_eq hs hs' hn h0]

/-- The facts listed depend on the datoms up to the transaction only. -/
theorem SamePast.factList_eq (o : Oracle) :
    (handleFactsAt o s' n tx).factList = (handleFactsAt o s n tx).factList := by
  rw [factList_handleFactsAt o hs'.ok hs'.positive hn, factList_handleFactsAt o hs.ok hs.positive hn,
    h.manySet_eq hs hs' hn h0, h.visible hs.ok hs'.ok h0]

/-- So does the reply, but for whether the cursor finds a key. -/
theorem SamePast.handleFactsAt_eq (o : Oracle)
    (hrange : mdbSetRange s' (factsMinKey n) = [] ↔ mdbSetRange s (factsMinKey n) = []) :
    handleFactsAt o s' n tx = handleFactsAt o s n tx := by
  rw [handleFactsAt_eq_ite o hs'.ok hs'.positive hn, handleFactsAt_eq_ite o hs.ok hs.positive hn,
    h.manySet_eq hs hs' hn h0, h.visible hs.ok hs'.ok h0]
  simp only [hrange]

omit h hs' h0 in
/-- Where no cardinality is a string, nothing unset is read. -/
theorem handleFactsAt_congr_oracle {o o' : Oracle} (ho : o.Faultless) (ho' : o'.Faultless)
    (hcard : SchemaInt s n dbCardinality) :
    handleFactsAt o' s n tx = handleFactsAt o s n tx := by
  have hmany : ∀ a, a ∈ manySet o' s n tx ↔ a ∈ manySet o s n tx := by
    intro a
    rw [mem_manySet ho hs.ok hs.positive hcard hn, ← mem_manySet ho' hs.ok hs.positive hcard hn]
  rw [handleFactsAt_eq_ite o' hs.ok hs.positive hn, handleFactsAt_eq_ite o hs.ok hs.positive hn,
    factsOf_congr hmany]
  simp only [ho _, ho' _]

theorem SamePast.handleFactsAt_eq_of_faultless {o o' : Oracle} (ho : o.Faultless)
    (ho' : o'.Faultless) (hcard : SchemaInt s n dbCardinality)
    (hrange : mdbSetRange s' (factsMinKey n) = [] ↔ mdbSetRange s (factsMinKey n) = []) :
    handleFactsAt o' s' n tx = handleFactsAt o s n tx :=
  (h.handleFactsAt_eq hs hs' hn h0 o' hrange).trans (handleFactsAt_congr_oracle hs hn ho ho' hcard)

end Visible

/-! ### What a request leaves alone -/

section Foreign

variable {sha256 : Bytes → Value} {s : Store} {i : Input} {n : Nat}

/-- Every key of a namespace the request is not on is there before and after. -/
theorem mem_step_foreign (hr : Sound s) (hi : InputBounded sha256 s i) (hon : i.2.on n = false)
    (x : Entry) (hx : x.1.ns = n) : x ∈ step sha256 s i ↔ x ∈ s := by
  rcases sound_step_cases hr hi with ⟨h, -⟩ | ⟨m, -, hm, -, h, -⟩ |
    ⟨m, tx, fs, st, h⟩
  · rw [h]
  · have hne : n ≠ m := by
      rintro rfl
      rw [hm] at hon
      exact absurd hon (by simp)
    exact h.foreign x (hx ▸ hne)
  · have hne : n ≠ m := by
      rintro rfl
      simp [h.request, Request.on] at hon
    exact h.transacted.foreign x (hx ▸ hne)

theorem getMeta_step_foreign (hr : Sound s) (hi : InputBounded sha256 s i) (hon : i.2.on n = false)
    (hn : n < 2 ^ 31) {id : Int} (hid : 0 ≤ id ∧ id < 5) :
    getMeta (step sha256 s i) n id = getMeta s n id :=
  getMeta_congr hr.ok (sound_step hr hi).ok hn hid fun x hx _ => mem_step_foreign hr hi hon x hx

/-- What is reported about the namespace is the same, at every transaction. -/
theorem handleFacts_step_foreign (hr : Sound s) (hi : InputBounded sha256 s i)
    (hon : i.2.on n = false) (hn : n < 2 ^ 31) (q : Oracle) (arg : Option Json) :
    (handleFacts q (step sha256 s i) n arg).factList = (handleFacts q s n arg).factList ∧
      ((∃ x ∈ s, x.1.ns = n ∧ x.1.sort = sortEATV) →
        handleFacts q (step sha256 s i) n arg = handleFacts q s n arg) := by
  have hr' := sound_step hr hi
  have hmem := mem_step_foreign hr hi hon
  have hpast : ∀ tx, SamePast n tx s (step sha256 s i) := fun tx x _ hx _ => hmem x hx
  have hrange : (∃ x ∈ s, x.1.ns = n ∧ x.1.sort = sortEATV) →
      (mdbSetRange (step sha256 s i) (factsMinKey n) = [] ↔
        mdbSetRange s (factsMinKey n) = []) := by
    rintro ⟨x, hx, hxn, hxs⟩
    have hp := inEATV_iff.mpr ⟨hxn, hxs⟩
    exact iff_of_false (mdbSetRange_ne_nil hr'.ok hr'.positive hn ⟨x, (hmem x hxn).mpr hx, hp⟩)
      (mdbSetRange_ne_nil hr.ok hr.positive hn ⟨x, hx, hp⟩)
  have hat : ∀ tx, 0 ≤ tx →
      (handleFactsAt q (step sha256 s i) n tx).factList = (handleFactsAt q s n tx).factList ∧
      ((∃ x ∈ s, x.1.ns = n ∧ x.1.sort = sortEATV) →
        handleFactsAt q (step sha256 s i) n tx = handleFactsAt q s n tx) := fun tx h0 =>
    ⟨(hpast tx).factList_eq hr hr' hn h0 q,
      fun hne => (hpast tx).handleFactsAt_eq hr hr' hn h0 q (hrange hne)⟩
  unfold handleFacts
  split
  · rename_i t
    rw [getMeta_step_foreign hr hi hon hn (by decide)]
    split
    · exact ⟨rfl, fun _ => rfl⟩
    · split
      · split
        · exact ⟨rfl, fun _ => rfl⟩
        · rename_i tx htx
          have htx : getMeta s n metaTx = some tx := by
            split at htx
            · exact absurd htx (by simp)
            · exact htx
          exact hat tx (by have := (hr.tx_range n tx hn htx).1; omega)
      · exact hat t.toInt (by omega)
  · exact ⟨rfl, fun _ => rfl⟩

/--
**A request touches its own namespace only.**  In every store a run in range reaches,
whatever failed in it, a request on other namespaces, successful or not, leaves every
key and data item of this one, hence its counters and what is reported about it.
-/
theorem run_step_frame {o : Oracle} {is : List Input}
    (his : Along (step sha256) (InputBounded sha256) (dbOpen o []) is)
    (hi : InputBounded sha256 (run (step sha256) (dbOpen o []) is) i) (hn : n < 2 ^ 31)
    (hon : i.2.on n = false) :
    let s := run (step sha256) (dbOpen o []) is
    let s' := step sha256 s i
    (∀ x : Entry, x.1.ns = n → (x ∈ s' ↔ x ∈ s)) ∧
    nsExists s' n = nsExists s n ∧
    getMeta s' n metaTx = getMeta s n metaTx ∧ getMeta s' n metaId = getMeta s n metaId ∧
    ∀ q arg, (handleFacts q s' n arg).factList = (handleFacts q s n arg).factList ∧
      ((∃ x ∈ s, x.1.ns = n ∧ x.1.sort = sortEATV) →
        handleFacts q s' n arg = handleFacts q s n arg) := by
  intro s s'
  have hr : Sound s := sound_run (sound_dbOpen o) his
  have htx : getMeta s' n metaTx = getMeta s n metaTx :=
    getMeta_step_foreign hr hi hon hn (by decide)
  refine ⟨mem_step_foreign hr hi hon, ?_, htx, getMeta_step_foreign hr hi hon hn (by decide),
    handleFacts_step_foreign hr hi hon hn⟩
  unfold nsExists
  rw [htx]

end Foreign

/-- A failing put of `setup` in namespace 1, seen from namespace 0. -/
theorem run_step_frame_sample :
    let i : Input := (⟨fun c => c = .setupPut 3, fun _ _ => 0⟩, .newNamespace (some (.int64 1)))
    nsExists (step .ofBytes (dbOpen .calm []) i) 0 = nsExists (dbOpen .calm []) 0 := by
  intro i
  have his : Along (step .ofBytes) (InputBounded .ofBytes) (dbOpen .calm []) [] := trivial
  have hi : InputBounded .ofBytes (run (step .ofBytes) (dbOpen .calm []) []) i := by
    intro m hm
    cases hm
    show toNamespace 1 < 2 ^ 31
    decide
  exact (run_step_frame his hi (by norm_num) (by decide)).2.1

end Nstore
