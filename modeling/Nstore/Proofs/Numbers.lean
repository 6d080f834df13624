/-
The numbers of a reply.

A reply is printed from 64-bit integers, and this is where it is shown that its numbers
are such.  Those of a datom come from its key, where an argument of a request has put
them, or an id the transaction has handed out; an id is below the counter that is stored
with the transaction.  So as long as no counter overflows, every number of every reply
fits, and its document is one that can be read back.
-/
import Nstore.Proofs.RoundTrip
import Nstore.Proofs.Fresh
import Nstore.Proofs.Equality

namespace Nstore

open FirstSeen GenericValue

/-! ### What fits -/

/-- The fields of the datoms a facts request looks at. -/
def KeysWide (s : Store) : Prop :=
  ∀ q ∈ storedKeys s, q.sort = sortEATV → IsInt64 q.e ∧ IsInt64 q.a ∧ IsInt64 q.t

/-- No counter has overflowed. -/
def CountersWide (s : Store) : Prop := ∀ n id x, getMeta s n id = some x → IsInt64 x

def FactValue.IsWide : FactValue → Prop
  | .int i => IsInt64 i
  | .str _ => True

structure Fact.IsWide (f : Fact) : Prop where
  e : IsInt64 f.e
  a : IsInt64 f.a
  v : f.v.IsWide
  tx : IsInt64 f.tx

def Reply.IsWide : Reply → Prop
  | .ackOk => True
  | .ackErr => True
  | .facts tx fs => IsInt64 tx ∧ ∀ f ∈ fs, f.IsWide
  | .response tx fs newIds =>
      IsInt64 tx ∧ (∀ f ∈ fs, f.IsWide) ∧ ∀ p ∈ newIds, IsInt64 p.1 ∧ IsInt64 p.2

theorem isInt64_toInt (x : Int64) : IsInt64 x.toInt := ⟨x.le_toInt, x.toInt_lt⟩

/-! ### Facts -/

/-- What every round of the loop keeps, holds of what it leaves. -/
theorem cursorLoop_rule {σ : Type} {visitor : σ → Entry → Option σ} (P : σ → Prop) :
    ∀ {xs : List Entry} {st : σ},
      (∀ x ∈ xs, ∀ st st', P st → visitor st x = some st' → P st') → P st →
        P (cursorLoop visitor st xs) := by
  intro xs
  induction xs with
  | nil => intro st _ h; exact h
  | cons x rest ih =>
      intro st hvisit h
      rw [cursorLoop]
      cases hx : visitor st x with
      | none => exact h
      | some st' =>
          apply ih fun y hy => hvisit y (List.mem_cons_of_mem x hy)
          exact hvisit x List.mem_cons_self st st' h hx

private theorem decode_isWide (x : Entry) : (decode x).IsWide := by
  unfold decode
  split
  · exact x.1.v.isInt64_i
  · split <;> exact trivial

/-- What the loop of `handle_facts` has gathered. -/
structure ScanWide (st : BatchScan.Scan (Int × Int) Current Fact) : Prop where
  last : IsInt64 st.last.1 ∧ IsInt64 st.last.2
  current : ∀ c ∈ st.current, c.2.1.IsWide ∧ IsInt64 c.2.2
  out : ∀ f ∈ st.out, f.IsWide

private theorem mem_current_take {current : Current} {x : Entry} {c : Value × (FactValue × Int)}
    (h : c ∈ Current.take current x) : c ∈ current ∨ c.2 = (decode x, x.1.t / 2) := by
  unfold Current.take at h
  split at h
  · exact .inl (List.mem_filter.mp h).1
  · rcases List.mem_cons.mp h with rfl | h
    · exact .inr rfl
    · exact .inl (List.mem_filter.mp h).1

private theorem isInt64_half {t : Int} (h : IsInt64 t) : IsInt64 (t / 2) := by
  unfold IsInt64 at h ⊢
  omega

theorem factsTake_isWide {many : List Int} {current : Current} {x : Entry} (ht : IsInt64 x.1.t)
    (h : ∀ c ∈ current, c.2.1.IsWide ∧ IsInt64 c.2.2) :
    ∀ c ∈ factsTake many current x, c.2.1.IsWide ∧ IsInt64 c.2.2 := by
  intro c hc
  rcases mem_current_take hc with hc | hc
  · split at hc
    · exact h c hc
    · exact absurd hc List.not_mem_nil
  · rw [hc]
    exact ⟨decode_isWide x, isInt64_half ht⟩

theorem ScanWide.flush {st : BatchScan.Scan (Int × Int) Current Fact} (h : ScanWide st) :
    ∀ f ∈ st.out ++ factsBatch st.last st.current, f.IsWide := by
  intro f hf
  rcases List.mem_append.mp hf with hf | hf
  · exact h.out f hf
  · obtain ⟨c, hc, rfl⟩ := List.mem_map.mp hf
    exact ⟨h.last.1, h.last.2, (h.current c hc).1, (h.current c hc).2⟩

theorem ScanWide.visit {ns : Nat} {tx : Int} {many : List Int} {x : Entry}
    {st st' : BatchScan.Scan (Int × Int) Current Fact}
    (hx : x.1.sort = sortEATV → IsInt64 x.1.e ∧ IsInt64 x.1.a ∧ IsInt64 x.1.t)
    (h : ScanWide st) (hvisit : factsVisit ns tx many st x = some st') : ScanWide st' := by
  unfold factsVisit at hvisit
  split at hvisit
  · exact absurd hvisit (by simp)
  · rename_i hsort
    obtain ⟨he, ha, ht⟩ := hx (by tauto)
    split at hvisit
    · rw [Option.some.injEq] at hvisit
      exact hvisit ▸ h
    · rw [Option.some.injEq] at hvisit
      subst hvisit
      unfold BatchScan.step
      split
      · -- another entity or attribute: the batch is written out
        exact ⟨⟨he, ha⟩, factsTake_isWide ht fun c hc => absurd hc List.not_mem_nil, h.flush⟩
      · exact ⟨h.last, factsTake_isWide ht h.current, h.out⟩

theorem handleFactsAt_isWide {o : Oracle} {s : Store} {ns : Nat} {tx : Int} (hs : KeysWide s)
    (htx : IsInt64 tx) : (handleFactsAt o s ns tx).IsWide := by
  unfold handleFactsAt
  split
  · trivial
  · split
    · trivial
    · rename_i first rest hseek
      have hmem : ∀ x ∈ first :: rest, x ∈ s := by
        rw [← hseek]
        intro x hx
        split at hx
        · exact absurd hx List.not_mem_nil
        · exact (List.dropWhile_suffix _).subset hx
      have hstart : ScanWide ⟨(-1, -1), [], []⟩ := by
        refine ⟨?_, fun c hc => absurd hc List.not_mem_nil, fun f hf => absurd hf List.not_mem_nil⟩
        unfold IsInt64
        norm_num
      have hloop : ScanWide (cursorLoop (factsVisit ns (txBound tx) (manySet o s ns tx))
          ⟨(-1, -1), [], []⟩ (first :: rest)) := by
        apply cursorLoop_rule ScanWide _ hstart
        intro x hx st st' h hvisit
        exact h.visit (hs x.1 (mem_storedKeys (hmem x hx))) hvisit
      exact ⟨htx, hloop.flush⟩

theorem handleFacts_isWide {o : Oracle} {s : Store} {ns : Nat} {arg : Option Json}
    (hs : KeysWide s) (hc : CountersWide s) : (handleFacts o s ns arg).IsWide := by
  unfold handleFacts
  split
  · rename_i i
    split
    · trivial
    · split
      · split
        · trivial
        · rename_i tx htx
          split at htx
          · exact absurd htx (by simp)
          · exact handleFactsAt_isWide hs (hc ns metaTx tx htx)
      · exact handleFactsAt_isWide hs (isInt64_toInt i)
  · trivial

/-! ### Transactions -/

/-- Tempids are numbers of the request. -/
theorem isInt64_of_mem_tempids {eRef : List Int} {v : Json} {x : Int} (h : x ∈ v.tempids eRef) :
    IsInt64 x ∧ x < 0 := by
  have hfilter (i : Int64) (hx : x ∈ [i.toInt].filter (· < 0)) : IsInt64 x ∧ x < 0 := by
    obtain ⟨hmem, hneg⟩ := List.mem_filter.mp hx
    rw [List.mem_singleton.mp hmem] at hneg ⊢
    exact ⟨isInt64_toInt i, of_decide_eq_true hneg⟩
  unfold Json.tempids at h
  split at h
  · rcases List.mem_append.mp h with h | h
    · exact hfilter _ h
    · split at h
      · split at h
        · exact hfilter _ h
        · exact absurd h List.not_mem_nil
      · exact absurd h List.not_mem_nil
  · exact absurd h List.not_mem_nil

section Mapped

variable {sha256 : Bytes → Value} {eRef : List Int} {i : Int} {ts : List Int}

/-- The ids handed out lie between the two values of the counter. -/
theorem isInt64_number (hi : IsInt64 i) (hend : IsInt64 (i + ts.length)) {x : Int} (hx : x ∈ ts) :
    IsInt64 (number i ts x) := by
  obtain ⟨lo, hi'⟩ := number_range (i := i) hx
  unfold IsInt64 at hi hend ⊢
  omega

theorem isInt64_mapId (hi : IsInt64 i) (hend : IsInt64 (i + ts.length)) (x : Int64)
    (hx : x.toInt < 0 → x.toInt ∈ ts) : IsInt64 (mapId (number i ts) x.toInt) := by
  unfold mapId
  split
  · rename_i hneg
    exact isInt64_number hi hend (hx hneg)
  · exact isInt64_toInt x

/-- The numbers of a write, as an element gives them. -/
theorem mapped_isWide (hi : IsInt64 i) (hend : IsInt64 (i + ts.length)) {v : Json} {w : Write}
    (hts : ∀ x ∈ v.tempids eRef, x ∈ ts) (hw : v.mapped sha256 eRef (number i ts) = some w) :
    IsInt64 w.e ∧ IsInt64 w.a ∧ w.enc.shown.IsWide := by
  unfold Json.mapped at hw
  split at hw
  · rename_i e a x r
    rw [Option.some.injEq] at hw
    subst hw
    refine ⟨isInt64_mapId hi hend e fun he => hts _ ?_, isInt64_toInt a, ?_⟩
    · simp [Json.tempids, he]
    · show IsInt64 _
      split
      · rename_i href
        apply isInt64_mapId hi hend x
        intro hx
        exact hts _ (by simp [Json.tempids, href, hx])
      · exact isInt64_toInt x
  · rename_i e a str r
    rw [Option.some.injEq] at hw
    subst hw
    refine ⟨isInt64_mapId hi hend e fun he => hts _ ?_, isInt64_toInt a, ?_⟩
    · simp [Json.tempids, he]
    · rw [encodeStr_shown]
      trivial
  · exact absurd hw (by simp)

end Mapped

/-- **The numbers of a committed transaction fit**, those it answers with and those it stores. -/
theorem transact_isWide {sha256 : Bytes → Value} {o : Oracle} {s s' : Store} {n : Nat}
    {fs : List Json} {tx : Int} {facts : List Fact} {newIds : List (Int × Int)} (hs : KeysWide s)
    (hc : CountersWide s) (hc' : CountersWide s')
    (h : transact sha256 o s n fs = some (.response tx facts newIds, s')) :
    (Reply.response tx facts newIds).IsWide ∧ KeysWide s' := by
  obtain ⟨tx', i, st, htx, hi, -, -, hr⟩ := transact_cases h
  simp only [Reply.response.injEq] at hr
  obtain ⟨rfl, -, -⟩ := hr
  have hmap := transact_tempids hi h
  have hlow := hc n metaId i hi
  have hend := hc' n metaId _ hmap.counted
  have hwrite : ∀ w ∈ fs.filterMap (Json.mapped sha256 (refSet o s n tx)
      (number i (tempidsOf (refSet o s n tx) fs))),
      IsInt64 w.e ∧ IsInt64 w.a ∧ w.enc.shown.IsWide := by
    intro w hw
    obtain ⟨v, hv, hmapped⟩ := List.mem_filterMap.mp hw
    apply mapped_isWide hlow hend _ hmapped
    intro x hx
    exact mem_seeAll.mpr (.inr (List.mem_flatMap.mpr ⟨v, hv, hx⟩))
  have htx := hc n metaTx tx htx
  refine ⟨⟨htx, ?_, ?_⟩, ?_⟩
  · intro f hf
    rw [hmap.facts_eq] at hf
    obtain ⟨w, hw, rfl⟩ := List.mem_map.mp hf
    obtain ⟨he, ha, hv⟩ := hwrite w hw
    exact ⟨he, ha, hv, htx⟩
  · intro p hp
    rw [hmap.reported] at hp
    obtain ⟨x, hx, rfl⟩ := List.mem_map.mp hp
    refine ⟨?_, isInt64_number hlow hend hx⟩
    rcases mem_seeAll.mp hx with hx | hx
    · exact absurd hx List.not_mem_nil
    · obtain ⟨v, -, hx⟩ := List.mem_flatMap.mp hx
      exact (isInt64_of_mem_tempids hx).1
  · intro q hq hsort
    rcases hmap.stored q hq with hq | hq | ⟨w, hw, sort, rfl⟩
    · exact hs q hq hsort
    · rw [hq] at hsort
      exact absurd hsort (by decide)
    · obtain ⟨he, ha, -⟩ := hwrite w hw
      exact ⟨he, ha, isInt64_datomT _ _⟩

/-! ### Namespaces -/

theorem setupWrites_zero_wide : ∀ x ∈ setupWrites 0,
    (-2 ^ 63 ≤ x.1.e ∧ x.1.e < 2 ^ 63) ∧ (-2 ^ 63 ≤ x.1.a ∧ x.1.a < 2 ^ 63) ∧
      -2 ^ 63 ≤ x.1.t ∧ x.1.t < 2 ^ 63 := by
  decide +kernel

theorem setup_keysWide {o : Oracle} {s : Store} {n : Nat} (hs : KeysWide s) :
    KeysWide (setup o s n).2 := by
  intro q hq
  apply storedKeys_setup (P := fun q =>
    q.sort = sortEATV → IsInt64 q.e ∧ IsInt64 q.a ∧ IsInt64 q.t) (o := o) (s := s) (n := n)
    ?_ ?_ hs q hq
  · intro q h0 hsort
    rw [h0] at hsort
    exact absurd hsort (by decide)
  · intro x hx _
    obtain ⟨y, hy, rfl⟩ := mem_setupWrites.mp hx
    exact setupWrites_zero_wide y hy

/-! ### Requests -/

section Steps

variable {sha256 : Bytes → Value} {s : Store} {i : Input}

/-- **A request whose counters fit leaves keys that fit, and so does its reply.** -/
theorem step_isWide (hs : KeysWide s) (hc : CountersWide s) (hc' : CountersWide (step sha256 s i)) :
    KeysWide (step sha256 s i) ∧ (reply sha256 s i).IsWide := by
  obtain ⟨o, r⟩ := i
  cases r with
  | newNamespace arg =>
      refine ⟨?_, ?_⟩
      · rcases step_newNamespace_cases sha256 o s arg with h | ⟨m, -, h⟩
        · rw [h]
          exact hs
        · rw [h]
          exact setup_keysWide hs
      · show (handleNamespace o s arg).1.IsWide
        unfold handleNamespace
        split
        · split
          · trivial
          · split <;> trivial
        · trivial
  | transact n arg =>
      rcases step_transact_cases sha256 o s n arg with ⟨h, hr⟩ | ⟨fs, tx, facts, newIds, -, htr, hr⟩
      · rw [h, hr]
        exact ⟨hs, trivial⟩
      · rw [hr]
        exact (transact_isWide hs hc hc' htr).symm
  | facts n arg => exact ⟨hs, handleFacts_isWide hs hc⟩

end Steps

/-! ### Documents -/

/-- The document a reply is printed from; an ack is a number. -/
def Reply.document (walk : Walk) : Reply → GenericValue Empty
  | .ackOk => .int 0
  | .ackErr => .int 1
  | .facts tx fs => factsDocument tx fs
  | .response tx fs newIds => transactDocument walk tx fs newIds

theorem IsInt64.fits {i : Int} (h : IsInt64 i) : (GenericValue.int i : GenericValue Empty).Fits := by
  rw [GenericValue.Fits]
  unfold IsInt64 at h
  omega

theorem fitElements_map {α : Type} {f : α → GenericValue Empty} {xs : List α}
    (h : ∀ x ∈ xs, (f x).Fits) : FitElements (xs.map f) := by
  induction xs with
  | nil => trivial
  | cons x xs ih =>
      rw [List.map_cons, FitElements]
      exact ⟨h x List.mem_cons_self, ih fun y hy => h y (List.mem_cons_of_mem x hy)⟩

theorem fits_eavrOf {f : Fact} (h : f.IsWide) : (eavrOf f).Fits := by
  have hvalue : (valueOf f.v).Fits := by
    have hv := h.v
    cases hf : f.v with
    | int i =>
        rw [hf] at hv
        exact IsInt64.fits hv
    | str s => trivial
  unfold eavrOf
  simp only [GenericValue.Fits, FitElements, and_true]
  exact ⟨h.e.fits, h.a.fits, hvalue, h.tx.fits⟩

/-- What becomes of the members of a response when it is published. -/
theorem eventDocument_eq (walk : Walk) (tx : Int) (facts : List Fact)
    (newIds : List (Int × Int)) :
    eventDocument walk tx facts newIds = .object
      [(ascii "facts", .array (facts.map eavrOf)), (ascii "tx", .int tx),
        (ascii "type", .string (ascii "event"))] := rfl

theorem fits_eventDocument (walk : Walk) {tx : Int} {facts : List Fact}
    (newIds : List (Int × Int)) (htx : IsInt64 tx) (hfacts : ∀ f ∈ facts, f.IsWide) :
    (eventDocument walk tx facts newIds).Fits := by
  rw [eventDocument_eq]
  simp only [GenericValue.Fits, FitMembers, and_true]
  exact ⟨fitElements_map fun f hf => fits_eavrOf (hfacts f hf), htx.fits⟩

theorem Reply.IsWide.fits {r : Reply} (h : r.IsWide) (walk : Walk) : (r.document walk).Fits := by
  cases r with
  | ackOk => exact IsInt64.fits (by unfold IsInt64; norm_num)
  | ackErr => exact IsInt64.fits (by unfold IsInt64; norm_num)
  | facts tx facts =>
      obtain ⟨htx, hfacts⟩ := h
      show FitMembers _
      simp only [responseMembers, addMember, List.nil_append, List.cons_append, FitMembers,
        GenericValue.Fits, true_and, and_true]
      exact ⟨htx.fits, fitElements_map fun f hf => fits_eavrOf (hfacts f hf)⟩
  | response tx facts newIds =>
      obtain ⟨htx, hfacts, hids⟩ := h
      have hnew : FitElements ((walk.order newIds).map newIdOf) := by
        apply fitElements_map
        intro p hp
        have hmem : p ∈ newIds := (walk.perm newIds).subset hp
        show FitElements _
        simp only [FitElements, and_true]
        exact ⟨(hids p hmem).1.fits, (hids p hmem).2.fits⟩
      show FitMembers _
      simp only [transactMembers, responseMembers, addMember, List.nil_append, List.cons_append,
        FitMembers, GenericValue.Fits, true_and, and_true]
      exact ⟨htx.fits, fitElements_map fun f hf => fits_eavrOf (hfacts f hf), hnew⟩

end Nstore
