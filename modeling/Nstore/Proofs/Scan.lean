/-
What the two scans compute.

`handle_facts` and `query_a` run the same loop over different sort orders: skip a
key that is too late, flush when the group changes, erase on a retraction, set on
an assertion.  The comparator makes the keys of one namespace and order one
contiguous run, so the loop sees exactly the visible keys, `factsAt_eq`, and a key
it skips leaves no trace.

What is left of a group is its winners: for a cardinality-many attribute the
greatest key of each payload, for any other the greatest key of the group, and in
both cases only if that key is an assertion.
-/
import Nstore.Proofs.Store

namespace Nstore

open LexDiff BatchScan

/-! ### The loop -/

/-- A visitor with a fixed break and a fixed skip is a fold over what is left. -/
theorem cursorLoop_eq {σ : Type} {visitor : σ → Entry → Option σ} (f : σ → Entry → σ)
    (stop skip : Entry → Bool)
    (hv : ∀ st x, visitor st x = if stop x then none else if skip x then some st else some (f st x)) :
    ∀ (xs : List Entry) (st : σ), cursorLoop visitor st xs =
      ((xs.takeWhile fun x => !stop x).filter fun x => !skip x).foldl f st := by
  intro xs
  induction xs with
  | nil => intro st; rfl
  | cons x rest ih =>
      intro st
      rw [cursorLoop, hv]
      by_cases hstop : stop x = true
      · simp [hstop]
      · by_cases hskip : skip x = true
        · simp [hstop, hskip, ih]
        · simp [hstop, hskip, ih]

/-! ### The region of a namespace and a sort order -/

/-- Datoms are about entities from one on. -/
def Positive (s : Store) : Prop := ∀ x ∈ s, x.1.IsDatom → 1 ≤ x.1.e

theorem isDatom_of_sort {k : CustomKey} (h : InRange k) (hs : k.sort = sortEATV ∨ k.sort = sortAETV) :
    k.IsDatom := by
  rcases h.kind with ⟨-, h0⟩ | ⟨-, h0⟩ | hd
  · rw [h0] at hs; exact absurd hs (by decide)
  · rw [h0] at hs; exact absurd hs (by decide)
  · exact hd

theorem coords_factsMinKey (ns : Nat) :
    (factsMinKey ns).coords = [(ns : Int), 3, sortEATV, 0, 0, 0, 3] := by
  show (ns : Int) :: 3 :: (sortEATV : Int) :: (factsMinKey ns).sortCoords 4 sortEATV = _
  rw [sortCoords_EATV]
  rfl

theorem coords_queryMinKey (ns : Nat) (a : Int) :
    (queryMinKey ns a).coords = [(ns : Int), 3, sortAETV, a, 0, 0, 3] := by
  show (ns : Int) :: 3 :: (sortAETV : Int) :: (queryMinKey ns a).sortCoords 4 sortAETV = _
  rw [sortCoords_AETV]
  rfl

theorem minKey_fits {k : CustomKey} (hns : k.ns < 2 ^ 31) (ha : -2 ^ 30 ≤ k.a ∧ k.a < 2 ^ 30)
    (he : k.e = 0) (ht : k.t = 0) (hp : k.pad = 0) (hs : k.sort < 256)
    (htype : k.type = .keyMinSentinel) : Fits k := by
  refine ⟨hns, by omega, ha, by omega, by omega, hs, fun h => ?_⟩
  rw [htype] at h
  exact absurd h (by decide)

theorem factsMinKey_fits {ns : Nat} (hns : ns < 2 ^ 31) : Fits (factsMinKey ns) :=
  minKey_fits hns (by show (-2 ^ 30 : Int) ≤ 0 ∧ (0 : Int) < 2 ^ 30; norm_num) rfl rfl rfl
    (by show sortEATV < 256; decide) rfl

private theorem queryMinKey_fits {ns : Nat} {a : Int} (hns : ns < 2 ^ 31)
    (ha : -2 ^ 30 ≤ a ∧ a < 2 ^ 30) : Fits (queryMinKey ns a) :=
  minKey_fits hns ha rfl rfl rfl (by show sortAETV < 256; decide) rfl

/-- A key between two of one namespace and order is of that namespace and order. -/
theorem between {x y : CustomKey} {ns : Nat} {so : Int} {lo hi : List Int} (hx : InRange x)
    (hlo : ((ns : Int) :: 3 :: so :: lo) ≤ x.coords) (hlt : x.coords < y.coords)
    (hy : y.coords = (ns : Int) :: 3 :: so :: hi) :
    x.ns = ns ∧ x.IsDatom ∧ (x.sort : Int) = so ∧
      lo ≤ x.sortCoords 4 x.sort ∧ x.sortCoords 4 x.sort < hi := by
  rw [hy] at hlt
  rcases hx.kind with ⟨ht, -⟩ | ⟨ht, -⟩ | hd
  · simp only [CustomKey.coords, ht] at hlo hlt
    obtain ⟨-, hlo, hlt⟩ := cons_between hlo hlt
    exact absurd (cons_between hlo hlt).1 (by decide)
  · simp only [CustomKey.coords, ht] at hlo hlt
    obtain ⟨-, hlo, hlt⟩ := cons_between hlo hlt
    exact absurd (cons_between hlo hlt).1 (by decide)
  · rw [coords_datom hd.1] at hlo hlt
    obtain ⟨hns, hlo, hlt⟩ := cons_between hlo hlt
    obtain ⟨-, hlo, hlt⟩ := cons_between hlo hlt
    obtain ⟨hso, hlo, hlt⟩ := cons_between hlo hlt
    exact ⟨by omega, hd, hso, hlo, hlt⟩

/-- The `EATV` keys of a namespace, as the loop of `handle_facts` sees them. -/
def inEATV (ns : Nat) (x : Entry) : Bool := !decide (x.1.ns ≠ ns ∨ x.1.sort ≠ sortEATV)

/-- The `AETV` keys of a namespace and attribute, as the loop of `query_a` sees them. -/
def inAETV (ns : Nat) (a : Int) (x : Entry) : Bool :=
  !decide (x.1.a ≠ a ∨ x.1.ns ≠ ns ∨ x.1.sort ≠ sortAETV)

theorem inEATV_iff {ns : Nat} {x : Entry} :
    inEATV ns x = true ↔ x.1.ns = ns ∧ x.1.sort = sortEATV := by
  simp [inEATV]

theorem inAETV_iff {ns : Nat} {a : Int} {x : Entry} :
    inAETV ns a x = true ↔ x.1.a = a ∧ x.1.ns = ns ∧ x.1.sort = sortAETV := by
  simp [inAETV]

theorem takeWhile_EATV {s : Store} (hs : StoreOk s) (hpos : Positive s) {ns : Nat}
    (hns : ns < 2 ^ 31) :
    (mdbSetRange s (factsMinKey ns)).takeWhile (inEATV ns) = s.filter (inEATV ns) := by
  refine OrderedMap.takeWhile_seek compare_agrees (factsMinKey_fits hns) hs.fits ?_ ?_
  · intro x hx hp
    obtain ⟨hxn, hxs⟩ := inEATV_iff.mp hp
    have hd := isDatom_of_sort (hs.keys x hx) (Or.inl hxs)
    have h1 := hpos x hx hd
    rw [coords_factsMinKey, coords_EATV hd hxs, hxn, ← not_lt]
    simp only [List.cons_lt_cons_iff]
    omega
  · intro x hx y hy hlo hlt hp
    obtain ⟨hyn, hys⟩ := inEATV_iff.mp hp
    have hd := isDatom_of_sort (hs.keys y hy) (Or.inl hys)
    rw [coords_factsMinKey] at hlo
    obtain ⟨h1, -, h3, -⟩ := between (hs.keys x hx) hlo hlt (by rw [coords_EATV hd hys, hyn])
    exact inEATV_iff.mpr ⟨h1, by omega⟩

private theorem takeWhile_AETV_of_range {s : Store} (hs : StoreOk s) (hpos : Positive s) {ns : Nat}
    {a : Int} (hns : ns < 2 ^ 31) (ha : -2 ^ 30 ≤ a ∧ a < 2 ^ 30) :
    (mdbSetRange s (queryMinKey ns a)).takeWhile (inAETV ns a) = s.filter (inAETV ns a) := by
  refine OrderedMap.takeWhile_seek compare_agrees (queryMinKey_fits hns ha) hs.fits ?_ ?_
  · intro x hx hp
    obtain ⟨hxa, hxn, hxs⟩ := inAETV_iff.mp hp
    have hd := isDatom_of_sort (hs.keys x hx) (Or.inr hxs)
    have h1 := hpos x hx hd
    rw [coords_queryMinKey, coords_AETV hd hxs, hxn, hxa, ← not_lt]
    simp only [List.cons_lt_cons_iff]
    omega
  · intro x hx y hy hlo hlt hp
    obtain ⟨hya, hyn, hys⟩ := inAETV_iff.mp hp
    have hdy := isDatom_of_sort (hs.keys y hy) (Or.inr hys)
    rw [coords_queryMinKey] at hlo
    obtain ⟨h1, -, h3, hlo, hlt⟩ := between (hs.keys x hx) hlo hlt
      (by rw [coords_AETV hdy hys, hyn, hya])
    have hxs : x.1.sort = sortAETV := by omega
    rw [hxs, sortCoords_AETV] at hlo hlt
    exact inAETV_iff.mpr ⟨(cons_between hlo hlt).1, h1, hxs⟩

/-- No key has an attribute out of range, so there the first key stops the loop. -/
theorem takeWhile_AETV {s : Store} (hs : StoreOk s) (hpos : Positive s) {ns : Nat}
    (hns : ns < 2 ^ 31) (a : Int) :
    (mdbSetRange s (queryMinKey ns a)).takeWhile (inAETV ns a) = s.filter (inAETV ns a) := by
  by_cases ha : -2 ^ 29 ≤ a ∧ a < 2 ^ 29
  · exact takeWhile_AETV_of_range hs hpos hns (by omega)
  · have hnot : ∀ x ∈ s, inAETV ns a x ≠ true := by
      intro x hx hin
      exact ha ((inAETV_iff.mp hin).1 ▸ (hs.keys x hx).a_range)
    rw [List.filter_eq_nil_iff.mpr hnot, List.eq_nil_iff_forall_not_mem]
    intro x hx
    have hmem : x ∈ s := (List.dropWhile_sublist _).subset ((List.takeWhile_sublist _).subset hx)
    exact hnot x hmem (List.all_eq_true.mp List.all_takeWhile x hx)

/-! ### The answers, as functions of the visible keys -/

/-- The `EATV` keys of a namespace up to a bound on `t`. -/
def visible (s : Store) (ns : Nat) (bound : Int) : List Entry :=
  (s.filter (inEATV ns)).filter fun x => !decide (x.1.t > bound)

/-- The `AETV` keys of a namespace and attribute up to a bound on `t`. -/
def visibleA (s : Store) (ns : Nat) (a bound : Int) : List Entry :=
  (s.filter (inAETV ns a)).filter fun x => !decide (x.1.t > bound)

def groupOf (x : Entry) : Int × Int := (x.1.e, x.1.a)

/-- One flush per group. -/
def factsOf (many : List Int) (vis : List Entry) : List Fact :=
  (batches groupOf vis).flatMap fun b => factsBatch b.1 (b.2.foldl (factsTake many) [])

def datomsOf (a : Int) (vis : List Entry) : List Datom :=
  (batches (fun x : Entry => x.1.e) vis).flatMap fun b => queryBatch a b.1 (b.2.foldl Current.take [])

/-- What `query_a` takes in, in any store: the keys up to the first that stops it. -/
theorem queryA_scan (s : Store) (ns : Nat) (tx a : Int) :
    queryA s ns tx a = datomsOf a (((mdbSetRange s (queryMinKey ns a)).takeWhile (inAETV ns a)).filter
      fun x => !decide (x.1.t > txBound tx)) := by
  unfold queryA
  rw [cursorLoop_eq (step (fun x : Entry => x.1.e) Current.take (queryBatch a) [])
    (fun x => decide (x.1.a ≠ a ∨ x.1.ns ≠ ns ∨ x.1.sort ≠ sortAETV))
    (fun x => decide (x.1.t > txBound tx))]
  · exact finish_foldl (fun _ => rfl) _ _
  · intro st x
    simp only [queryVisit, decide_eq_true_eq]

/-- `query_a` depends on the visible keys only. -/
theorem queryA_eq {s : Store} (hs : StoreOk s) (hpos : Positive s) {ns : Nat} {a : Int}
    (hns : ns < 2 ^ 31) (tx : Int) :
    queryA s ns tx a = datomsOf a (visibleA s ns a (txBound tx)) := by
  rw [queryA_scan, takeWhile_AETV hs hpos hns a]
  rfl

/-- The keys `handle_facts` walks over, in any store. -/
def walked (s : Store) (ns : Nat) : List Entry :=
  (mdbSetRange s (factsMinKey ns)).takeWhile (inEATV ns)

/-- What `handle_facts` answers, in any store. -/
theorem handleFactsAt_scan (o : Oracle) (s : Store) (ns : Nat) (tx : Int) :
    handleFactsAt o s ns tx =
      if o.fails .cursorOpen = true ∨ o.fails .setRange = true ∨
        mdbSetRange s (factsMinKey ns) = [] then .ackErr
      else .facts tx (factsOf (manySet o s ns tx)
        ((walked s ns).filter fun x => !decide (x.1.t > txBound tx))) := by
  unfold handleFactsAt walked
  cases o.fails .cursorOpen with
  | true => simp
  | false =>
      cases o.fails .setRange with
      | true => simp
      | false =>
          simp only [Bool.false_eq_true, if_false, false_or]
          cases mdbSetRange s (factsMinKey ns) with
          | nil => simp
          | cons first rest =>
              simp only [reduceCtorEq, if_false]
              rw [cursorLoop_eq (step groupOf (factsTake (manySet o s ns tx)) factsBatch [])
                (fun x => decide (x.1.ns ≠ ns ∨ x.1.sort ≠ sortEATV))
                (fun x => decide (x.1.t > txBound tx))]
              · rw [show (fun x : Entry => !decide (x.1.ns ≠ ns ∨ x.1.sort ≠ sortEATV)) =
                  inEATV ns from rfl]
                congr 1
                exact finish_foldl (fun _ => rfl) _ _
              · intro st x
                simp only [factsVisit, decide_eq_true_eq]
                rfl

/-- `handle_facts` depends on the visible keys and the cardinalities only, if it answers. -/
theorem handleFactsAt_eq_ite (o : Oracle) {s : Store} (hs : StoreOk s) (hpos : Positive s) {ns : Nat}
    (hns : ns < 2 ^ 31) (tx : Int) : handleFactsAt o s ns tx =
      if o.fails .cursorOpen = true ∨ o.fails .setRange = true ∨
        mdbSetRange s (factsMinKey ns) = [] then .ackErr
      else .facts tx (factsOf (manySet o s ns tx) (visible s ns (txBound tx))) := by
  rw [handleFactsAt_scan, walked, takeWhile_EATV hs hpos hns]
  rfl

/-- The cursor finds a key where the namespace has facts. -/
theorem mdbSetRange_ne_nil {s : Store} (hs : StoreOk s) (hpos : Positive s) {ns : Nat}
    (hns : ns < 2 ^ 31) (hne : ∃ x ∈ s, inEATV ns x = true) :
    mdbSetRange s (factsMinKey ns) ≠ [] := by
  obtain ⟨x, hx, hp⟩ := hne
  intro hnil
  have hmem : x ∈ s.filter (inEATV ns) := List.mem_filter.mpr ⟨hx, hp⟩
  rw [← takeWhile_EATV hs hpos hns, hnil] at hmem
  exact absurd hmem List.not_mem_nil

theorem handleFactsAt_eq {o : Oracle} (ho : o.Faultless) {s : Store} (hs : StoreOk s)
    (hpos : Positive s) {ns : Nat} (hns : ns < 2 ^ 31) (hne : ∃ x ∈ s, inEATV ns x = true)
    (tx : Int) : handleFactsAt o s ns tx =
      .facts tx (factsOf (manySet o s ns tx) (visible s ns (txBound tx))) := by
  rw [handleFactsAt_eq_ite o hs hpos hns, ho, ho]
  simp [mdbSetRange_ne_nil hs hpos hns hne]

/-- A request for a transaction. -/
theorem handleFacts_of_nonneg {o : Oracle} (ho : o.Faultless) (s : Store) (ns : Nat) {t : Int64}
    (h0 : 0 ≤ t.toInt) : handleFacts o s ns (some (.int64 t)) = handleFactsAt o s ns t.toInt := by
  simp only [handleFacts, ho _, Bool.false_eq_true, if_false]
  rw [if_neg (by omega)]

/-- A request for the latest facts. -/
theorem handleFacts_of_neg {o : Oracle} (ho : o.Faultless) (s : Store) (ns : Nat) {t : Int64}
    (ht : t.toInt < 0) : handleFacts o s ns (some (.int64 t)) =
      match getMeta s ns metaTx with
      | none => .ackErr
      | some tx => handleFactsAt o s ns tx := by
  simp only [handleFacts, ho _, Bool.false_eq_true, if_false]
  refine (if_pos ht).trans ?_
  cases getMeta s ns metaTx with
  | none => rfl
  | some tx => rfl

/-! ### What is left of a group

The map `current` holds, payload by payload, the key that wrote the entry.  The
folds below keep the keys themselves; what the code keeps is their `cell`.
-/

/-- Take a key in: it replaces, or if it is a retraction only removes, its payload. -/
def takeKey (m : List Entry) (x : Entry) : List Entry :=
  if x.1.t % 2 = 1 then m.filter fun y => y.1.v ≠ x.1.v
  else x :: m.filter fun y => y.1.v ≠ x.1.v

def cell (x : Entry) : Value × (FactValue × Int) := (x.1.v, (decode x, x.1.t / 2))

/-- The keys left after a group, `keep` telling whether the map survives from key to key. -/
def winners (keep : Prop) [Decidable keep] (xs : List Entry) : List Entry :=
  xs.foldl (fun m x => takeKey (if keep then m else []) x) []

private theorem erase_map_cell (m : List Entry) (v : Value) :
    Current.erase (m.map cell) v = (m.filter fun y => y.1.v ≠ v).map cell := by
  unfold Current.erase
  rw [List.filter_map]
  rfl

theorem take_map_cell (m : List Entry) (x : Entry) :
    Current.take (m.map cell) x = (takeKey m x).map cell := by
  unfold Current.take takeKey
  rw [erase_map_cell]
  split <;> rfl

/-- Keys of one attribute: `factsTake` keeps the map or not, once and for all. -/
theorem foldl_factsTake (many : List Int) (a : Int) (xs : List Entry) (hxs : ∀ x ∈ xs, x.1.a = a) :
    xs.foldl (factsTake many) [] = (winners (a ∈ many) xs).map cell := by
  have key : ∀ (xs : List Entry), (∀ x ∈ xs, x.1.a = a) → ∀ m : List Entry,
      xs.foldl (factsTake many) (m.map cell) =
        (xs.foldl (fun m x => takeKey (if a ∈ many then m else []) x) m).map cell := by
    intro xs
    induction xs with
    | nil => intro _ m; rfl
    | cons x rest ih =>
        intro hxs m
        have hx : x.1.a = a := hxs x (by simp)
        rw [List.foldl_cons, List.foldl_cons, ← ih (fun y hy => hxs y (by simp [hy]))]
        congr 1
        unfold factsTake
        rw [hx, ← take_map_cell]
        by_cases ha : a ∈ many
        · rw [if_pos ha, if_pos ha]
        · rw [if_neg ha, if_neg ha]; rfl
  exact key xs hxs []

theorem foldl_take (xs : List Entry) :
    xs.foldl Current.take [] = (winners True xs).map cell := by
  have key : ∀ (xs m : List Entry), xs.foldl Current.take (m.map cell) =
      (xs.foldl (fun m x => takeKey (if True then m else []) x) m).map cell := by
    intro xs
    induction xs with
    | nil => intro m; rfl
    | cons x rest ih =>
        intro m
        rw [List.foldl_cons, List.foldl_cons, ← ih, take_map_cell, if_pos trivial]
  exact key xs []

theorem winners_append (keep : Prop) [Decidable keep] (xs : List Entry) (y : Entry) :
    winners keep (xs ++ [y]) = takeKey (if keep then winners keep xs else []) y := by
  simp only [winners, List.foldl_append, List.foldl_cons, List.foldl_nil]

theorem mem_winners_append (keep : Prop) [Decidable keep] {xs : List Entry} {x y : Entry} :
    x ∈ winners keep (xs ++ [y]) ↔
      (y.1.t % 2 ≠ 1 ∧ x = y) ∨ (keep ∧ x ∈ winners keep xs ∧ x.1.v ≠ y.1.v) := by
  rw [winners_append, takeKey]
  by_cases hodd : y.1.t % 2 = 1 <;> by_cases hk : keep <;> simp [hodd, hk]

/-- In any order, those are left that assert and that no later key takes out. -/
theorem mem_winners_iff_split (keep : Prop) [Decidable keep] {xs : List Entry} {x : Entry} :
    x ∈ winners keep xs ↔ ∃ l r, xs = l ++ x :: r ∧ x.1.t % 2 ≠ 1 ∧
      ∀ y ∈ r, keep ∧ y.1.v ≠ x.1.v := by
  induction xs using List.reverseRecOn with
  | nil => simp [winners]
  | append_singleton xs y ih =>
      rw [mem_winners_append, ih]
      constructor
      · rintro (⟨heven, rfl⟩ | ⟨hk, ⟨l, r, rfl, heven, hr⟩, hne⟩)
        · exact ⟨xs, [], rfl, heven, fun z hz => absurd hz List.not_mem_nil⟩
        · refine ⟨l, r ++ [y], by simp, heven, fun z hz => ?_⟩
          rcases List.mem_append.mp hz with hz | hz
          · exact hr z hz
          · rw [List.mem_singleton.mp hz]
            exact ⟨hk, hne.symm⟩
      · rintro ⟨l, r, hsplit, heven, hr⟩
        rcases List.eq_nil_or_concat r with rfl | ⟨r', z, rfl⟩
        · obtain ⟨rfl, hxy⟩ := List.append_inj' hsplit rfl
          rw [List.cons.injEq] at hxy
          exact Or.inl ⟨hxy.1 ▸ heven, hxy.1.symm⟩
        · have hsplit : xs ++ [y] = (l ++ x :: r') ++ [z] := by simpa using hsplit
          obtain ⟨rfl, hyz⟩ := List.append_inj' hsplit rfl
          rw [List.cons.injEq] at hyz
          obtain ⟨rfl, -⟩ := hyz
          obtain ⟨hk, hne⟩ := hr y (by simp)
          exact Or.inr ⟨hk, ⟨l, r', rfl, heven, fun w hw => hr w (by simp [hw])⟩, hne.symm⟩

/--
**The winners of a group.**  Of keys in increasing order, those are left that are
assertions and not below a later key of the group, or, when the map is kept, not
below a later key with their payload.
-/
theorem mem_winners (keep : Prop) [Decidable keep] {xs : List Entry}
    (hxs : xs.Pairwise fun x y => x.1.coords < y.1.coords) (x : Entry) :
    x ∈ winners keep xs ↔ x ∈ xs ∧ x.1.t % 2 ≠ 1 ∧
      ∀ y ∈ xs, (keep → y.1.v = x.1.v) → y.1.coords ≤ x.1.coords := by
  induction xs using List.reverseRecOn generalizing x with
  | nil => simp [winners]
  | append_singleton xs y ih =>
      obtain ⟨hinit, -, hlast⟩ := List.pairwise_append.mp hxs
      have hy : ∀ z ∈ xs, z.1.coords < y.1.coords := fun z hz => hlast z hz y (by simp)
      have ih := ih hinit
      rw [mem_winners_append]
      constructor
      · rintro (⟨heven, rfl⟩ | ⟨hk, hx, hne⟩)
        · refine ⟨by simp, heven, fun z hz _ => ?_⟩
          rcases List.mem_append.mp hz with hz | hz
          · exact (hy z hz).le
          · rw [List.mem_singleton.mp hz]
        · obtain ⟨hmem, heven, hmax⟩ := (ih x).mp hx
          refine ⟨by simp [hmem], heven, fun z hz hzv => ?_⟩
          rcases List.mem_append.mp hz with hz | hz
          · exact hmax z hz hzv
          · rw [List.mem_singleton.mp hz] at hzv
            exact absurd (hzv hk).symm hne
      · rintro ⟨hmem, heven, hmax⟩
        rcases List.mem_append.mp hmem with hmem | hmem
        · refine Or.inr ?_
          have hnot : ¬ (keep → y.1.v = x.1.v) := fun hc =>
            absurd (hmax y (by simp) hc) (not_le.mpr (hy x hmem))
          push Not at hnot
          refine ⟨hnot.1, (ih x).mpr ⟨hmem, heven, fun z hz => hmax z (by simp [hz])⟩, ?_⟩
          exact fun hc => hnot.2 hc.symm
        · have hxy := List.mem_singleton.mp hmem
          exact Or.inl ⟨hxy ▸ heven, hxy⟩

theorem winners_subset (keep : Prop) [Decidable keep] (xs : List Entry) : winners keep xs ⊆ xs := by
  induction xs using List.reverseRecOn with
  | nil => intro x hx; exact hx
  | append_singleton xs y ih =>
      intro x hx
      rw [winners_append, takeKey] at hx
      have hor : x = y ∨ x ∈ (if keep then winners keep xs else []) := by
        split at hx
        · exact Or.inr (List.mem_of_mem_filter hx)
        · rcases List.mem_cons.mp hx with h | h
          · exact Or.inl h
          · exact Or.inr (List.mem_of_mem_filter h)
      rcases hor with rfl | h
      · simp
      · split at h
        · exact List.mem_append_left _ (ih h)
        · exact absurd h (by simp)

/-- Winners are assertions. -/
theorem winners_even (keep : Prop) [Decidable keep] (xs : List Entry) :
    ∀ x ∈ winners keep xs, x.1.t % 2 ≠ 1 := by
  induction xs using List.reverseRecOn with
  | nil => intro x hx; exact absurd hx List.not_mem_nil
  | append_singleton xs y ih =>
      intro x hx
      have hm : ∀ x ∈ (if keep then winners keep xs else []), x.1.t % 2 ≠ 1 := by
        split
        · exact ih
        · simp
      rw [winners_append, takeKey] at hx
      split at hx
      · exact hm x (List.mem_of_mem_filter hx)
      · rename_i heven
        rcases List.mem_cons.mp hx with rfl | hx
        · exact heven
        · exact hm x (List.mem_of_mem_filter hx)

/-- Winners have different payloads. -/
theorem winners_payload (keep : Prop) [Decidable keep] (xs : List Entry) :
    (winners keep xs).Pairwise fun x y => x.1.v ≠ y.1.v := by
  have hfilter : ∀ (m : List Entry) (p : Entry → Bool),
      m.Pairwise (fun x y => x.1.v ≠ y.1.v) → (m.filter p).Pairwise fun x y => x.1.v ≠ y.1.v :=
    fun m p h => h.filter p
  induction xs using List.reverseRecOn with
  | nil => exact List.Pairwise.nil
  | append_singleton xs y ih =>
      have hm : (if keep then winners keep xs else []).Pairwise fun x y => x.1.v ≠ y.1.v := by
        split
        · exact ih
        · exact List.Pairwise.nil
      rw [winners_append, takeKey]
      split
      · exact hfilter _ _ hm
      · refine List.pairwise_cons.mpr ⟨fun z hz => ?_, hfilter _ _ hm⟩
        exact fun hc => by simpa [hc] using (List.mem_filter.mp hz).2

/-! ### Groups of a namespace -/

/-- Groups in the order the answer lists them. -/
def groupLt (g h : Int × Int) : Prop := g.1 < h.1 ∨ (g.1 = h.1 ∧ g.2 < h.2)

theorem groupLt_trans (f g h : Int × Int) (h1 : groupLt f g) (h2 : groupLt g h) : groupLt f h := by
  unfold groupLt at *
  omega

theorem groupLt_irrefl (g : Int × Int) : ¬ groupLt g g := by
  unfold groupLt
  omega

theorem mem_visible {s : Store} {ns : Nat} {bound : Int} {x : Entry} :
    x ∈ visible s ns bound ↔ x ∈ s ∧ x.1.ns = ns ∧ x.1.sort = sortEATV ∧ x.1.t ≤ bound := by
  simp only [visible, List.mem_filter, inEATV_iff, and_assoc]
  simp

theorem mem_visibleA {s : Store} {ns : Nat} {a bound : Int} {x : Entry} :
    x ∈ visibleA s ns a bound ↔
      x ∈ s ∧ x.1.a = a ∧ x.1.ns = ns ∧ x.1.sort = sortAETV ∧ x.1.t ≤ bound := by
  simp only [visibleA, List.mem_filter, inAETV_iff, and_assoc]
  simp

theorem visible_sorted {s : Store} (hs : StoreOk s) (ns : Nat) (bound : Int) :
    (visible s ns bound).Pairwise fun x y => x.1.coords < y.1.coords :=
  ((hs.filter _).filter _).sorted

theorem visibleA_sorted {s : Store} (hs : StoreOk s) (ns : Nat) (a bound : Int) :
    (visibleA s ns a bound).Pairwise fun x y => x.1.coords < y.1.coords :=
  ((hs.filter _).filter _).sorted

/-- In one namespace, `EATV` keys are ordered by group first, then by time and value. -/
theorem coords_lt_EATV {x y : CustomKey} (hx : x.IsDatom) (hy : y.IsDatom)
    (hxs : x.sort = sortEATV) (hys : y.sort = sortEATV) (hns : x.ns = y.ns) :
    x.coords < y.coords ↔ groupLt (x.e, x.a) (y.e, y.a) ∨
      ((x.e, x.a) = (y.e, y.a) ∧ x.tv < y.tv) := by
  rw [coords_EATV hx hxs, coords_EATV hy hys, hns]
  simp only [List.cons_lt_cons_iff, lt_irrefl, false_or, true_and, groupLt, Prod.mk.injEq]
  tauto

theorem coords_le_EATV {x y : CustomKey} (hx : x.IsDatom) (hy : y.IsDatom)
    (hxs : x.sort = sortEATV) (hys : y.sort = sortEATV) (hns : x.ns = y.ns)
    (he : x.e = y.e) (ha : x.a = y.a) : x.coords ≤ y.coords ↔ x.tv ≤ y.tv := by
  rw [← not_lt, ← not_lt, coords_lt_EATV hy hx hys hxs hns.symm, he, ha]
  simp [groupLt_irrefl]

theorem visible_grouped {s : Store} (hs : StoreOk s) (ns : Nat) (bound : Int) :
    Grouped groupLt groupOf (visible s ns bound) := by
  have hmem : ∀ x ∈ visible s ns bound, x.1.IsDatom ∧ x.1.sort = sortEATV ∧ x.1.ns = ns := by
    intro x hx
    obtain ⟨hxs, hxn, hxsort, -⟩ := mem_visible.mp hx
    exact ⟨isDatom_of_sort (hs.keys x hxs) (Or.inl hxsort), hxsort, hxn⟩
  refine (visible_sorted hs ns bound).imp_of_mem ?_
  intro x y hx hy hlt
  obtain ⟨hxd, hxs, hxn⟩ := hmem x hx
  obtain ⟨hyd, hys, hyn⟩ := hmem y hy
  rcases (coords_lt_EATV hxd hyd hxs hys (hxn.trans hyn.symm)).mp hlt with h | ⟨h, -⟩
  · exact Or.inr h
  · exact Or.inl h

/-! ### The answer

`Answered` is the declarative meaning of the loop: which stored keys a reply at
`tx` shows.  `factsKeys` are those keys in the order of the reply.
-/

/-- The fact a reply shows for a key. -/
def factOf (x : Entry) : Fact :=
  { e := x.1.e, a := x.1.a, v := decode x, tx := x.1.t / 2, retract := false }

/-- `K(e, a)`: the `EATV` keys of a namespace, entity and attribute up to a transaction. -/
def InGroup (s : Store) (ns : Nat) (tx e a : Int) (x : Entry) : Prop :=
  x ∈ s ∧ x.1.ns = ns ∧ x.1.sort = sortEATV ∧ x.1.e = e ∧ x.1.a = a ∧ x.1.t ≤ 2 * tx + 1

/-- The attributes that `query_a` finds to be of cardinality many. -/
def IsMany (s : Store) (ns : Nat) (tx a : Int) : Prop :=
  ∃ d ∈ queryA s ns tx dbCardinality, d.e = a ∧ d.v = .int dbCardinalityMany

/-- A key is shown if it asserts and no key of its group, or of its payload in it, is greater. -/
structure Answered (s : Store) (ns : Nat) (tx : Int) (x : Entry) : Prop where
  inGroup : InGroup s ns tx x.1.e x.1.a x
  even : x.1.t % 2 = 0
  greatest : ∀ y, InGroup s ns tx x.1.e x.1.a y → (IsMany s ns tx x.1.a → y.1.v = x.1.v) →
    y.1.tv ≤ x.1.tv

/-- No cardinality is given as a string. -/
def CardinalitiesInt (s : Store) : Prop :=
  ∀ x ∈ s, x.1.IsDatom → x.1.a = dbCardinality → x.1.type = .keyInteger

/-- No value of an attribute is a string in a namespace. -/
def SchemaInt (s : Store) (ns : Nat) (a : Int) : Prop :=
  ∀ x ∈ s, x.1.ns = ns → x.1.IsDatom → x.1.a = a → x.1.type = .keyInteger

theorem CardinalitiesInt.schemaInt {s : Store} (h : CardinalitiesInt s) (ns : Nat) :
    SchemaInt s ns dbCardinality := fun x hx _ => h x hx

/-- A string is stored under the payload and pad that its own bytes encode to. -/
def EncodedAs (sha256 : Bytes → Value) (x : Entry) : Prop :=
  x.1.type = .keyBlob →
    ∃ str, decode x = .str str ∧ x.1.v = (encodeStr sha256 str).v ∧
      x.1.pad = (encodeStr sha256 str).pad

def factsKeys (many : List Int) (vis : List Entry) : List Entry :=
  (batches groupOf vis).flatMap fun b => winners (b.1.2 ∈ many) b.2

theorem txBound_eq {tx : Int} (h0 : 0 ≤ tx) (h1 : tx < 2 ^ 62) : txBound tx = 2 * tx + 1 := by
  unfold txBound
  rw [toInt64_eq_self (by omega) (by omega)]

/-- The keys a query returns, entity by entity. -/
def queryKeys (vis : List Entry) : List Entry :=
  (batches (fun x : Entry => x.1.e) vis).flatMap fun b => winners True b.2

/-- The datom a query returns for a key. -/
def datomOf (a : Int) (x : Entry) : Datom := ⟨x.1.e, a, decode x, x.1.t / 2⟩

section Query

variable {vis : List Entry} (hg : Grouped (· < ·) (fun x : Entry => x.1.e) vis)

include hg

theorem mem_entities (b : Int × List Entry) :
    b ∈ batches (fun x : Entry => x.1.e) vis ↔
      b.1 ∈ vis.map (fun x => x.1.e) ∧ b.2 = vis.filter fun x => x.1.e = b.1 :=
  mem_batches (R := (· < ·)) (fun _ _ _ => lt_trans) (fun a => lt_irrefl a) hg b

theorem mem_entity_winners {b : Int × List Entry} (hb : b ∈ batches (fun x : Entry => x.1.e) vis)
    {x : Entry} (hx : x ∈ winners True b.2) : x.1.e = b.1 := by
  have hx := winners_subset _ _ hx
  rw [((mem_entities hg b).mp hb).2] at hx
  simpa using (List.mem_filter.mp hx).2

theorem datomsOf_eq (a : Int) : datomsOf a vis = (queryKeys vis).map (datomOf a) := by
  unfold datomsOf queryKeys
  rw [List.map_flatMap]
  refine List.flatMap_congr fun b hb => ?_
  rw [foldl_take, queryBatch, List.map_map]
  refine List.map_congr_left fun x hx => ?_
  show Datom.mk b.1 a (decode x) (x.1.t / 2) = datomOf a x
  rw [← mem_entity_winners hg hb hx]
  rfl

/-- A query returns the winners of each entity, with the map kept. -/
theorem mem_queryKeys (hsorted : vis.Pairwise fun x y => x.1.coords < y.1.coords) (x : Entry) :
    x ∈ queryKeys vis ↔ x ∈ vis ∧ x.1.t % 2 ≠ 1 ∧
      ∀ y ∈ vis, y.1.e = x.1.e → y.1.v = x.1.v → y.1.coords ≤ x.1.coords := by
  constructor
  · intro hx
    obtain ⟨b, hb, hx⟩ := List.mem_flatMap.mp hx
    have hex := mem_entity_winners hg hb hx
    rw [((mem_entities hg b).mp hb).2, mem_winners _ (hsorted.filter _), List.mem_filter] at hx
    obtain ⟨⟨hmem, -⟩, heven, hmax⟩ := hx
    refine ⟨hmem, heven, fun y hy hye hv => hmax y ?_ fun _ => hv⟩
    rw [List.mem_filter]
    exact ⟨hy, by simpa using hye.trans hex⟩
  · rintro ⟨hmem, heven, hmax⟩
    refine List.mem_flatMap.mpr ⟨(x.1.e, vis.filter fun y => y.1.e = x.1.e), ?_, ?_⟩
    · exact (mem_entities hg _).mpr ⟨List.mem_map_of_mem hmem, rfl⟩
    · refine (mem_winners _ (hsorted.filter _) x).mpr ⟨?_, heven, fun y hy hv => ?_⟩
      · exact List.mem_filter.mpr ⟨hmem, by simp⟩
      · obtain ⟨hy, hye⟩ := List.mem_filter.mp hy
        exact hmax y hy (by simpa using hye) (hv trivial)

/-- No two of them have the same entity and payload. -/
theorem queryKeys_pairwise :
    (queryKeys vis).Pairwise fun x y => x.1.e = y.1.e → x.1.v ≠ y.1.v := by
  unfold queryKeys
  rw [List.pairwise_flatMap]
  constructor
  · intro b _
    refine (winners_payload True b.2).imp ?_
    intro x y hne _
    exact hne
  · refine (batches_sorted (R := (· < ·)) (fun _ _ _ => lt_trans) hg).imp_of_mem ?_
    intro b c hb hc hlt x hx y hy he
    rw [mem_entity_winners hg hb hx, mem_entity_winners hg hc hy] at he
    exact absurd he hlt.ne

/-- The datoms of a query. -/
theorem mem_datomsOf {a : Int} (hsorted : vis.Pairwise fun x y => x.1.coords < y.1.coords)
    {d : Datom} :
    d ∈ datomsOf a vis ↔ ∃ x ∈ vis, d = ⟨x.1.e, a, decode x, x.1.t / 2⟩ ∧ x.1.t % 2 ≠ 1 ∧
      ∀ y ∈ vis, y.1.e = x.1.e → y.1.v = x.1.v → y.1.coords ≤ x.1.coords := by
  rw [datomsOf_eq hg, List.mem_map]
  constructor
  · rintro ⟨x, hx, rfl⟩
    obtain ⟨hmem, heven, hmax⟩ := (mem_queryKeys hg hsorted x).mp hx
    exact ⟨x, hmem, rfl, heven, hmax⟩
  · rintro ⟨x, hmem, rfl, heven, hmax⟩
    exact ⟨x, (mem_queryKeys hg hsorted x).mpr ⟨hmem, heven, hmax⟩, rfl⟩

end Query

/-- In any store, what `query_a` returns is read off keys of the attribute that assert. -/
theorem mem_queryA {s : Store} {ns : Nat} {tx a : Int} {d : Datom} (hd : d ∈ queryA s ns tx a) :
    ∃ x ∈ s, x.1.a = a ∧ x.1.sort = sortAETV ∧ x.1.t % 2 ≠ 1 ∧ d.v = decode x := by
  rw [queryA_scan, datomsOf] at hd
  obtain ⟨b, hb, hd⟩ := List.mem_flatMap.mp hd
  rw [foldl_take, queryBatch, List.map_map] at hd
  obtain ⟨x, hx, rfl⟩ := List.mem_map.mp hd
  have hmem := mem_of_mem_batches b hb x (winners_subset _ _ hx)
  have htake := List.mem_of_mem_filter hmem
  have hin := inAETV_iff.mp (List.all_eq_true.mp List.all_takeWhile x htake)
  refine ⟨x, ?_, hin.1, hin.2.2, winners_even _ _ x hx, rfl⟩
  exact (List.dropWhile_sublist _).subset ((List.takeWhile_sublist _).subset htake)

theorem visibleA_grouped {s : Store} (hs : StoreOk s) (ns : Nat) (a bound : Int) :
    Grouped (· < ·) (fun x : Entry => x.1.e) (visibleA s ns a bound) := by
  refine (visibleA_sorted hs ns a bound).imp_of_mem ?_
  intro x y hx hy hlt
  obtain ⟨hxs, hxa, hxn, hxsort, -⟩ := mem_visibleA.mp hx
  obtain ⟨hys, hya, hyn, hysort, -⟩ := mem_visibleA.mp hy
  have hxd := isDatom_of_sort (hs.keys x hxs) (Or.inr hxsort)
  have hyd := isDatom_of_sort (hs.keys y hys) (Or.inr hysort)
  rw [coords_AETV hxd hxsort, coords_AETV hyd hysort, hxn, hyn, hxa, hya] at hlt
  simp only [List.cons_lt_cons_iff, lt_irrefl, false_or, true_and] at hlt
  show x.1.e = y.1.e ∨ x.1.e < y.1.e
  omega

/-- Where every value is an integer, so is every value a query returns. -/
theorem queryA_int {s : Store} (hs : StoreOk s) (hpos : Positive s) {ns : Nat} (hns : ns < 2 ^ 31)
    {a : Int} (hint : SchemaInt s ns a) (tx : Int) :
    ∀ d ∈ queryA s ns tx a, ∃ i, d.v = .int i := by
  intro d hd
  rw [queryA_eq hs hpos hns, mem_datomsOf (visibleA_grouped hs _ _ _)
    (visibleA_sorted hs _ _ _)] at hd
  obtain ⟨x, hx, rfl, -⟩ := hd
  obtain ⟨hxs, hxa, hxn, hxsort, -⟩ := mem_visibleA.mp hx
  have htype := hint x hxs hxn (isDatom_of_sort (hs.keys x hxs) (Or.inr hxsort)) hxa
  exact ⟨x.1.v.i, by simp only [decode, htype]⟩

/-- There what the union leaves unset is never read. -/
theorem mem_manySet {o : Oracle} (ho : o.Faultless) {s : Store} (hs : StoreOk s)
    (hpos : Positive s) {ns : Nat} (hcard : SchemaInt s ns dbCardinality) (hns : ns < 2 ^ 31)
    (tx a : Int) : a ∈ manySet o s ns tx ↔ IsMany s ns tx a := by
  have hint := queryA_int hs hpos hns hcard tx
  unfold manySet queryOr IsMany
  rw [ho]
  simp only [Bool.false_eq_true, if_false, List.mem_map, List.mem_filter, decide_eq_true_eq]
  constructor
  · rintro ⟨d, ⟨hd, hi⟩, he⟩
    obtain ⟨i, hv⟩ := hint d hd
    refine ⟨d, hd, he, ?_⟩
    simp only [Datom.i, hv] at hi
    rw [hv, hi]
  · rintro ⟨d, hd, he, hv⟩
    exact ⟨d, ⟨hd, by simp only [Datom.i, hv]⟩, he⟩

theorem factsOf_eq (many : List Int) (vis : List Entry) :
    factsOf many vis = (factsKeys many vis).map factOf := by
  unfold factsOf factsKeys
  rw [List.map_flatMap]
  refine List.flatMap_congr fun b hb => ?_
  have hgroup := group_of_mem_batches b hb
  rw [foldl_factsTake many b.1.2 b.2 fun x hx => by rw [← hgroup x hx]; rfl, factsBatch,
    List.map_map]
  refine List.map_congr_left fun x hx => ?_
  have := hgroup x (winners_subset _ _ hx)
  show Fact.mk b.1.1 b.1.2 (decode x) (x.1.t / 2) false = factOf x
  rw [← this]
  rfl

theorem mem_factsKeys {many : List Int} {vis : List Entry} (hg : Grouped groupLt groupOf vis)
    (hsorted : vis.Pairwise fun x y => x.1.coords < y.1.coords) (x : Entry) :
    x ∈ factsKeys many vis ↔ x ∈ vis ∧ x.1.t % 2 ≠ 1 ∧
      ∀ y ∈ vis, groupOf y = groupOf x → (x.1.a ∈ many → y.1.v = x.1.v) →
        y.1.coords ≤ x.1.coords := by
  have hbatch := mem_batches groupLt_trans groupLt_irrefl hg
  constructor
  · intro hx
    obtain ⟨b, hb, hx⟩ := List.mem_flatMap.mp hx
    obtain ⟨-, hb2⟩ := (hbatch b).mp hb
    rw [hb2, mem_winners _ (hsorted.filter _), List.mem_filter] at hx
    obtain ⟨⟨hmem, hgx⟩, heven, hmax⟩ := hx
    have hgx : groupOf x = b.1 := by simpa using hgx
    refine ⟨hmem, heven, fun y hy hgy hv => hmax y ?_ ?_⟩
    · rw [List.mem_filter]
      exact ⟨hy, by simpa using hgy.trans hgx⟩
    · rw [← hgx]; exact hv
  · rintro ⟨hmem, heven, hmax⟩
    refine List.mem_flatMap.mpr ⟨(groupOf x, vis.filter fun y => groupOf y = groupOf x), ?_, ?_⟩
    · exact (hbatch _).mpr ⟨List.mem_map_of_mem hmem, rfl⟩
    · rw [mem_winners _ (hsorted.filter _), List.mem_filter]
      refine ⟨⟨hmem, by simp⟩, heven, fun y hy hv => ?_⟩
      obtain ⟨hy, hgy⟩ := List.mem_filter.mp hy
      exact hmax y hy (by simpa using hgy) hv

/-- The keys of a reply come group by group, and in one group with different payloads. -/
theorem factsKeys_pairwise {many : List Int} {vis : List Entry} (hg : Grouped groupLt groupOf vis) :
    (factsKeys many vis).Pairwise fun x y =>
      groupLt (groupOf x) (groupOf y) ∨ (groupOf x = groupOf y ∧ x.1.v ≠ y.1.v) := by
  have hbatch := mem_batches groupLt_trans groupLt_irrefl hg
  have hgroup : ∀ b ∈ batches groupOf vis, ∀ x ∈ winners (b.1.2 ∈ many) b.2, groupOf x = b.1 := by
    intro b hb x hx
    have hx := winners_subset _ _ hx
    rw [((hbatch b).mp hb).2] at hx
    simpa using (List.mem_filter.mp hx).2
  unfold factsKeys
  rw [List.pairwise_flatMap]
  constructor
  · intro b hb
    refine (winners_payload _ b.2).imp_of_mem fun {x y} hx hy hne => ?_
    exact Or.inr ⟨(hgroup b hb x hx).trans (hgroup b hb y hy).symm, hne⟩
  · refine (batches_sorted groupLt_trans hg).imp_of_mem fun {b c} hb hc hlt x hx y hy => ?_
    rw [hgroup b hb x hx, hgroup c hc y hy]
    exact Or.inl hlt

/-- Keys of one group that show the same fact have the same payload. -/
theorem payload_eq_of_factOf {sha256 : Bytes → Value} {x y : Entry} (hx : InRange x.1)
    (hy : InRange y.1) (hxs : x.1.sort = sortEATV) (hys : y.1.sort = sortEATV)
    (hns : x.1.ns = y.1.ns) (hxe : EncodedAs sha256 x) (hye : EncodedAs sha256 y)
    (hxt : x.1.t % 2 = 0) (hyt : y.1.t % 2 = 0) (h : factOf x = factOf y) :
    x.1.v = y.1.v ∨ x.1.coords = y.1.coords := by
  have hxd := isDatom_of_sort hx (Or.inl hxs)
  have hyd := isDatom_of_sort hy (Or.inl hys)
  obtain ⟨he, ha, hv, htx⟩ : x.1.e = y.1.e ∧ x.1.a = y.1.a ∧ decode x = decode y ∧
      x.1.t / 2 = y.1.t / 2 := by
    simpa [factOf] using h
  rcases hxd.1 with hxi | hxb <;> rcases hyd.1 with hyi | hyb
  · refine Or.inr ((coords_eq_datom hxd hyd).mpr ⟨hns, hxs.trans hys.symm, he, ha, ?_⟩)
    simp only [decode, hxi, hyi, FactValue.int.injEq] at hv
    simp only [CustomKey.tv, CustomKey.valueCoords, hxi, hyi, hv, List.cons.injEq, and_true]
    omega
  · obtain ⟨str, hstr, -⟩ := hye hyb
    rw [hstr] at hv
    simp [decode, hxi] at hv
  · obtain ⟨str, hstr, -⟩ := hxe hxb
    rw [hstr] at hv
    simp [decode, hyi] at hv
  · obtain ⟨str, hstr, hsv, -⟩ := hxe hxb
    obtain ⟨str', hstr', hsv', -⟩ := hye hyb
    have : str = str' := by simpa [hstr, hstr'] using hv
    exact Or.inl (by rw [hsv, hsv', this])

/-- The keys a reply at `tx` shows, in its order. -/
def shownKeys (o : Oracle) (s : Store) (ns : Nat) (tx : Int) : List Entry :=
  factsKeys (manySet o s ns tx) (visible s ns (txBound tx))

section Answer

variable {o : Oracle} {s : Store} {ns : Nat} {tx : Int}

theorem handleFactsAt_shown (ho : o.Faultless) (hs : StoreOk s) (hpos : Positive s)
    (hns : ns < 2 ^ 31) (hne : ∃ x ∈ s, x.1.ns = ns ∧ x.1.sort = sortEATV) :
    handleFactsAt o s ns tx = .facts tx ((shownKeys o s ns tx).map factOf) := by
  obtain ⟨x, hx, hxn, hxs⟩ := hne
  rw [handleFactsAt_eq ho hs hpos hns ⟨x, hx, inEATV_iff.mpr ⟨hxn, hxs⟩⟩,
    factsOf_eq]
  rfl

/-- A key that a reply shows when it takes the attributes of a list to be of cardinality many. -/
structure Shown (many : List Int) (s : Store) (ns : Nat) (tx : Int) (x : Entry) : Prop where
  inGroup : InGroup s ns tx x.1.e x.1.a x
  even : x.1.t % 2 = 0
  greatest : ∀ y, InGroup s ns tx x.1.e x.1.a y → (x.1.a ∈ many → y.1.v = x.1.v) → y.1.tv ≤ x.1.tv

theorem mem_shownKeys_iff (hs : StoreOk s) (h0 : 0 ≤ tx) (h1 : tx < 2 ^ 62) (x : Entry) :
    x ∈ shownKeys o s ns tx ↔ Shown (manySet o s ns tx) s ns tx x := by
  have hdatom : ∀ y ∈ s, y.1.sort = sortEATV → y.1.IsDatom := fun y hy hsort =>
    isDatom_of_sort (hs.keys y hy) (Or.inl hsort)
  unfold shownKeys
  rw [mem_factsKeys (visible_grouped hs ns _) (visible_sorted hs ns _), mem_visible,
    txBound_eq h0 h1]
  constructor
  · rintro ⟨⟨hxs, hxn, hxsort, hxt⟩, heven, hmax⟩
    refine ⟨⟨hxs, hxn, hxsort, rfl, rfl, hxt⟩, by omega, fun y hy hv => ?_⟩
    obtain ⟨hys, hyn, hysort, hye, hya, hyt⟩ := hy
    have hle := hmax y (mem_visible.mpr ⟨hys, hyn, hysort, hyt⟩) (by simp [groupOf, hye, hya]) hv
    rwa [coords_le_EATV (hdatom y hys hysort) (hdatom x hxs hxsort) hysort hxsort
      (hyn.trans hxn.symm) hye hya] at hle
  · rintro ⟨⟨hxs, hxn, hxsort, -, -, hxt⟩, heven, hmax⟩
    refine ⟨⟨hxs, hxn, hxsort, hxt⟩, by omega, fun y hy hgy hv => ?_⟩
    obtain ⟨hys, hyn, hysort, hyt⟩ := mem_visible.mp hy
    obtain ⟨hye, hya⟩ : y.1.e = x.1.e ∧ y.1.a = x.1.a := by simpa [groupOf] using hgy
    rw [coords_le_EATV (hdatom y hys hysort) (hdatom x hxs hxsort) hysort hxsort
      (hyn.trans hxn.symm) hye hya]
    exact hmax y ⟨hys, hyn, hysort, hye, hya, hyt⟩ hv

theorem mem_shownKeys (ho : o.Faultless) (hs : StoreOk s) (hpos : Positive s)
    (hcard : CardinalitiesInt s) (hns : ns < 2 ^ 31) (h0 : 0 ≤ tx) (h1 : tx < 2 ^ 62) (x : Entry) :
    x ∈ shownKeys o s ns tx ↔ Answered s ns tx x := by
  have hmany := mem_manySet ho hs hpos (hcard.schemaInt ns) hns tx x.1.a
  rw [mem_shownKeys_iff hs h0 h1]
  constructor
  · intro h
    exact ⟨h.inGroup, h.even, fun y hy hv => h.greatest y hy fun hm => hv (hmany.mp hm)⟩
  · intro h
    exact ⟨h.inGroup, h.even, fun y hy hv => h.greatest y hy fun hm => hv (hmany.mpr hm)⟩

theorem shownKeys_pairwise (hs : StoreOk s) :
    (shownKeys o s ns tx).Pairwise fun x y =>
      groupLt (groupOf x) (groupOf y) ∨ (groupOf x = groupOf y ∧ x.1.v ≠ y.1.v) :=
  factsKeys_pairwise (visible_grouped hs ns _)

theorem shownKeys_nodup (hs : StoreOk s) : (shownKeys o s ns tx).Nodup := by
  refine (shownKeys_pairwise hs).imp fun {x y} h hc => ?_
  rcases h with h | ⟨-, h⟩
  · rw [hc] at h
    exact groupLt_irrefl _ h
  · exact h (by rw [hc])

private theorem shownKeys_facts_nodup {sha256 : Bytes → Value} (ho : o.Faultless) (hs : StoreOk s)
    (hpos : Positive s) (hcard : CardinalitiesInt s) (hns : ns < 2 ^ 31) (h0 : 0 ≤ tx)
    (h1 : tx < 2 ^ 62) (henc : ∀ x ∈ s, EncodedAs sha256 x) :
    ((shownKeys o s ns tx).map factOf).Nodup := by
  refine List.pairwise_map.mpr ((shownKeys_pairwise hs).imp_of_mem fun {x y} hx hy h hc => ?_)
  obtain ⟨⟨hxs, hxn, hxsort, -⟩, hxt, -⟩ := (mem_shownKeys ho hs hpos hcard hns h0 h1 x).mp hx
  obtain ⟨⟨hys, hyn, hysort, -⟩, hyt, -⟩ := (mem_shownKeys ho hs hpos hcard hns h0 h1 y).mp hy
  rcases h with h | ⟨-, h⟩
  · have hgr : groupOf x = groupOf y := by
      simp only [factOf, Fact.mk.injEq] at hc
      simp [groupOf, hc.1, hc.2.1]
    rw [hgr] at h
    exact groupLt_irrefl _ h
  · rcases payload_eq_of_factOf (hs.keys x hxs) (hs.keys y hys) hxsort hysort
      (hxn.trans hyn.symm) (henc x hxs) (henc y hys) hxt hyt hc with hv | hcoords
    · exact h hv
    · exact h (by rw [hs.unique hxs hys hcoords])

end Answer

/--
**What `handle_facts` answers.**  The facts shown are those of the answered keys,
each under its own entity and attribute, group after group and none twice.  Two
keys never show the same fact when strings are stored as they are encoded.
-/
theorem handleFacts_spec {sha256 : Bytes → Value} {o : Oracle} (ho : o.Faultless) {s : Store}
    (hs : StoreOk s) (hpos : Positive s) (hcard : CardinalitiesInt s) {ns : Nat} (hns : ns < 2 ^ 31)
    (hne : ∃ x ∈ s, x.1.ns = ns ∧ x.1.sort = sortEATV) {tx : Int64} (h0 : 0 ≤ tx.toInt)
    (h1 : tx.toInt < 2 ^ 29) :
    ∃ ks : List Entry,
      handleFacts o s ns (some (.int64 tx)) = .facts tx.toInt (ks.map factOf) ∧
      (∀ x, x ∈ ks ↔ Answered s ns tx.toInt x) ∧
      ks.Nodup ∧
      ks.Pairwise (fun x y => groupOf x = groupOf y ∨ groupLt (groupOf x) (groupOf y)) ∧
      ((∀ x ∈ s, EncodedAs sha256 x) → (ks.map factOf).Nodup) := by
  refine ⟨shownKeys o s ns tx.toInt, ?_,
    mem_shownKeys ho hs hpos hcard hns h0 (by omega), shownKeys_nodup hs, ?_,
    shownKeys_facts_nodup ho hs hpos hcard hns h0 (by omega)⟩
  · rw [handleFacts_of_nonneg ho s ns h0]
    exact handleFactsAt_shown ho hs hpos hns hne
  · refine (shownKeys_pairwise hs).imp fun {x y} h => ?_
    rcases h with h | ⟨h, -⟩
    · exact Or.inr h
    · exact Or.inl h

/-- Two facts, and the retraction of the first. -/
def sampleStore : Store :=
  [(intKey 0 sortEATV 11 100 2 5, .blob []), (intKey 0 sortEATV 11 100 5 5, .blob []),
    (intKey 0 sortEATV 12 100 4 6, .blob [])]

private theorem sampleStore_ok : StoreOk sampleStore := by
  refine ⟨?_, by decide⟩
  simp only [sampleStore, List.forall_mem_cons]
  refine ⟨intKey_inRange ?_ (Or.inl rfl) ?_ ?_ ?_ ?_, intKey_inRange ?_ (Or.inl rfl) ?_ ?_ ?_ ?_,
    intKey_inRange ?_ (Or.inl rfl) ?_ ?_ ?_ ?_, by simp⟩ <;> norm_num

theorem handleFacts_spec_sample :
    ∃ ks : List Entry,
      handleFacts .calm sampleStore 0 (some (.int64 2)) =
        .facts 2 (ks.map factOf) ∧
      (∀ x, x ∈ ks ↔ Answered sampleStore 0 2 x) ∧
      ks.Nodup ∧
      ks.Pairwise (fun x y => groupOf x = groupOf y ∨ groupLt (groupOf x) (groupOf y)) ∧
      ((∀ x ∈ sampleStore, EncodedAs .ofBytes x) → (ks.map factOf).Nodup) :=
  handleFacts_spec Oracle.calm_faultless sampleStore_ok (by unfold Positive; decide)
    (by unfold CardinalitiesInt; decide) (by decide) ⟨_, List.mem_cons_self, rfl, rfl⟩ (by decide)
    (by decide)

end Nstore
