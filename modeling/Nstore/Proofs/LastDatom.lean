/-
Where `last_datom` finds the last datom.

`Proofs/Index.lean` follows the searches a transaction makes.  Here the key in
`*start` is of any type and its group lies anywhere, the store being an ordered map
of keys in range.  A group is found if it is asked for with a datom key and some key
of the database lies past it; at the end of the database the first search fails.

The function never looks at the type or the sort order of the key it steps back to.
So where there is no group, an index key or an `AETV` key of the same entity and
attribute is taken for one, if it is the last key before the place searched for.
-/
import Nstore.Proofs.Index
import Nstore.Proofs.Tempids

namespace Nstore

open LexDiff

/--
A key lies at the place `last_datom` searches for, or past it.  For a datom key that
is past the group of its entity and attribute; an index key is compared as one.
-/
def AtOrPast (start k : CustomKey) : Prop :=
  start.ns < k.ns ∨ start.ns = k.ns ∧
    match start.type with
    | .keyMeta => k.type ≠ .keyMeta ∨ start.e ≤ k.e
    | .keyUnique => k.IsDatom ∨ k.type = .keyUnique ∧
        (start.a + 1 < k.a ∨ start.a + 1 = k.a ∧ memcmp start.v.bytes k.v.bytes ≤ 0)
    | .keyTxLog => k.IsDatom
    | _ => k.sort = sortEATV ∧ (start.e < k.e ∨ start.e = k.e ∧ start.a < k.a)

/-- The last entry before that place, where there is one at or past it. -/
structure StepsBackTo (s : Store) (start : CustomKey) (x : Entry) : Prop where
  mem : x ∈ s
  before : ¬ AtOrPast start x.1
  last : ∀ y ∈ s, customKeyCompare x.1 y.1 < 0 → AtOrPast start y.1
  past : ∃ z ∈ s, AtOrPast start z.1

/-- `last_datom` finds a key if its group has one, and then the greatest of the group. -/
structure FindsGreatest (s : Store) (start : CustomKey) : Prop where
  found_iff : (lastDatom s start).isSome ↔ ∃ x ∈ s, SameGroup start x
  greatest : ∀ last, lastDatom s start = some last →
    ∃ d, (last, d) ∈ s ∧ SameGroup start (last, d) ∧ ∀ y ∈ s, SameGroup start y → y.1.tv ≤ last.tv

section Last

variable {s : Store} {start : CustomKey}

/-! ### Which keys are searched past -/

theorem memcmp_nonpos_iff {xs ys : Bytes} (h : xs.length = ys.length) :
    memcmp xs ys ≤ 0 ↔ byteCoords xs ≤ byteCoords ys := by
  rw [memcmp_eq, ← not_lt, ← not_lt, ← firstDiff_neg_iff (aligned_bytes h.symm), firstDiff_swap]
  omega

/-- Where a datom key is asked for, only keys past its group are past the search. -/
theorem atOrPast_of_family (hfam : start.type.family = 3) (k : CustomKey) :
    AtOrPast start k ↔ start.ns < k.ns ∨ start.ns = k.ns ∧ k.sort = sortEATV ∧
      (start.e < k.e ∨ start.e = k.e ∧ start.a < k.a) := by
  unfold AtOrPast
  cases hty : start.type <;> first | rfl | exact absurd hfam (by rw [hty]; decide)

/-- The family of a stored key, and what follows it in the coordinates. -/
theorem coords_cases {k : CustomKey} (hk : InRange k) :
    (k.type = .keyMeta ∧ k.sort = 0 ∧ k.coords = [(k.ns : Int), 0, k.e]) ∨
    (k.type = .keyUnique ∧ k.sort = 0 ∧
      k.coords = (k.ns : Int) :: 1 :: k.a :: byteCoords k.v.bytes) ∨
    (k.IsDatom ∧ k.sort = sortEATV ∧
      k.coords = (k.ns : Int) :: 3 :: (sortEATV : Int) :: k.e :: k.a :: k.tv) ∨
    (k.IsDatom ∧ k.sort = sortAETV ∧
      k.coords = (k.ns : Int) :: 3 :: (sortAETV : Int) :: k.a :: k.e :: k.tv) := by
  rcases hk.kind with ⟨ht, hs⟩ | ⟨ht, hs⟩ | hd
  · exact Or.inl ⟨ht, hs, by simp only [CustomKey.coords, ht]⟩
  · exact Or.inr (Or.inl ⟨ht, hs, by simp only [CustomKey.coords, ht]⟩)
  · rcases hd.2 with hs | hs
    · exact Or.inr (Or.inr (Or.inl ⟨hd, hs, coords_EATV hd hs⟩))
    · exact Or.inr (Or.inr (Or.inr ⟨hd, hs, coords_AETV hd hs⟩))

theorem CustomKey.IsDatom.type_ne_meta {k : CustomKey} (hd : k.IsDatom) : k.type ≠ .keyMeta :=
  fun ht => not_isDatom_of_meta ht hd

private theorem atOrPast_iff_of_family (h : Asked start) (hfam : start.type.family = 3)
    {k : CustomKey} (hk : InRange k) : AtOrPast start k ↔ (lastProbe start).coords ≤ k.coords := by
  rw [atOrPast_of_family hfam, h.probe_coords hfam]
  have ht := hk.t_range
  rcases coords_cases hk with ⟨-, hs, hc⟩ | ⟨-, hs, hc⟩ | ⟨-, hs, hc⟩ | ⟨-, hs, hc⟩
  · rw [hc, hs]
    simp [cons_le_cons_iff, sortEATV, makeSort, Sorting.code]
  · rw [hc, hs]
    simp [cons_le_cons_iff, sortEATV, makeSort, Sorting.code]
  · -- no stored `t` is before the -1 of the probe
    rw [hc, hs, CustomKey.tv]
    simp only [cons_le_cons_iff, lt_irrefl, false_or, true_and]
    grind
  · rw [hc, hs]
    simp [cons_le_cons_iff, sortEATV, sortAETV, makeSort, Sorting.code]

private theorem atOrPast_iff_of_meta (hty : start.type = .keyMeta) {k : CustomKey}
    (hk : InRange k) :
    AtOrPast start k ↔ (lastProbe start).coords ≤ k.coords := by
  have hp : (lastProbe start).coords = [(start.ns : Int), 0, start.e] := by
    simp only [CustomKey.coords, lastProbe, hty]
  have hle : start.e ≤ k.e ↔ start.e < k.e ∨ start.e = k.e := le_iff_lt_or_eq
  simp only [AtOrPast, hty]
  rw [hp]
  rcases coords_cases hk with ⟨ht, -, hc⟩ | ⟨ht, -, hc⟩ | ⟨hd, -, hc⟩ | ⟨hd, -, hc⟩
  · simp [hc, ht, hle, cons_le_cons_iff]
  · simp [hc, ht, cons_le_cons_iff]
  · simp [hc, hd.type_ne_meta, cons_le_cons_iff]
  · simp [hc, hd.type_ne_meta, cons_le_cons_iff]

private theorem atOrPast_iff_of_unique (h : Asked start) (hty : start.type = .keyUnique)
    {k : CustomKey} (hk : InRange k) : AtOrPast start k ↔ (lastProbe start).coords ≤ k.coords := by
  have hp : (lastProbe start).coords =
      (start.ns : Int) :: 1 :: (start.a + 1) :: byteCoords start.v.bytes := by
    rw [← h.probe_a]
    simp only [CustomKey.coords, lastProbe, hty]
  have hbytes : memcmp start.v.bytes k.v.bytes ≤ 0 ↔
      byteCoords start.v.bytes ≤ byteCoords k.v.bytes :=
    memcmp_nonpos_iff (by rw [start.v.size, k.v.size])
  simp only [AtOrPast, hty]
  rw [hp]
  rcases coords_cases hk with ⟨ht, -, hc⟩ | ⟨ht, -, hc⟩ | ⟨hd, -, hc⟩ | ⟨hd, -, hc⟩
  · simp [hc, not_isDatom_of_meta ht, ht, cons_le_cons_iff]
  · simp [hc, not_isDatom_of_unique ht, ht, cons_le_cons_iff, hbytes]
  · simp [hc, hd, cons_le_cons_iff]
  · simp [hc, hd, cons_le_cons_iff]

private theorem atOrPast_iff_of_txLog (hty : start.type = .keyTxLog) {k : CustomKey}
    (hk : InRange k) :
    AtOrPast start k ↔ (lastProbe start).coords ≤ k.coords := by
  have hp : (lastProbe start).coords = [(start.ns : Int), 2, -1] := by
    simp only [CustomKey.coords, lastProbe, hty]
  simp only [AtOrPast, hty]
  rw [hp]
  rcases coords_cases hk with ⟨ht, -, hc⟩ | ⟨ht, -, hc⟩ | ⟨hd, -, hc⟩ | ⟨hd, -, hc⟩
  · simp [hc, not_isDatom_of_meta ht, cons_le_cons_iff]
  · simp [hc, not_isDatom_of_unique ht, cons_le_cons_iff]
  · simp [hc, hd, cons_le_cons_iff]
  · simp [hc, hd, cons_le_cons_iff]

/-- The place searched for, as the comparator's coordinates have it. -/
theorem atOrPast_iff (h : Asked start) {k : CustomKey} (hk : InRange k) :
    AtOrPast start k ↔ (lastProbe start).coords ≤ k.coords := by
  cases hty : start.type with
  | keyMeta => exact atOrPast_iff_of_meta hty hk
  | keyUnique => exact atOrPast_iff_of_unique h hty hk
  | keyTxLog => exact atOrPast_iff_of_txLog hty hk
  | _ => exact atOrPast_iff_of_family h (by rw [hty]; rfl) hk

/-! ### The value of an integer key is never compared -/

theorem compareFields_probe (w : Value) {k : CustomKey} (hk : 0 ≤ k.t ∧ k.t < 2 ^ 30) :
    compareFields (lastProbe { start with v := w }) k 4 sortEATV =
      compareFields (lastProbe start) k 4 sortEATV := by
  have ht : toInt64 (-1 - k.t) ≠ 0 := by
    rw [toInt64_eq_self (by omega) (by omega)]
    omega
  have h0 : Sorting.ofBits sortEATV = .E := by decide
  have h1 : Sorting.ofBits (sortEATV / 4) = .A := by decide
  have h2 : Sorting.ofBits (sortEATV / 4 / 4) = .T := by decide
  simp only [compareFields, h0, h1, h2, compareField, lastProbe]
  rw [if_pos ht, if_pos ht]

private theorem compareDatom_probe (w : Value) {k : CustomKey} (hk : 0 ≤ k.t ∧ k.t < 2 ^ 30) :
    compareDatom (lastProbe { start with v := w }) k = compareDatom (lastProbe start) k := by
  have h1 : (lastProbe { start with v := w }).sort = sortEATV := rfl
  have h2 : (lastProbe start).sort = sortEATV := rfl
  simp only [compareDatom, h1, h2, compareFields_probe w hk]

/-- Only for the unique index does the search look at the value. -/
theorem compare_probe (hty : start.type ≠ .keyUnique) (w : Value) {k : CustomKey}
    (hk : InRange k) : customKeyCompare (lastProbe { start with v := w }) k =
      customKeyCompare (lastProbe start) k := by
  have hdatom : compareDatom (lastProbe { start with v := w }) k =
      compareDatom (lastProbe start) k := compareDatom_probe w hk.t_range
  have hns : (lastProbe { start with v := w }).ns = (lastProbe start).ns := rfl
  have hft : (lastProbe { start with v := w }).type = (lastProbe start).type := rfl
  have he : (lastProbe { start with v := w }).e = (lastProbe start).e := rfl
  have ht : (lastProbe { start with v := w }).t = (lastProbe start).t := rfl
  unfold customKeyCompare
  rw [hns, hft, he, ht, hdatom]
  cases hs : (lastProbe start).type with
  | keyUnique => exact absurd hs hty
  | _ => rfl

private theorem lastDatom_value (hs : StoreOk s) (hty : start.type ≠ .keyUnique) (w : Value) :
    lastDatom s { start with v := w } = lastDatom s start := by
  obtain ⟨h1, h2⟩ := OrderedMap.seek_before_congr fun x hx => compare_probe hty w (hs.keys x hx)
  unfold lastDatom mdbSetRange mdbPrev
  rw [h1, h2]

/-! ### What is stepped back to -/

theorem stepsBackTo_iff (hs : StoreOk s) (h : Asked start) {x : Entry} :
    StepsBackTo s start x ↔ (∃ z ∈ s, (lastProbe start).coords ≤ z.1.coords) ∧
      (s.filter fun x => x.1.coords < (lastProbe start).coords).getLast? = some x := by
  have hpast : ∀ y ∈ s, (AtOrPast start y.1 ↔ (lastProbe start).coords ≤ y.1.coords) :=
    fun y hy => atOrPast_iff h (hs.keys y hy)
  rw [hs.getLast?_filter_eq_some]
  constructor
  · rintro ⟨hx, hbefore, hlast, z, hz, hzp⟩
    rw [hpast x hx, not_le] at hbefore
    refine ⟨⟨z, hz, (hpast z hz).mp hzp⟩, hx, by simpa using hbefore, fun y hy hlt => ?_⟩
    by_contra hyx
    have hyp := hlast y hy ((agrees_inRange.neg_iff (hs.keys x hx) (hs.keys y hy)).mpr
      (not_le.mp hyx))
    exact absurd (by simpa using hlt) (not_lt.mpr ((hpast y hy).mp hyp))
  · rintro ⟨⟨z, hz, hzp⟩, hx, hlt, hmax⟩
    refine ⟨hx, ?_, fun y hy hxy => ?_, z, hz, (hpast z hz).mpr hzp⟩
    · rw [hpast x hx, not_le]
      simpa using hlt
    · rw [hpast y hy]
      by_contra hyp
      have hxy := (agrees_inRange.neg_iff (hs.keys x hx) (hs.keys y hy)).mp hxy
      exact absurd (hmax y hy (by simpa using hyp)) (not_le.mpr hxy)

theorem StepsBackTo.congr {start' : CustomKey} {x : Entry}
    (hpast : ∀ k, AtOrPast start' k ↔ AtOrPast start k) (h : StepsBackTo s start x) :
    StepsBackTo s start' x := by
  obtain ⟨z, hz, hzp⟩ := h.past
  exact ⟨h.mem, fun hc => h.before ((hpast _).mp hc),
    fun y hy hxy => (hpast _).mpr (h.last y hy hxy), z, hz, (hpast _).mpr hzp⟩

/-- Where something is before the place searched for and something is not, the step back ends. -/
theorem exists_stepsBackTo (hs : StoreOk s) (h : Asked start) {y z : Entry} (hy : y ∈ s)
    (hlt : y.1.coords < (lastProbe start).coords) (hz : z ∈ s) (hzp : AtOrPast start z.1) :
    ∃ x, StepsBackTo s start x := by
  have hyf : y ∈ s.filter fun x => x.1.coords < (lastProbe start).coords :=
    List.mem_filter.mpr ⟨hy, by simpa using hlt⟩
  have hlast := List.getLast?_eq_some_getLast (List.ne_nil_of_mem hyf)
  have hzp := (atOrPast_iff h (hs.keys z hz)).mp hzp
  exact ⟨_, (stepsBackTo_iff hs h).mpr ⟨⟨z, hz, hzp⟩, hlast⟩⟩

/-- `last_datom` returns what it steps back to, if the fields it compares agree. -/
theorem lastDatom_eq_some_iff (hs : StoreOk s) (h : Asked start) {last : CustomKey} :
    lastDatom s start = some last ↔ ∃ d, StepsBackTo s start (last, d) ∧
      last.e = start.e ∧ last.a = start.a ∧ last.ns = start.ns := by
  have hfits : ∀ {start : CustomKey}, Asked start → Fits (lastProbe start) →
      (lastDatom s start = some last ↔ ∃ d, StepsBackTo s start (last, d) ∧
        last.e = start.e ∧ last.a = start.a ∧ last.ns = start.ns) := by
    intro start h hf
    rw [lastDatom_eq_some hf hs]
    constructor
    · rintro ⟨hex, d, hlast, hfields⟩
      exact ⟨d, (stepsBackTo_iff hs h).mpr ⟨hex, hlast⟩, hfields⟩
    · rintro ⟨d, hback, hfields⟩
      obtain ⟨hex, hlast⟩ := (stepsBackTo_iff hs h).mp hback
      exact ⟨hex, d, hlast, hfields⟩
  by_cases hi : start.type = .keyInteger
  · -- an integer out of range is searched for as zero is
    have h0 : Asked { start with v := .zero } := ⟨h.ns_lt, h.e_range, h.a_range, h.pad_range⟩
    have hzero : -2 ^ 30 ≤ Value.zero.i ∧ Value.zero.i < 2 ^ 30 := by decide
    have hf0 : Fits (lastProbe { start with v := .zero }) := h0.probe_fits fun _ => hzero
    have hfam : start.type.family = 3 := by rw [hi]; rfl
    have hpast : ∀ k, AtOrPast { start with v := .zero } k ↔ AtOrPast start k := fun k => by
      rw [atOrPast_of_family hfam, atOrPast_of_family (by exact hfam)]
    rw [← lastDatom_value hs (by rw [hi]; decide) .zero, hfits h0 hf0]
    exact exists_congr fun d => and_congr_left' ⟨StepsBackTo.congr fun k => (hpast k).symm,
      StepsBackTo.congr hpast⟩
  · exact hfits h (h.probe_fits fun hc => absurd hc hi)

/-! ### When that is the last datom -/

theorem family_eq_three_iff (ty : KeyType) :
    ty.family = 3 ↔ KeyType.keyMinSentinel.code ≤ ty.code := by
  cases ty <;> decide

/-- To an index key every datom of its namespace is past the search. -/
theorem atOrPast_of_isDatom (hfam : start.type.family ≠ 3) {k : CustomKey} (hd : k.IsDatom)
    (hns : k.ns = start.ns) : AtOrPast start k := by
  refine Or.inr ⟨hns.symm, ?_⟩
  cases hs : start.type with
  | keyMeta => exact Or.inl hd.type_ne_meta
  | keyUnique => exact Or.inl hd
  | keyTxLog => exact hd
  | _ => exact absurd (by rw [hs]; rfl) hfam

/-- A group asked for with a datom key is found where some key lies past it. -/
theorem findsGreatest_of_past (hs : StoreOk s) (h : Asked start) (hfam : start.type.family = 3)
    {y z : Entry} (hy : y ∈ s) (hg : SameGroup start y) (hz : z ∈ s) (hzp : AtOrPast start z.1) :
    FindsGreatest s start := by
  have hsteps : ∀ x, StepsBackTo s start x → SameGroup start x ∧
      ∀ w ∈ s, SameGroup start w → w.1.tv ≤ x.1.tv := by
    intro x hx
    obtain ⟨-, hlast⟩ := (stepsBackTo_iff hs h).mp hx
    rw [hs.getLast?_filter_eq_some] at hlast
    obtain ⟨hxs, hxlt, hmax⟩ := hlast
    have hle : ∀ w ∈ s, SameGroup start w → w.1.coords ≤ x.1.coords :=
      fun w hw hwg => hmax w hw (by simpa using h.lt_probe hfam hs hw hwg)
    have hxg := h.group_of_between hfam hs hy hg hxs (hle y hy hg) (by simpa using hxlt)
    refine ⟨hxg, fun w hw hwg => ?_⟩
    rw [← coords_le_EATV (isDatom_of_sort (hs.keys w hw) (Or.inl hwg.1))
      (isDatom_of_sort (hs.keys x hxs) (Or.inl hxg.1)) hwg.1 hxg.1
      (hwg.2.1.trans hxg.2.1.symm) (hwg.2.2.1.trans hxg.2.2.1.symm)
      (hwg.2.2.2.trans hxg.2.2.2.symm)]
    exact hle w hw hwg
  constructor
  · -- the step back ends in the group, so the fields compared agree
    obtain ⟨x, hx⟩ := exists_stepsBackTo hs h hy (h.lt_probe hfam hs hy hg) hz hzp
    obtain ⟨⟨-, hns, he, ha⟩, -⟩ := hsteps x hx
    have hsome := (lastDatom_eq_some_iff hs h).mpr ⟨x.2, hx, he, ha, hns⟩
    rw [hsome]
    exact ⟨fun _ => ⟨y, hy, hg⟩, fun _ => rfl⟩
  · intro last hlast
    obtain ⟨d, hx, -⟩ := (lastDatom_eq_some_iff hs h).mp hlast
    exact ⟨d, hx.mem, hsteps _ hx⟩

/-- An index key finds no group. -/
theorem not_findsGreatest_of_index (hs : StoreOk s) (h : Asked start) (hfam : start.type.family ≠ 3)
    {y : Entry} (hy : y ∈ s) (hg : SameGroup start y) : ¬ FindsGreatest s start := by
  intro hf
  obtain ⟨last, hlast⟩ := Option.isSome_iff_exists.mp (hf.found_iff.mpr ⟨y, hy, hg⟩)
  obtain ⟨d, hmem, hgl, -⟩ := hf.greatest last hlast
  obtain ⟨d', hback, -⟩ := (lastDatom_eq_some_iff hs h).mp hlast
  have hd := isDatom_of_sort (hs.keys _ hmem) (Or.inl hgl.1)
  exact hback.before (atOrPast_of_isDatom hfam hd hgl.2.1)

/-- Where there is no group, what matters is that nothing is taken for one. -/
theorem findsGreatest_of_empty (hs : StoreOk s) (h : Asked start)
    (hempty : ∀ x ∈ s, ¬ SameGroup start x) :
    FindsGreatest s start ↔ ∀ x, StepsBackTo s start x →
      ¬ (x.1.ns = start.ns ∧ x.1.e = start.e ∧ x.1.a = start.a) := by
  have hnone : ¬ ∃ x ∈ s, SameGroup start x := by
    rintro ⟨x, hx, hg⟩
    exact hempty x hx hg
  constructor
  · rintro hf x hx ⟨hns, he, ha⟩
    have hsome := (lastDatom_eq_some_iff hs h).mpr ⟨x.2, hx, he, ha, hns⟩
    exact hnone (hf.found_iff.mp (by rw [hsome]; rfl))
  · intro hmiss
    have hl : lastDatom s start = none := by
      rw [Option.eq_none_iff_forall_ne_some]
      intro last hlast
      obtain ⟨d, hx, he, ha, hns⟩ := (lastDatom_eq_some_iff hs h).mp hlast
      exact hmiss _ hx ⟨hns, he, ha⟩
    refine ⟨?_, fun last hlast => absurd hlast (by rw [hl]; simp)⟩
    rw [hl]
    exact ⟨fun hc => absurd hc (by simp), fun hc => absurd hc hnone⟩

/--
**When `last_datom` finds the last datom.**  A group that has a key is found exactly
if it is asked for with a datom key and some key of the database lies past it.
Where the group has none, nothing is found unless the last key before its place is
an index key or an `AETV` key of the same entity and attribute, with one after it.
-/
theorem lastDatom_finds_iff (hs : StoreOk s) (h : Asked start) :
    FindsGreatest s start ↔
      ((∃ x ∈ s, SameGroup start x) →
        KeyType.keyMinSentinel.code ≤ start.type.code ∧ ∃ z ∈ s, AtOrPast start z.1) ∧
      ((∀ x ∈ s, ¬ SameGroup start x) → ∀ x, StepsBackTo s start x →
        ¬ (x.1.ns = start.ns ∧ x.1.e = start.e ∧ x.1.a = start.a)) := by
  by_cases hg : ∃ x ∈ s, SameGroup start x
  · obtain ⟨y, hy, hyg⟩ := hg
    constructor
    · intro hf
      refine ⟨fun _ => ⟨?_, ?_⟩, fun hempty => absurd hyg (hempty y hy)⟩
      · rw [← family_eq_three_iff]
        by_contra hfam
        exact not_findsGreatest_of_index hs h hfam hy hyg hf
      · obtain ⟨last, hlast⟩ := Option.isSome_iff_exists.mp (hf.found_iff.mpr ⟨y, hy, hyg⟩)
        obtain ⟨d, hback, -⟩ := (lastDatom_eq_some_iff hs h).mp hlast
        exact hback.past
    · rintro ⟨hcond, -⟩
      obtain ⟨hty, z, hz, hzp⟩ := hcond ⟨y, hy, hyg⟩
      exact findsGreatest_of_past hs h ((family_eq_three_iff _).mpr hty) hy hyg hz hzp
  · have hempty : ∀ x ∈ s, ¬ SameGroup start x := fun x hx hc => hg ⟨x, hx, hc⟩
    rw [findsGreatest_of_empty hs h hempty]
    exact ⟨fun hmiss => ⟨fun hc => absurd hc hg, fun _ => hmiss⟩, fun hcond => hcond.2 hempty⟩

end Last

/-- The type of `:db/type` in a fresh database. -/
theorem lastDatom_finds_base :
    FindsGreatest (dbOpen .calm []) (intKey 0 sortEATV dbType dbType 0 0) := by
  have hinv : RepInv .ofBytes (dbOpen .calm []) := repInv_dbOpen Oracle.calm_faultless.setup
  have hasked : Asked (intKey 0 sortEATV dbType dbType 0 0) := by
    constructor <;> decide
  have hstate : (∃ x ∈ dbOpen .calm [], x.1.sort = sortEATV ∧ x.1.ns = 0 ∧ x.1.e = dbType ∧
        x.1.a = dbType) ∧
      ∃ z ∈ dbOpen .calm [], 0 < z.1.ns ∨ 0 = z.1.ns ∧ z.1.sort = sortEATV ∧
        (dbType < z.1.e ∨ dbType = z.1.e ∧ dbType < z.1.a) := by
    decide +kernel
  obtain ⟨⟨x, hx, hg⟩, z, hz, hzp⟩ := hstate
  refine (lastDatom_finds_iff hinv.ok hasked).mpr ⟨fun _ => ⟨by decide, z, hz, ?_⟩, fun hempty => ?_⟩
  · exact (atOrPast_of_family rfl z.1).mpr hzp
  · exact absurd hg (hempty x hx)

/-- The one datom of the last group of the database is not found. -/
theorem lastDatom_misses_last :
    StoreOk (step .ofBytes (dbOpen .calm []) (assertRequest 60 50 7)) ∧
      Asked (intKey 0 sortEATV 60 50 0 7) ∧
      (∃ x ∈ step .ofBytes (dbOpen .calm []) (assertRequest 60 50 7),
        SameGroup (intKey 0 sortEATV 60 50 0 7) x) ∧
      ¬ FindsGreatest (step .ofBytes (dbOpen .calm []) (assertRequest 60 50 7))
        (intKey 0 sortEATV 60 50 0 7) := by
  have hstate : (getMeta (step .ofBytes (dbOpen .calm []) (assertRequest 60 50 7)) 0 metaTx = some 2 ∧
        getMeta (step .ofBytes (dbOpen .calm []) (assertRequest 60 50 7)) 0 metaId = some 11) ∧
      (∃ x ∈ step .ofBytes (dbOpen .calm []) (assertRequest 60 50 7),
        x.1.sort = sortEATV ∧ x.1.ns = 0 ∧ x.1.e = 60 ∧ x.1.a = 50) ∧
      lastDatom (step .ofBytes (dbOpen .calm []) (assertRequest 60 50 7))
        (intKey 0 sortEATV 60 50 0 7) = none := by
    decide +kernel
  obtain ⟨hget, hgroup, hnone⟩ := hstate
  have hrange : InputInRange .ofBytes (dbOpen .calm []) (assertRequest 60 50 7) :=
    inputInRange_of_counters (by norm_num) (by decide) hget (by norm_num)
  refine ⟨(repInv_step (repInv_dbOpen Oracle.calm_faultless.setup) hrange).ok, ?_, hgroup, ?_⟩
  · constructor <;> decide
  · intro hf
    have hsome := hf.found_iff.mpr hgroup
    rw [hnone] at hsome
    exact absurd hsome (by simp)

end Nstore
