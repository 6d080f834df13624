/-
The unique index, and what `last_datom` finds.

`last_datom` looks for the key where the group after `(e, a)` would begin, and
steps back from it.  In a store that keeps the invariant the step back ends at the
greatest key of the group, if the group has any.  But if no key lies beyond the
group, in any namespace, the first search fails and the group is missed.
-/
import Nstore.Proofs.Invariant

namespace Nstore

open LexDiff

/-! ### Lookups -/

theorem mdbGet_unique {s : Store} (hs : StoreOk s) {n : Nat} {k : CustomKey} (hn : n < 2 ^ 31)
    (ha : -2 ^ 29 ≤ k.a ∧ k.a < 2 ^ 29) {d : Item} :
    mdbGet s (uniqueKey n k) = some d ↔
      ∃ x ∈ s, x.1.type = .keyUnique ∧ x.1.ns = n ∧ x.1.a = k.a ∧ x.1.v = k.v ∧ x.2 = d := by
  rw [mdbGet_eq_some hs (uniqueKey_inRange hn ha)]
  constructor
  · rintro ⟨k', hk', hc⟩
    obtain ⟨h1, h2, h3, h4⟩ := coords_eq_unique.mp hc
    exact ⟨(k', d), hk', h2, h1, h3, h4, rfl⟩
  · rintro ⟨x, hx, h1, h2, h3, h4, rfl⟩
    exact ⟨x.1, hx, coords_eq_unique.mpr ⟨h2, h1, h3, h4⟩⟩

/-- What is deleted is there. -/
theorem mdbDel_isSome {s : Store} (hs : StoreOk s) {k : CustomKey} (hk : InRange k) :
    (mdbDel s k).isSome = (mdbGet s k).isSome := by
  cases hd : mdbDel s k with
  | none =>
      rw [mdbDel_eq_none hs hk, ← mdbGet_eq_none hs hk] at hd
      rw [hd]
      rfl
  | some s' =>
      cases hg : mdbGet s k with
      | none =>
          rw [mdbGet_eq_none hs hk, ← mdbDel_eq_none hs hk, hd] at hg
          exact absurd hg (by simp)
      | some d => rfl

/-! ### `last_datom` -/

/-- A datom key that a transaction can search the last datom for. -/
structure Searchable (k : CustomKey) : Prop where
  type : k.type = .keyInteger ∨ k.type = .keyBlob
  ns_lt : k.ns < 2 ^ 31
  e_range : dbInitialId ≤ k.e ∧ k.e < 2 ^ 29
  a_range : -2 ^ 29 ≤ k.a ∧ k.a < 2 ^ 29
  pad_range : -2 ^ 15 ≤ k.pad ∧ k.pad < 2 ^ 15
  i_range : k.type = .keyInteger → -2 ^ 29 ≤ k.v.i ∧ k.v.i < 2 ^ 29

theorem Write.searchable {sha256 : Bytes → Value} {txn : Txn} {w : Write} {sort : Nat}
    (htx : txn.Ok) (hw : w.Ok sha256) : Searchable (w.key txn sort) :=
  ⟨hw.enc.type, htx.ns_lt, hw.e_range, hw.a_range, hw.enc.pad_range, hw.enc.i_range⟩

/-- The keys `last_datom` looks among: those of an entity and attribute. -/
def SameGroup (k : CustomKey) (x : Entry) : Prop :=
  x.1.sort = sortEATV ∧ x.1.ns = k.ns ∧ x.1.e = k.e ∧ x.1.a = k.a

/-- The last datom of its entity and attribute. -/
def IsLast (s : Store) (x : Entry) : Prop := ∀ y ∈ s, SameGroup x.1 y → y.1.tv ≤ x.1.tv

/-- A key lies beyond the group of a datom. -/
def BeyondGroup (s : Store) (x : Entry) : Prop :=
  ∃ z ∈ s, ¬ SameGroup x.1 z ∧ x.1.coords < z.1.coords

/-- A key of any type that `last_datom` can be asked for. -/
structure Asked (k : CustomKey) : Prop where
  ns_lt : k.ns < 2 ^ 31
  e_range : -2 ^ 29 ≤ k.e ∧ k.e < 2 ^ 29
  a_range : -2 ^ 29 ≤ k.a ∧ k.a < 2 ^ 29
  pad_range : -2 ^ 15 ≤ k.pad ∧ k.pad < 2 ^ 15

section Last

variable {s : Store} {start : CustomKey}

theorem Searchable.asked (h : Searchable start) : Asked start := by
  have he := h.e_range
  simp only [dbInitialId] at he
  exact ⟨h.ns_lt, by omega, h.a_range, h.pad_range⟩

theorem Searchable.family (h : Searchable start) : start.type.family = 3 := by
  rcases h.type with ht | ht <;> rw [ht] <;> rfl

theorem Asked.probe_a (h : Asked start) : (lastProbe start).a = start.a + 1 := by
  have := h.a_range
  exact toInt64_eq_self (by omega) (by omega)

theorem Asked.probe_fits (h : Asked start)
    (hi : start.type = .keyInteger → -2 ^ 30 ≤ start.v.i ∧ start.v.i < 2 ^ 30) :
    Fits (lastProbe start) := by
  have he := h.e_range
  have ha := h.a_range
  refine ⟨h.ns_lt, ?_, ?_, ?_, h.pad_range, by show sortEATV < 256; decide, hi⟩
  · show -2 ^ 30 ≤ start.e ∧ start.e < 2 ^ 30
    omega
  · rw [h.probe_a]
    omega
  · show (-2 ^ 30 : Int) ≤ -1 ∧ (-1 : Int) < 2 ^ 30
    norm_num

theorem Searchable.probe_fits (h : Searchable start) : Fits (lastProbe start) := by
  refine h.asked.probe_fits fun hi => ?_
  have := h.i_range hi
  omega

theorem Asked.probe_coords (h : Asked start) (ht : start.type.family = 3) :
    (lastProbe start).coords =
      (start.ns : Int) :: 3 :: (sortEATV : Int) :: start.e :: (start.a + 1) :: -1 ::
        start.valueCoords := by
  have hc : (lastProbe start).coords =
      (start.ns : Int) :: 3 :: (sortEATV : Int) :: (lastProbe start).sortCoords 4 sortEATV := by
    unfold CustomKey.coords
    cases hty : start.type <;> simp only [lastProbe, hty] <;>
      exact absurd ht (by rw [hty]; decide)
  rw [hc, sortCoords_EATV, h.probe_a]
  rfl

/-- A group ends before the probe. -/
theorem Asked.lt_probe (h : Asked start) (ht : start.type.family = 3) (hs : StoreOk s) {x : Entry}
    (hx : x ∈ s) (hg : SameGroup start x) : x.1.coords < (lastProbe start).coords := by
  obtain ⟨hsort, hns, he, ha⟩ := hg
  have hd := isDatom_of_sort (hs.keys x hx) (Or.inl hsort)
  rw [h.probe_coords ht, coords_EATV hd hsort, hns, he, ha]
  simp only [List.cons_lt_cons_iff, lt_irrefl, false_or, true_and]
  exact Or.inl (by omega)

/-- Nothing lies between a group and its probe. -/
theorem Asked.group_of_between (h : Asked start) (ht : start.type.family = 3) (hs : StoreOk s)
    {x y : Entry} (hy : y ∈ s) (hg : SameGroup start y) (hx : x ∈ s)
    (hle : y.1.coords ≤ x.1.coords) (hlt : x.1.coords < (lastProbe start).coords) :
    SameGroup start x := by
  obtain ⟨hsort, hns, he, ha⟩ := hg
  rw [coords_EATV (isDatom_of_sort (hs.keys y hy) (Or.inl hsort)) hsort, hns, he, ha] at hle
  obtain ⟨hxns, hxd, hxs, hlo, hhi⟩ := between (hs.keys x hx) hle hlt (h.probe_coords ht)
  have hxs : x.1.sort = sortEATV := by omega
  rw [hxs, sortCoords_EATV] at hlo hhi
  obtain ⟨hxe, hlo, hhi⟩ := cons_between hlo hhi
  have ht := (hs.keys x hx).t_range
  refine ⟨hxs, hxns, hxe, ?_⟩
  rw [← not_lt, List.cons_lt_cons_iff] at hlo
  simp only [List.cons_lt_cons_iff] at hhi
  omega

/-- The step back ends at the last key before the probe. -/
theorem lastDatom_eq_some (hf : Fits (lastProbe start)) (hs : StoreOk s) {last : CustomKey} :
    lastDatom s start = some last ↔
      (∃ x ∈ s, (lastProbe start).coords ≤ x.1.coords) ∧
      ∃ d, (s.filter fun x => x.1.coords < (lastProbe start).coords).getLast? = some (last, d) ∧
        last.e = start.e ∧ last.a = start.a ∧ last.ns = start.ns := by
  have hseek : mdbSetRange s (lastProbe start) = _ :=
    OrderedMap.seek_eq_filter compare_agrees hf hs.fits
  have hprev : mdbPrev s (lastProbe start) =
      (s.filter fun x => x.1.coords < (lastProbe start).coords).getLast? := by
    refine (OrderedMap.before_eq_getLast? compare_agrees hf hs.fits).trans ?_
    exact congrArg List.getLast? (List.filter_congr fun x _ => by simp only [decide_eq_decide])
  unfold lastDatom
  rw [hprev]
  cases hr : mdbSetRange s (lastProbe start) with
  | nil =>
      rw [hseek, List.filter_eq_nil_iff] at hr
      constructor
      · intro hc
        exact absurd hc (by simp)
      · rintro ⟨⟨x, hx, hle⟩, -⟩
        exact absurd hle (by simpa using hr x hx)
  | cons x rest =>
      have hex : ∃ x ∈ s, (lastProbe start).coords ≤ x.1.coords := by
        have hmem : x ∈ mdbSetRange s (lastProbe start) := by rw [hr]; simp
        rw [hseek, List.mem_filter] at hmem
        exact ⟨x, hmem.1, by simpa using hmem.2⟩
      cases hl : (s.filter fun x => x.1.coords < (lastProbe start).coords).getLast? with
      | none =>
          constructor
          · intro hc
            simp only at hc
            exact absurd hc (by simp)
          · rintro ⟨-, d, hd, -⟩
            exact absurd hd (by simp)
      | some y =>
          obtain ⟨k, d⟩ := y
          constructor
          · intro hc
            simp only at hc
            split at hc
            · exact absurd hc (by simp)
            · rename_i hne
              rw [Option.some.injEq] at hc
              subst hc
              push Not at hne
              exact ⟨hex, d, rfl, hne.1.symm, hne.2.1.symm, hne.2.2.symm⟩
          · rintro ⟨-, d', hd', he, ha, hns⟩
            rw [Option.some.injEq, Prod.mk.injEq] at hd'
            obtain ⟨rfl, -⟩ := hd'
            simp only
            rw [if_neg]
            push Not
            exact ⟨he.symm, ha.symm, hns.symm⟩

theorem mem_of_lastDatom_filter {p : Entry → Bool} {x : Entry}
    (h : (s.filter p).getLast? = some x) : x ∈ s ∧ p x = true :=
  List.mem_filter.mp (List.mem_of_getLast? h)

/-- **What `last_datom` finds is the greatest key of the group.** -/
theorem lastDatom_spec (hs : StoreOk s)
    (hbase : ∀ x ∈ setupWrites start.ns, x.1.IsDatom → x ∈ s) (h : Searchable start)
    {last : CustomKey} (hl : lastDatom s start = some last) :
    ∃ d, (last, d) ∈ s ∧ SameGroup start (last, d) ∧
      ∀ y ∈ s, SameGroup start y → y.1.tv ≤ last.tv := by
  obtain ⟨-, d, hlast, he, ha, hns⟩ := (lastDatom_eq_some h.probe_fits hs).mp hl
  obtain ⟨hmem, hlt⟩ := mem_of_lastDatom_filter hlast
  have hlt : last.coords < (lastProbe start).coords := by simpa using hlt
  have hmax : ∀ y ∈ s, y.1.coords < (lastProbe start).coords → y.1.coords ≤ last.coords :=
    fun y hy hy' => (hs.filter _).le_getLast hlast y
      (List.mem_filter.mpr ⟨hy, by simpa using hy'⟩)
  -- the base facts of the namespace come before the probe, so the key is no index key
  obtain ⟨b, hb, hbd, hbs⟩ := setupWrites_eatv start.ns
  have hbmem := hbase b hb hbd
  have hbe := setupWrites_datom hb hbd
  have hbns : b.1.ns = start.ns := by
    obtain ⟨y, -, rfl⟩ := mem_setupWrites.mp hb
    rfl
  have hblt : b.1.coords < (lastProbe start).coords := by
    have := h.e_range.1
    rw [(h.asked.probe_coords h.family), coords_EATV hbd hbs, hbns]
    simp only [List.cons_lt_cons_iff, lt_irrefl, false_or, true_and]
    exact Or.inl (by omega)
  have hble := hmax b hbmem hblt
  rw [coords_EATV hbd hbs, hbns] at hble
  obtain ⟨-, hd, hsort, -, -⟩ := between (hs.keys _ hmem) hble hlt (h.asked.probe_coords h.family)
  have hsort : last.sort = sortEATV := by
    have : ((last, d) : Entry).1.sort = sortEATV := by omega
    exact this
  refine ⟨d, hmem, ⟨hsort, hns, he, ha⟩, fun y hy hg => ?_⟩
  have hle := hmax y hy (h.asked.lt_probe h.family hs hy hg)
  rwa [coords_le_EATV (isDatom_of_sort (hs.keys y hy) (Or.inl hg.1)) hd hg.1 hsort
    (hg.2.1.trans hns.symm) (hg.2.2.1.trans he.symm) (hg.2.2.2.trans ha.symm)] at hle

/-- It finds nothing only in an empty group or at the end of the database. -/
theorem lastDatom_eq_none (hs : StoreOk s) (h : Searchable start) (hl : lastDatom s start = none) :
    (∀ y ∈ s, ¬ SameGroup start y) ∨ ∀ y ∈ s, y.1.coords < (lastProbe start).coords := by
  by_contra hc
  push Not at hc
  obtain ⟨⟨y, hy, hg⟩, z, hz, hzle⟩ := hc
  have hylt := h.asked.lt_probe h.family hs hy hg
  have hyf : y ∈ s.filter fun x => x.1.coords < (lastProbe start).coords :=
    List.mem_filter.mpr ⟨hy, by simpa using hylt⟩
  obtain ⟨x, hx⟩ : ∃ x, (s.filter fun x => x.1.coords < (lastProbe start).coords).getLast? = some x :=
    ⟨_, List.getLast?_eq_some_getLast (List.ne_nil_of_mem hyf)⟩
  obtain ⟨hxs, hxlt⟩ := mem_of_lastDatom_filter hx
  have hgx := h.asked.group_of_between h.family hs hy hg hxs ((hs.filter _).le_getLast hx y hyf)
    (by simpa using hxlt)
  have hsome := (lastDatom_eq_some h.probe_fits hs).mpr
    ⟨⟨z, hz, hzle⟩, x.2, hx, hgx.2.2.1, hgx.2.2.2, hgx.2.1⟩
  rw [hl] at hsome
  exact absurd hsome (by simp)

/-- `last_datom` finds the last datom of a group that has a key beyond it. -/
theorem lastDatom_iff {k : CustomKey} (hs : StoreOk s)
    (hbase : ∀ x ∈ setupWrites k.ns, x.1.IsDatom → x ∈ s) (hk : Searchable k) (last : CustomKey) :
    lastDatom s k = some last ↔
      ∃ d, (last, d) ∈ s ∧ SameGroup k (last, d) ∧ IsLast s (last, d) ∧ BeyondGroup s (last, d) := by
  have hgroup : ∀ {x : Entry}, SameGroup k x → ∀ y : Entry, SameGroup x.1 y ↔ SameGroup k y := by
    rintro x ⟨-, h2, h3, h4⟩ y
    unfold SameGroup
    rw [h2, h3, h4]
  constructor
  · intro h
    obtain ⟨d, hmem, hg, hmax⟩ := lastDatom_spec hs hbase hk h
    obtain ⟨⟨z, hz, hle⟩, -⟩ := (lastDatom_eq_some hk.probe_fits hs).mp h
    have hlt := hk.asked.lt_probe hk.family hs hmem hg
    refine ⟨d, hmem, hg, fun y hy hy' => hmax y hy ((hgroup hg y).mp hy'), z, hz, fun hc => ?_,
      lt_of_lt_of_le hlt hle⟩
    exact absurd (hk.asked.lt_probe hk.family hs hz ((hgroup hg z).mp hc)) (not_lt.mpr hle)
  · rintro ⟨d, hmem, hg, hlast, z, hz, hzg, hzlt⟩
    cases hl : lastDatom s k with
    | none =>
        rcases lastDatom_eq_none hs hk hl with h | h
        · exact absurd hg (h _ hmem)
        · -- a key beyond the group is not before the probe
          refine absurd ?_ hzg
          exact (hgroup hg z).mpr (hk.asked.group_of_between hk.family hs hmem hg hz hzlt.le (h z hz))
    | some last' =>
        obtain ⟨d', hmem', hg', hmax⟩ := lastDatom_spec hs hbase hk hl
        have h1 := hmax _ hmem hg
        have h2 := hlast _ hmem' ((hgroup hg _).mpr hg')
        have hd := isDatom_of_sort (hs.keys _ hmem) (Or.inl hg.1)
        have hd' := isDatom_of_sort (hs.keys _ hmem') (Or.inl hg'.1)
        have hcoords : ((last', d') : Entry).1.coords = ((last, d) : Entry).1.coords :=
          (coords_eq_datom hd' hd).mpr ⟨hg'.2.1.trans hg.2.1.symm, hg'.1.trans hg.1.symm,
            hg'.2.2.1.trans hg.2.2.1.symm, hg'.2.2.2.trans hg.2.2.2.symm, le_antisymm h2 h1⟩
        have := hs.unique hmem' hmem hcoords
        rw [(Prod.mk.inj this).1]

end Last

end Nstore
