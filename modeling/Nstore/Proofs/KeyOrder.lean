/-
Where the comparator is an order.

`custom_key_compare` walks two keys field by field and returns the first
difference, cut down to an `int`.  `coords` lists the fields in the order it looks
at them, and `gap` is the first difference before the cut.  The comparator's sign
is the sign of the cut gap, `sign_compare`, so all that is left to ask is when the
cut does harm.  `totalOrderOn_iff` answers it exactly.

For the rest of the development the answer is simple: keys whose fields stay in a
window of 2^31 never reach the cut, and on them the comparator is the
lexicographic order of the coordinates.
-/
import Nstore.Lib.Lex
import Nstore.Lib.OrderedMap
import Nstore.Key

namespace Nstore

open LexDiff

/-! ### Machine arithmetic -/

theorem toInt32_cases (x : Int) :
    -2 ^ 31 ≤ toInt32 x ∧ toInt32 x < 2 ^ 31 ∧ ∃ q, x = toInt32 x + 2 ^ 32 * q := by
  have h1 := Int.le_bmod (x := x) (m := 2 ^ 32) (by norm_num)
  have h2 := Int.bmod_lt (x := x) (m := 2 ^ 32) (by norm_num)
  have h3 := Int.bmod_add_bdiv x (2 ^ 32)
  refine ⟨?_, ?_, x.bdiv (2 ^ 32), ?_⟩
  · unfold toInt32; norm_num at h1 ⊢; exact h1
  · unfold toInt32; norm_num at h2 ⊢; exact h2
  · unfold toInt32; push_cast at h3 ⊢; omega

theorem toInt64_cases (x : Int) :
    -2 ^ 63 ≤ toInt64 x ∧ toInt64 x < 2 ^ 63 ∧ ∃ q, x = toInt64 x + 2 ^ 64 * q := by
  have h1 := Int.le_bmod (x := x) (m := 2 ^ 64) (by norm_num)
  have h2 := Int.bmod_lt (x := x) (m := 2 ^ 64) (by norm_num)
  have h3 := Int.bmod_add_bdiv x (2 ^ 64)
  refine ⟨?_, ?_, x.bdiv (2 ^ 64), ?_⟩
  · unfold toInt64; norm_num at h1 ⊢; exact h1
  · unfold toInt64; norm_num at h2 ⊢; exact h2
  · unfold toInt64; push_cast at h3 ⊢; omega

theorem toInt32_eq_self {x : Int} (h1 : -2 ^ 31 ≤ x) (h2 : x < 2 ^ 31) : toInt32 x = x := by
  obtain ⟨_, _, q, _⟩ := toInt32_cases x
  omega

theorem toInt64_eq_self {x : Int} (h1 : -2 ^ 63 ≤ x) (h2 : x < 2 ^ 63) : toInt64 x = x := by
  obtain ⟨_, _, q, _⟩ := toInt64_cases x
  omega

theorem toInt32_toInt64 (x : Int) : toInt32 (toInt64 x) = toInt32 x := by
  obtain ⟨_, _, q, hq⟩ := toInt64_cases x
  obtain ⟨_, _, r, hr⟩ := toInt32_cases x
  obtain ⟨_, _, r', hr'⟩ := toInt32_cases (toInt64 x)
  omega

/-- Numbers an `int64_t` holds. -/
def IsInt64 (x : Int) : Prop := -2 ^ 63 ≤ x ∧ x < 2 ^ 63

private theorem toInt64_sub_eq_zero {x y : Int} (hx : IsInt64 x) (hy : IsInt64 y) :
    toInt64 (x - y) = 0 ↔ x = y := by
  obtain ⟨_, _, q, hq⟩ := toInt64_cases (x - y)
  unfold IsInt64 at hx hy
  omega

theorem Value.isInt64_i (v : Value) : IsInt64 v.i := by
  obtain ⟨h1, h2, _⟩ := toInt64_cases (leNat (v.bytes.take 8))
  exact ⟨h1, h2⟩

/-! ### The fields in the order they are compared -/

def byteCoords (bs : Bytes) : List Int := bs.map fun b => (b.toNat : Int)

/-- What the `SORT_V` case looks at. -/
def CustomKey.valueCoords (k : CustomKey) : List Int :=
  k.type.code :: match k.type with
    | .keyInteger => [k.v.i]
    | .keyBlob => k.pad :: byteCoords k.v.bytes
    | _ => []

def CustomKey.fieldCoords (k : CustomKey) : Sorting → List Int
  | .E => [k.e]
  | .A => [k.a]
  | .T => [k.t]
  | .V => k.valueCoords

def CustomKey.sortCoords (k : CustomKey) : Nat → Nat → List Int
  | 0, _ => []
  | n + 1, sorting => k.fieldCoords (Sorting.ofBits sorting) ++ k.sortCoords n (sorting / 4)

/--
All fields the comparator may look at, first to last.  The second entry tells the
families apart; every key that is not an index key has a three there.
-/
def CustomKey.coords (k : CustomKey) : List Int :=
  (k.ns : Int) :: match k.type with
    | .keyMeta => [0, k.e]
    | .keyUnique => 1 :: k.a :: byteCoords k.v.bytes
    | .keyTxLog => [2, k.t]
    | _ => 3 :: (k.sort : Int) :: k.sortCoords 4 k.sort

/-- The difference in the first field where two keys differ, zero if there is none. -/
def gap (x y : CustomKey) : Int := firstDiff x.coords y.coords

/-! ### Coordinate lists never stop early -/

theorem aligned_bytes : ∀ {xs ys : Bytes}, xs.length = ys.length →
    Aligned (byteCoords xs) (byteCoords ys) := by
  intro xs
  induction xs with
  | nil =>
      intro ys h
      have hnil : ys = [] := List.length_eq_zero_iff.mp h.symm
      subst hnil
      exact aligned_refl _
  | cons x xs ih =>
      intro ys h
      cases ys with
      | nil => simp at h
      | cons y ys => exact aligned_cons fun _ => ih (by simpa using h)

theorem byteCoords_inj : ∀ {xs ys : Bytes}, byteCoords xs = byteCoords ys → xs = ys := by
  intro xs ys h
  refine List.map_injective_iff.mpr ?_ h
  intro b b' hb
  exact UInt8.toNat_inj.mp (by simpa using hb)

theorem KeyType.code_inj {s t : KeyType} (h : s.code = t.code) : s = t := by
  cases s <;> cases t <;> first | rfl | exact absurd h (by decide)

theorem aligned_valueCoords (x y : CustomKey) : Aligned x.valueCoords y.valueCoords := by
  refine aligned_cons fun hcode => ?_
  rw [KeyType.code_inj hcode]
  cases y.type with
  | keyInteger => exact aligned_cons fun _ => aligned_refl _
  | keyBlob => exact aligned_cons fun _ => aligned_bytes (by rw [x.v.size, y.v.size])
  | _ => exact aligned_refl _

private theorem aligned_sortCoords (x y : CustomKey) :
    ∀ n sorting, Aligned (x.sortCoords n sorting) (y.sortCoords n sorting) := by
  intro n
  induction n with
  | zero => intro sorting; exact aligned_refl _
  | succ n ih =>
      intro sorting
      refine aligned_append ?_ (ih _)
      cases Sorting.ofBits sorting with
      | V => exact aligned_valueCoords x y
      | _ => exact aligned_cons fun _ => aligned_refl _

theorem aligned_coords (x y : CustomKey) : Aligned x.coords y.coords := by
  have hdatom : Aligned (3 :: (x.sort : Int) :: x.sortCoords 4 x.sort)
      (3 :: (y.sort : Int) :: y.sortCoords 4 y.sort) := by
    refine aligned_cons fun _ => aligned_cons fun hsort => ?_
    rw [show x.sort = y.sort by omega]
    exact aligned_sortCoords x y 4 y.sort
  have hbytes : Aligned (byteCoords x.v.bytes) (byteCoords y.v.bytes) :=
    aligned_bytes (by rw [x.v.size, y.v.size])
  unfold CustomKey.coords
  refine aligned_cons fun _ => ?_
  cases x.type <;> cases y.type <;>
    first
    | exact hdatom
    | exact aligned_cons fun _ => aligned_cons fun _ => aligned_refl _
    | exact aligned_cons fun _ => aligned_cons fun _ => hbytes
    | exact aligned_cons fun hc => absurd hc (by decide)

theorem gap_swap (x y : CustomKey) : gap y x = -gap x y := firstDiff_swap _ _

theorem gap_eq_zero_iff (x y : CustomKey) : gap x y = 0 ↔ x.coords = y.coords :=
  firstDiff_eq_zero_iff (aligned_coords x y)

/-! ### The comparator returns the gap, cut to 32 bits -/

/-- Every numeric field is a value of its C type. -/
structure Wide (k : CustomKey) : Prop where
  ns_lt : k.ns < 2 ^ 32
  e_range : IsInt64 k.e
  a_range : IsInt64 k.a
  t_range : IsInt64 k.t
  pad_range : -2 ^ 15 ≤ k.pad ∧ k.pad < 2 ^ 15
  sort_lt : k.sort < 256

theorem memcmp_eq (xs : Bytes) : ∀ ys, memcmp xs ys = firstDiff (byteCoords xs) (byteCoords ys) := by
  induction xs with
  | nil => intro ys; cases ys <;> rfl
  | cons x xs ih =>
      intro ys
      cases ys with
      | nil => rfl
      | cons y ys =>
          by_cases hxy : x = y
          · subst hxy
            simp only [memcmp, if_true, byteCoords, List.map_cons, firstDiff_cons_self]
            exact ih ys
          · have hne : (x.toNat : Int) ≠ y.toNat := fun hc => hxy (UInt8.toNat_inj.mp (by omega))
            simp only [memcmp, if_neg hxy, byteCoords, List.map_cons]
            rw [firstDiff_cons_ne hne]

theorem toInt32_memcmp (xs ys : Bytes) :
    toInt32 (firstDiff (byteCoords xs) (byteCoords ys)) = memcmp xs ys := by
  have hb : ∀ bs : Bytes, ∀ x ∈ byteCoords bs, (0 : Int) ≤ x ∧ x < 0 + 256 := by
    intro bs x hx
    obtain ⟨b, -, rfl⟩ := List.mem_map.mp hx
    have := b.toNat_lt
    omega
  obtain ⟨h1, h2⟩ := firstDiff_bound 0 (B := 256) (by norm_num) (hb xs) (hb ys)
  rw [memcmp_eq, toInt32_eq_self (by omega) (by omega)]

theorem KeyType.code_bound (t : KeyType) : 0 ≤ t.code ∧ t.code ≤ 6 := by
  cases t <;> decide

theorem toInt32_code_sub (s t : KeyType) : toInt32 (s.code - t.code) = s.code - t.code := by
  have h1 := s.code_bound
  have h2 := t.code_bound
  exact toInt32_eq_self (by omega) (by omega)

/-- Return a difference that is not zero, cut to 32 bits; otherwise go on. -/
def orElse (cmp rest : Int) : Int := if cmp ≠ 0 then toInt32 cmp else rest

theorem orElse_zero (rest : Int) : orElse 0 rest = rest := by simp [orElse]

theorem orElse_ne {cmp : Int} (h : cmp ≠ 0) (rest : Int) : orElse cmp rest = toInt32 cmp :=
  if_pos h

/-- A 64-bit difference is tested and cut as the full difference would be. -/
theorem orElse_sub {x y : Int} (hx : IsInt64 x) (hy : IsInt64 y) (rest : Int) :
    orElse (toInt64 (x - y)) rest = orElse (x - y) rest := by
  have hz := toInt64_sub_eq_zero hx hy
  by_cases h : x = y
  · rw [hz.mpr h, show x - y = 0 by omega]
  · rw [orElse_ne (fun hc => h (hz.mp hc)), orElse_ne (by omega), toInt32_toInt64]

private theorem orElse_compareValue {x y : CustomKey} (hx : Wide x) (hy : Wide y) (rest : Int) :
    orElse (compareValue x y) rest = orElse (firstDiff x.valueCoords y.valueCoords) rest := by
  unfold compareValue CustomKey.valueCoords
  by_cases htype : x.type = y.type
  · -- one type: the value decides
    rw [htype, firstDiff_cons_self]
    simp only [sub_self, ne_eq, not_true_eq_false, if_false]
    cases y.type with
    | keyInteger =>
        simp only [firstDiff_single]
        exact orElse_sub x.v.isInt64_i y.v.isInt64_i rest
    | keyBlob =>
        simp only
        by_cases hpad : x.pad = y.pad
        · rw [if_neg (by omega), hpad, firstDiff_cons_self, ← memcmp_eq]
        · have hp := hx.pad_range
          have hp' := hy.pad_range
          rw [if_pos (by omega), firstDiff_cons_ne hpad,
            toInt32_eq_self (x := x.pad - y.pad) (by omega) (by omega)]
    | _ => rfl
  · have hcode : x.type.code ≠ y.type.code := fun hc => htype (KeyType.code_inj hc)
    rw [firstDiff_cons_ne hcode]
    simp only
    rw [if_pos (by omega), toInt32_code_sub]

private theorem orElse_compareField {x y : CustomKey} (hx : Wide x) (hy : Wide y) (f : Sorting)
    (rest : Int) : orElse (compareField x y f) rest =
      orElse (firstDiff (x.fieldCoords f) (y.fieldCoords f)) rest := by
  cases f with
  | E => exact (orElse_sub hx.e_range hy.e_range rest).trans (by rw [← firstDiff_single]; rfl)
  | A => exact (orElse_sub hx.a_range hy.a_range rest).trans (by rw [← firstDiff_single]; rfl)
  | T => exact (orElse_sub hx.t_range hy.t_range rest).trans (by rw [← firstDiff_single]; rfl)
  | V => exact orElse_compareValue hx hy rest

private theorem compareFields_eq {x y : CustomKey} (hx : Wide x) (hy : Wide y) :
    ∀ n sorting, compareFields x y n sorting =
      toInt32 (firstDiff (x.sortCoords n sorting) (y.sortCoords n sorting)) := by
  intro n
  induction n with
  | zero => intro sorting; rfl
  | succ n ih =>
      intro sorting
      have halign : Aligned (x.fieldCoords (Sorting.ofBits sorting))
          (y.fieldCoords (Sorting.ofBits sorting)) := by
        cases Sorting.ofBits sorting with
        | V => exact aligned_valueCoords x y
        | _ => exact aligned_cons fun _ => aligned_refl _
      show orElse (compareField x y (Sorting.ofBits sorting)) (compareFields x y n (sorting / 4)) = _
      rw [orElse_compareField hx hy, ih, CustomKey.sortCoords, CustomKey.sortCoords,
        firstDiff_append halign, apply_ite toInt32]
      rfl

theorem compareDatom_eq {x y : CustomKey} (hx : Wide x) (hy : Wide y) :
    compareDatom x y = toInt32 (firstDiff ((x.sort : Int) :: x.sortCoords 4 x.sort)
      ((y.sort : Int) :: y.sortCoords 4 y.sort)) := by
  show orElse ((x.sort : Int) - y.sort) (compareFields x y 4 x.sort) = _
  by_cases h : x.sort = y.sort
  · rw [h, sub_self, orElse_zero, firstDiff_cons_self]
    exact compareFields_eq hx hy 4 y.sort
  · have hne : (x.sort : Int) ≠ y.sort := by omega
    rw [firstDiff_cons_ne hne, orElse_ne (by omega)]

/-- **The comparator's sign is the sign of the gap, cut to 32 bits.** -/
theorem sign_compare {x y : CustomKey} (hx : Wide x) (hy : Wide y) :
    (customKeyCompare x y).sign = (toInt32 (gap x y)).sign := by
  have h1 := hx.ns_lt
  have h2 := hy.ns_lt
  by_cases hns : x.ns = y.ns
  · have hgap : gap x y = firstDiff x.coords.tail y.coords.tail := by
      unfold gap CustomKey.coords
      rw [hns, firstDiff_cons_self]
      rfl
    rw [hgap]
    unfold customKeyCompare
    simp only [hns, sub_self, Int.zero_emod, ne_eq, not_true_eq_false, if_false]
    by_cases htype : x.type = y.type
    · -- one family: the comparator returns exactly the cut gap
      cases hy' : y.type with
      | keyMeta =>
          rw [hy'] at htype
          simp [KeyType.code, htype, CustomKey.coords, hy', firstDiff_cons_self, firstDiff_single,
            toInt32_toInt64]
      | keyUnique =>
          rw [hy'] at htype
          simp only [htype, hy', CustomKey.coords, List.tail_cons, firstDiff_cons_self]
          rw [if_pos (Or.inl (by decide))]
          simp only [sub_self, not_true_eq_false, if_false]
          show (orElse (toInt64 (x.a - y.a)) (memcmp x.v.bytes y.v.bytes)).sign = _
          rw [orElse_sub hx.a_range hy.a_range]
          by_cases ha : x.a = y.a
          · rw [ha, sub_self, orElse_zero, firstDiff_cons_self, toInt32_memcmp]
          · rw [orElse_ne (by omega), firstDiff_cons_ne ha]
      | keyTxLog =>
          rw [hy'] at htype
          simp [KeyType.code, htype, CustomKey.coords, hy', firstDiff_cons_self, firstDiff_single,
            toInt32_toInt64]
      | _ =>
          rw [hy'] at htype
          simp only [htype, hy', CustomKey.coords, List.tail_cons, firstDiff_cons_self]
          rw [if_neg (by decide), compareDatom_eq hx hy]
    · have hcode : x.type.code ≠ y.type.code := fun hc => htype (KeyType.code_inj hc)
      by_cases hidx : x.type.code < KeyType.keyMinSentinel.code ∨
          y.type.code < KeyType.keyMinSentinel.code
      · -- families differ: both sides are a small difference of the same sign
        rw [if_pos hidx, if_pos (by omega), toInt32_code_sub]
        unfold CustomKey.coords
        cases hx' : x.type <;> cases hy' : y.type <;>
          first
          | exact absurd (hx'.trans hy'.symm) htype
          | (exfalso; rw [hx', hy'] at hidx; exact absurd hidx (by decide))
          | (rw [List.tail_cons, List.tail_cons, firstDiff_cons_ne (by decide)]; decide)
      · rw [if_neg hidx, compareDatom_eq hx hy]
        unfold CustomKey.coords
        cases hx' : x.type <;> cases hy' : y.type <;>
          first
          | (exfalso; rw [hx', hy'] at hidx; exact absurd (by decide) hidx)
          | rw [List.tail_cons, List.tail_cons, firstDiff_cons_self]
  · have hgap : gap x y = (x.ns : Int) - y.ns := by
      unfold gap CustomKey.coords
      exact firstDiff_cons_ne (by omega) _ _
    have hne : ((x.ns : Int) - y.ns) % 2 ^ 32 ≠ 0 := by omega
    have hcut : toInt32 (((x.ns : Int) - y.ns) % 2 ^ 32) = toInt32 ((x.ns : Int) - y.ns) := by
      obtain ⟨_, _, r, _⟩ := toInt32_cases ((x.ns : Int) - y.ns)
      obtain ⟨_, _, r', _⟩ := toInt32_cases (((x.ns : Int) - y.ns) % 2 ^ 32)
      omega
    unfold customKeyCompare
    simp only
    rw [if_pos hne, hcut, hgap]

/-! ### Exactly when it is a total order -/

/-- A key that `setup`, `put_meta` or `handle_transact` can write. -/
structure Written (k : CustomKey) : Prop extends Wide k where
  e_nonneg : 0 ≤ k.e
  kind : k.type = .keyMeta ∨ k.type = .keyUnique ∨
    ((k.type = .keyInteger ∨ k.type = .keyBlob) ∧ (k.sort = sortEATV ∨ k.sort = sortAETV))

abbrev StoredKey := {k : CustomKey // Written k}

/-- Two keys agree on their namespace and on every field that identifies their kind. -/
def SameKey (x y : CustomKey) : Prop :=
  x.ns = y.ns ∧ x.type = y.type ∧ match x.type with
    | .keyMeta => x.e = y.e
    | .keyUnique => x.a = y.a ∧ x.v = y.v
    | .keyInteger => x.sort = y.sort ∧ x.e = y.e ∧ x.a = y.a ∧ x.t = y.t ∧ x.v.i = y.v.i
    | .keyBlob => x.sort = y.sort ∧ x.e = y.e ∧ x.a = y.a ∧ x.t = y.t ∧ x.pad = y.pad ∧ x.v = y.v
    | _ => False

theorem Value.ext_bytes {v w : Value} (h : v.bytes = w.bytes) : v = w := by
  cases v; cases w; congr

/-- The coordinates of a datom are its sort order, its entity or attribute, and so on. -/
theorem coords_datom {k : CustomKey} (htype : k.type = .keyInteger ∨ k.type = .keyBlob) :
    k.coords = (k.ns : Int) :: 3 :: (k.sort : Int) :: k.sortCoords 4 k.sort := by
  unfold CustomKey.coords
  rcases htype with h | h <;> rw [h]

theorem sortCoords_EATV (k : CustomKey) :
    k.sortCoords 4 sortEATV = k.e :: k.a :: k.t :: k.valueCoords := by
  have h0 : Sorting.ofBits sortEATV = .E := by decide
  have h1 : Sorting.ofBits (sortEATV / 4) = .A := by decide
  have h2 : Sorting.ofBits (sortEATV / 4 / 4) = .T := by decide
  have h3 : Sorting.ofBits (sortEATV / 4 / 4 / 4) = .V := by decide
  simp [CustomKey.sortCoords, CustomKey.fieldCoords, h0, h1, h2, h3]

theorem sortCoords_AETV (k : CustomKey) :
    k.sortCoords 4 sortAETV = k.a :: k.e :: k.t :: k.valueCoords := by
  have h0 : Sorting.ofBits sortAETV = .A := by decide
  have h1 : Sorting.ofBits (sortAETV / 4) = .E := by decide
  have h2 : Sorting.ofBits (sortAETV / 4 / 4) = .T := by decide
  have h3 : Sorting.ofBits (sortAETV / 4 / 4 / 4) = .V := by decide
  simp [CustomKey.sortCoords, CustomKey.fieldCoords, h0, h1, h2, h3]

/-- Value coordinates tell type, and then integer or padding and payload. -/
theorem valueCoords_eq_iff {x y : CustomKey} (hx : x.type = .keyInteger ∨ x.type = .keyBlob) :
    x.valueCoords = y.valueCoords ↔ x.type = y.type ∧ match x.type with
      | .keyInteger => x.v.i = y.v.i
      | _ => x.pad = y.pad ∧ x.v = y.v := by
  constructor
  · intro h
    have htype : x.type = y.type := KeyType.code_inj (List.cons.inj h).1
    refine ⟨htype, ?_⟩
    rcases hx with hx | hx
    · simp only [CustomKey.valueCoords, ← htype, hx, List.cons.injEq, true_and, and_true] at h
      rw [hx]
      exact h
    · simp only [CustomKey.valueCoords, ← htype, hx, List.cons.injEq, true_and] at h
      rw [hx]
      exact ⟨h.1, Value.ext_bytes (byteCoords_inj h.2)⟩
  · rintro ⟨htype, h⟩
    rcases hx with hx | hx
    · rw [hx] at h
      simp only [CustomKey.valueCoords, ← htype, hx]
      rw [show x.v.i = y.v.i from h]
    · rw [hx] at h
      simp only [CustomKey.valueCoords, ← htype, hx]
      rw [h.1, h.2]

/-- The second coordinate, which tells the families apart. -/
def KeyType.family : KeyType → Int
  | .keyMeta => 0
  | .keyUnique => 1
  | .keyTxLog => 2
  | _ => 3

theorem coords_family {x y : CustomKey} (h : x.coords = y.coords) :
    x.ns = y.ns ∧ x.type.family = y.type.family := by
  unfold CustomKey.coords at h
  obtain ⟨hns, hrest⟩ := List.cons.inj h
  refine ⟨by omega, ?_⟩
  cases hx : x.type <;> cases hy : y.type <;>
    first
    | rfl
    | (rw [hx, hy] at hrest; exact absurd (List.cons.inj hrest).1 (by decide))

/-- Written keys with the same coordinates are the same key, and conversely. -/
theorem coords_eq_iff {x y : CustomKey} (hx : Written x) (hy : Written y) :
    x.coords = y.coords ↔ SameKey x y := by
  constructor
  · intro h
    obtain ⟨hns, hfam⟩ := coords_family h
    rcases hx.kind with hx' | hx' | ⟨hx', hsort⟩
    · have hy' : y.type = .keyMeta := by
        rw [hx'] at hfam
        cases hy' : y.type <;> rw [hy'] at hfam <;> first | rfl | exact absurd hfam (by decide)
      simp only [CustomKey.coords, hx', hy', List.cons.injEq, true_and, and_true] at h
      exact ⟨hns, by rw [hx', hy'], by rw [hx']; exact h.2⟩
    · have hy' : y.type = .keyUnique := by
        rw [hx'] at hfam
        cases hy' : y.type <;> rw [hy'] at hfam <;> first | rfl | exact absurd hfam (by decide)
      simp only [CustomKey.coords, hx', hy', List.cons.injEq, true_and] at h
      exact ⟨hns, by rw [hx', hy'],
        by rw [hx']; exact ⟨h.2.1, Value.ext_bytes (byteCoords_inj h.2.2)⟩⟩
    · have hy' : y.type = .keyInteger ∨ y.type = .keyBlob := by
        rcases hy.kind with hy' | hy' | ⟨hy', -⟩
        · rcases hx' with hx' | hx' <;> rw [hx', hy'] at hfam <;> exact absurd hfam (by decide)
        · rcases hx' with hx' | hx' <;> rw [hx', hy'] at hfam <;> exact absurd hfam (by decide)
        · exact hy'
      rw [coords_datom hx', coords_datom hy'] at h
      simp only [List.cons.injEq, true_and] at h
      obtain ⟨-, hs, hrest⟩ := h
      have hs' : x.sort = y.sort := by omega
      rw [← hs'] at hrest
      have hfields : x.e = y.e ∧ x.a = y.a ∧ x.t = y.t ∧ x.valueCoords = y.valueCoords := by
        rcases hsort with hsort | hsort
        · rw [hsort, sortCoords_EATV, sortCoords_EATV] at hrest
          simpa using hrest
        · rw [hsort, sortCoords_AETV, sortCoords_AETV] at hrest
          simp only [List.cons.injEq] at hrest
          exact ⟨hrest.2.1, hrest.1, hrest.2.2.1, hrest.2.2.2⟩
      obtain ⟨he, ha, ht, hv⟩ := hfields
      obtain ⟨htype, hval⟩ := (valueCoords_eq_iff hx').mp hv
      refine ⟨hns, htype, ?_⟩
      rcases hx' with hx' | hx' <;> rw [hx'] at hval ⊢
      · exact ⟨hs', he, ha, ht, hval⟩
      · exact ⟨hs', he, ha, ht, hval.1, hval.2⟩
  · rintro ⟨hns, htype, h⟩
    rcases hx.kind with hx' | hx' | ⟨hx', hsort⟩
    · rw [hx'] at h
      simp only [CustomKey.coords, ← htype, hx', hns]
      rw [show x.e = y.e from h]
    · rw [hx'] at h
      simp only [CustomKey.coords, ← htype, hx', hns]
      rw [h.1, h.2]
    · have hfields : x.sort = y.sort ∧ x.e = y.e ∧ x.a = y.a ∧ x.t = y.t ∧
          x.valueCoords = y.valueCoords := by
        rcases hx' with hx' | hx' <;> rw [hx'] at h
        · exact ⟨h.1, h.2.1, h.2.2.1, h.2.2.2.1,
            (valueCoords_eq_iff (Or.inl hx')).mpr ⟨htype, by rw [hx']; exact h.2.2.2.2⟩⟩
        · exact ⟨h.1, h.2.1, h.2.2.1, h.2.2.2.1,
            (valueCoords_eq_iff (Or.inr hx')).mpr ⟨htype, by rw [hx']; exact h.2.2.2.2⟩⟩
      obtain ⟨hs, he, ha, ht, hv⟩ := hfields
      rw [coords_datom hx', coords_datom (htype ▸ hx'), hns, ← hs]
      rcases hsort with hsort | hsort <;> rw [hsort]
      · rw [sortCoords_EATV, sortCoords_EATV, he, ha, ht, hv]
      · rw [sortCoords_AETV, sortCoords_AETV, he, ha, ht, hv]

/-- What an ordered map relies on, on a set of keys. -/
structure TotalOrderOn (K : Set StoredKey) : Prop where
  antisymm : ∀ x ∈ K, ∀ y ∈ K,
    (customKeyCompare x.1 y.1).sign = -(customKeyCompare y.1 x.1).sign
  trans : ∀ x ∈ K, ∀ y ∈ K, ∀ z ∈ K, customKeyCompare x.1 y.1 ≤ 0 →
    customKeyCompare y.1 z.1 ≤ 0 → customKeyCompare x.1 z.1 ≤ 0
  eq_zero : ∀ x ∈ K, ∀ y ∈ K, customKeyCompare x.1 y.1 = 0 → SameKey x.1 y.1

/--
The cut to 32 bits does no harm on a set of keys: no two of them are a multiple of
2^31 apart in the first field where they differ, and the cut differences of three
keys that part in one field still add up.
-/
structure CutHarmless (K : Set StoredKey) : Prop where
  apart : ∀ x ∈ K, ∀ y ∈ K, gap x.1 y.1 = 0 ∨ ¬ 2 ^ 31 ∣ gap x.1 y.1
  adds : ∀ x ∈ K, ∀ y ∈ K, ∀ z ∈ K, gap x.1 z.1 = gap x.1 y.1 + gap y.1 z.1 →
    toInt32 (gap x.1 z.1) = toInt32 (gap x.1 y.1) + toInt32 (gap y.1 z.1)

theorem compare_eq_zero_iff {x y : CustomKey} (hx : Wide x) (hy : Wide y) :
    customKeyCompare x y = 0 ↔ toInt32 (gap x y) = 0 := by
  rw [← Int.sign_eq_zero_iff_zero, sign_compare hx hy, Int.sign_eq_zero_iff_zero]

theorem compare_neg_iff {x y : CustomKey} (hx : Wide x) (hy : Wide y) :
    customKeyCompare x y < 0 ↔ toInt32 (gap x y) < 0 := by
  rw [← Int.sign_neg_iff, sign_compare hx hy, Int.sign_neg_iff]

theorem compare_nonpos_iff {x y : CustomKey} (hx : Wide x) (hy : Wide y) :
    customKeyCompare x y ≤ 0 ↔ toInt32 (gap x y) ≤ 0 := by
  have h1 := compare_eq_zero_iff hx hy
  have h2 := compare_neg_iff hx hy
  omega

/-- Swapping negates the cut difference, but for the one number with no negative. -/
theorem toInt32_neg {x : Int} (h : toInt32 x ≠ -2 ^ 31) : toInt32 (-x) = -toInt32 x := by
  obtain ⟨_, _, q, _⟩ := toInt32_cases x
  obtain ⟨_, _, q', _⟩ := toInt32_cases (-x)
  omega

theorem toInt32_apart {x : Int} (h : x = 0 ∨ ¬ 2 ^ 31 ∣ x) :
    toInt32 x ≠ -2 ^ 31 ∧ (toInt32 x = 0 → x = 0) := by
  obtain ⟨_, _, q, _⟩ := toInt32_cases x
  rcases h with h | h
  · subst h
    exact ⟨by decide, fun _ => rfl⟩
  · omega

private theorem totalOrderOn_of_cutHarmless {K : Set StoredKey} (h : CutHarmless K) :
    TotalOrderOn K := by
  refine ⟨?_, ?_, ?_⟩
  · intro x hx y hy
    have hne := (toInt32_apart (h.apart x hx y hy)).1
    rw [sign_compare x.2.toWide y.2.toWide, sign_compare y.2.toWide x.2.toWide,
      gap_swap x.1 y.1, toInt32_neg hne, Int.sign_neg, neg_neg]
  · intro x hx y hy z hz hxy hyz
    rw [compare_nonpos_iff x.2.toWide y.2.toWide] at hxy
    rw [compare_nonpos_iff y.2.toWide z.2.toWide] at hyz
    rw [compare_nonpos_iff x.2.toWide z.2.toWide]
    rcases firstDiff_triangle (aligned_coords x.1 y.1) (aligned_coords y.1 z.1)
      (aligned_coords x.1 z.1) with hsum | hsame | hsame | ⟨hne, hopp⟩
    · rw [h.adds x hx y hy z hz hsum]
      omega
    · rw [show gap x.1 z.1 = gap y.1 z.1 from hsame]
      exact hyz
    · rw [show gap x.1 z.1 = gap x.1 y.1 from hsame]
      exact hxy
    · -- `x` and `z` agree where `y` leaves them: it cannot be below one and above the other
      exfalso
      have hcut := toInt32_apart (h.apart x hx y hy)
      rw [show gap y.1 z.1 = -gap x.1 y.1 from hopp, toInt32_neg hcut.1] at hyz
      exact hne (hcut.2 (by omega))
  · intro x hx y hy h0
    rw [compare_eq_zero_iff x.2.toWide y.2.toWide] at h0
    have hgap := (toInt32_apart (h.apart x hx y hy)).2 h0
    exact (coords_eq_iff x.2 y.2).mp ((gap_eq_zero_iff x.1 y.1).mp hgap)

private theorem cutHarmless_of_totalOrderOn {K : Set StoredKey} (h : TotalOrderOn K) :
    CutHarmless K := by
  have apart : ∀ x ∈ K, ∀ y ∈ K, gap x.1 y.1 = 0 ∨ ¬ 2 ^ 31 ∣ gap x.1 y.1 := by
    intro x hx y hy
    by_contra hc
    push Not at hc
    obtain ⟨hne, hdvd⟩ := hc
    obtain ⟨_, _, q, _⟩ := toInt32_cases (gap x.1 y.1)
    have hcut : toInt32 (gap x.1 y.1) = 0 ∨ toInt32 (gap x.1 y.1) = -2 ^ 31 := by omega
    rcases hcut with hzero | hmin
    · -- the difference vanishes: two keys are taken for one
      have hsame := h.eq_zero x hx y hy ((compare_eq_zero_iff x.2.toWide y.2.toWide).mpr hzero)
      exact hne ((gap_eq_zero_iff x.1 y.1).mpr ((coords_eq_iff x.2 y.2).mpr hsame))
    · -- the difference is its own negative: each key is below the other
      have hmin' : toInt32 (gap y.1 x.1) = -2 ^ 31 := by
        rw [gap_swap x.1 y.1]
        obtain ⟨_, _, r, _⟩ := toInt32_cases (-gap x.1 y.1)
        omega
      have hanti := h.antisymm x hx y hy
      rw [sign_compare x.2.toWide y.2.toWide, sign_compare y.2.toWide x.2.toWide, hmin,
        hmin'] at hanti
      exact absurd hanti (by decide)
  refine ⟨apart, ?_⟩
  intro x hx y hy z hz hsum
  have hxy := toInt32_apart (apart x hx y hy)
  have hyz := toInt32_apart (apart y hy z hz)
  have hxz := toInt32_apart (apart x hx z hz)
  have hup := h.trans x hx y hy z hz
  have hdown := h.trans z hz y hy x hx
  rw [compare_nonpos_iff x.2.toWide y.2.toWide, compare_nonpos_iff y.2.toWide z.2.toWide,
    compare_nonpos_iff x.2.toWide z.2.toWide] at hup
  rw [compare_nonpos_iff z.2.toWide y.2.toWide, compare_nonpos_iff y.2.toWide x.2.toWide,
    compare_nonpos_iff z.2.toWide x.2.toWide, gap_swap y.1 z.1, gap_swap x.1 y.1,
    gap_swap x.1 z.1, toInt32_neg hxy.1, toInt32_neg hyz.1, toInt32_neg hxz.1] at hdown
  obtain ⟨_, _, q, _⟩ := toInt32_cases (gap x.1 y.1)
  obtain ⟨_, _, r, _⟩ := toInt32_cases (gap y.1 z.1)
  obtain ⟨_, _, p, _⟩ := toInt32_cases (gap x.1 z.1)
  omega

/--
**The comparator is a total order on a set of written keys exactly when the cut to
32 bits does no harm there.**
-/
theorem totalOrderOn_iff (K : Set StoredKey) : TotalOrderOn K ↔ CutHarmless K :=
  ⟨cutHarmless_of_totalOrderOn, totalOrderOn_of_cutHarmless⟩

/-- An integer datom key, as `handle_transact` fills it. -/
def intKey (ns : Nat) (sort : Nat) (e a t x : Int) : CustomKey :=
  { CustomKey.zeroed with
    ns := ns, type := .keyInteger, sort := sort, e := e, a := a, t := t, v := Value.zero.setI x }

theorem intKey_written {e : Int} (h0 : 0 ≤ e) (h1 : e < 2 ^ 63) :
    Written (intKey 0 sortEATV e 100 2 5) := by
  refine ⟨⟨?_, ⟨?_, h1⟩, ?_, ?_, ?_, ?_⟩, h0, Or.inr (Or.inr ⟨Or.inl rfl, Or.inl rfl⟩)⟩
  · show (0 : Nat) < 2 ^ 32; norm_num
  · show -2 ^ 63 ≤ e; omega
  · show IsInt64 100; exact ⟨by norm_num, by norm_num⟩
  · show IsInt64 2; exact ⟨by norm_num, by norm_num⟩
  · show -2 ^ 15 ≤ (0 : Int) ∧ (0 : Int) < 2 ^ 15; norm_num
  · show sortEATV < 256; decide

/-- Two facts about entities 2^32 apart are taken for one. -/
theorem not_totalOrderOn_all : ¬ TotalOrderOn Set.univ := by
  intro h
  have hcmp : customKeyCompare (intKey 0 sortEATV 11 100 2 5)
      (intKey 0 sortEATV (11 + 2 ^ 32) 100 2 5) = 0 := by decide
  have hsame := h.eq_zero ⟨_, intKey_written (e := 11) (by norm_num) (by norm_num)⟩ trivial
    ⟨_, intKey_written (e := 11 + 2 ^ 32) (by norm_num) (by norm_num)⟩ trivial hcmp
  have he : (11 : Int) = 11 + 2 ^ 32 := hsame.2.2.2.1
  norm_num at he

/-! ### Keys that stay in one window -/

/-- Every field lies in a window of 2^31, so no difference leaves 32 bits. -/
structure Fits (k : CustomKey) : Prop where
  ns_lt : k.ns < 2 ^ 31
  e_range : -2 ^ 30 ≤ k.e ∧ k.e < 2 ^ 30
  a_range : -2 ^ 30 ≤ k.a ∧ k.a < 2 ^ 30
  t_range : -2 ^ 30 ≤ k.t ∧ k.t < 2 ^ 30
  pad_range : -2 ^ 15 ≤ k.pad ∧ k.pad < 2 ^ 15
  sort_lt : k.sort < 256
  i_range : k.type = .keyInteger → -2 ^ 30 ≤ k.v.i ∧ k.v.i < 2 ^ 30

theorem Fits.wide {k : CustomKey} (h : Fits k) : Wide k := by
  have h1 := h.ns_lt
  have h2 := h.e_range
  have h3 := h.a_range
  have h4 := h.t_range
  exact ⟨by omega, ⟨by omega, by omega⟩, ⟨by omega, by omega⟩, ⟨by omega, by omega⟩,
    h.pad_range, h.sort_lt⟩

theorem Fits.mem_valueCoords {k : CustomKey} (h : Fits k) :
    ∀ c ∈ k.valueCoords, -2 ^ 30 ≤ c ∧ c < 2 ^ 30 := by
  intro c hc
  have hcode := k.type.code_bound
  have hpad := h.pad_range
  have hbytes : ∀ c ∈ byteCoords k.v.bytes, -2 ^ 30 ≤ c ∧ c < 2 ^ 30 := by
    intro c hc
    obtain ⟨b, -, rfl⟩ := List.mem_map.mp hc
    have := b.toNat_lt
    omega
  rcases List.mem_cons.mp hc with rfl | hc
  · omega
  · cases htype : k.type <;> rw [htype] at hc <;> simp only [List.mem_cons, List.not_mem_nil,
      or_false] at hc
    · rw [hc]
      exact h.i_range htype
    · rcases hc with rfl | hc
      · omega
      · exact hbytes c hc

theorem Fits.mem_sortCoords {k : CustomKey} (h : Fits k) :
    ∀ n sorting, ∀ c ∈ k.sortCoords n sorting, -2 ^ 30 ≤ c ∧ c < 2 ^ 30 := by
  intro n
  induction n with
  | zero => intro sorting c hc; simp [CustomKey.sortCoords] at hc
  | succ n ih =>
      intro sorting c hc
      rcases List.mem_append.mp hc with hc | hc
      · cases hf : Sorting.ofBits sorting <;> rw [hf] at hc
        · rw [List.mem_singleton.mp hc]; exact h.e_range
        · rw [List.mem_singleton.mp hc]; exact h.a_range
        · exact h.mem_valueCoords c hc
        · rw [List.mem_singleton.mp hc]; exact h.t_range
      · exact ih _ c hc

theorem Fits.gap_bound {x y : CustomKey} (hx : Fits x) (hy : Fits y) :
    -2 ^ 31 < gap x y ∧ gap x y < 2 ^ 31 := by
  have h1 := hx.ns_lt
  have h2 := hy.ns_lt
  by_cases hns : x.ns = y.ns
  · have hmem : ∀ k : CustomKey, Fits k → ∀ c ∈ k.coords.tail, -2 ^ 30 ≤ c ∧ c < -2 ^ 30 + 2 ^ 31 := by
      intro k hk c hc
      have hsort := hk.sort_lt
      have he := hk.e_range
      have ha := hk.a_range
      have ht := hk.t_range
      have hbytes : ∀ c ∈ byteCoords k.v.bytes, -2 ^ 30 ≤ c ∧ c < -2 ^ 30 + 2 ^ 31 := by
        intro c hc
        obtain ⟨b, -, rfl⟩ := List.mem_map.mp hc
        have := b.toNat_lt
        omega
      unfold CustomKey.coords at hc
      cases htype : k.type <;> rw [htype] at hc <;>
        simp only [List.tail_cons, List.mem_cons, List.not_mem_nil, or_false] at hc
      · rcases hc with rfl | rfl <;> omega
      · rcases hc with rfl | rfl | hc
        · omega
        · omega
        · exact hbytes c hc
      · rcases hc with rfl | rfl <;> omega
      all_goals
        rcases hc with rfl | rfl | hc
        · omega
        · omega
        · have := hk.mem_sortCoords 4 k.sort c hc
          omega
    have hgap : gap x y = firstDiff x.coords.tail y.coords.tail := by
      unfold gap CustomKey.coords
      rw [hns, firstDiff_cons_self]
      rfl
    rw [hgap]
    exact firstDiff_bound _ (by norm_num) (hmem x hx) (hmem y hy)
  · have hgap : gap x y = (x.ns : Int) - y.ns := by
      unfold gap CustomKey.coords
      exact firstDiff_cons_ne (by omega) _ _
    omega

/-- **On keys that fit, the comparator is the lexicographic order of the coordinates.** -/
theorem compare_agrees : OrderedMap.Agrees customKeyCompare CustomKey.coords Fits := by
  have hcut : ∀ {x y : CustomKey}, Fits x → Fits y → toInt32 (gap x y) = gap x y := by
    intro x y hx hy
    obtain ⟨h1, h2⟩ := hx.gap_bound hy
    exact toInt32_eq_self (by omega) h2
  refine ⟨?_, ?_⟩
  · intro x y hx hy
    rw [compare_neg_iff hx.wide hy.wide, hcut hx hy]
    exact firstDiff_neg_iff (aligned_coords x y)
  · intro x y hx hy
    rw [compare_eq_zero_iff hx.wide hy.wide, hcut hx hy]
    exact gap_eq_zero_iff x y

end Nstore
