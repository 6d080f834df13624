/-
Decimal numerals as bytes.

`ofNat n` is the numeral of `n`, its first digit first.  A printer that works by blocks
writes the numeral of the upper part and then `padded`, a fixed number of digits, of
the lower part; one that skips leading zeros digit by digit writes `leading`.

`value` is what a reader that goes from left to right makes of digits, and it never
passes on the way what it ends with.
-/
import Mathlib.Tactic

namespace Decimal

/-! ### Numerals -/

def byte (d : Nat) : UInt8 := UInt8.ofNat (48 + d)

/-- The numeral of a number. -/
def ofNat (n : Nat) : List UInt8 := (Nat.toDigits 10 n).map fun c => UInt8.ofNat c.toNat

variable {n k : Nat}

theorem byte_digitChar (h : n < 10) : UInt8.ofNat n.digitChar.toNat = byte n := by
  rw [Nat.toNat_digitChar_of_lt_ten h]
  rfl

theorem ofNat_of_lt (h : n < 10) : ofNat n = [byte n] := by
  unfold ofNat
  rw [Nat.toDigits_of_lt_base h, List.map_cons, byte_digitChar h]
  rfl

theorem ofNat_of_le (h : 10 ≤ n) : ofNat n = ofNat (n / 10) ++ [byte (n % 10)] := by
  unfold ofNat
  rw [Nat.toDigits_of_base_le (by norm_num) h, List.map_append, List.map_cons,
    byte_digitChar (Nat.mod_lt n (by norm_num))]
  rfl

/-! ### Blocks of digits -/

/-- The last `k` digits, with zeros in front. -/
def padded : Nat → Nat → List UInt8
  | 0, _ => []
  | k + 1, n => byte (n / 10 ^ k % 10) :: padded k n

theorem padded_concat : ∀ (k n : Nat), padded (k + 1) n = padded k (n / 10) ++ [byte (n % 10)] := by
  intro k
  induction k with
  | zero => intro n; simp [padded]
  | succ k ih =>
      intro n
      rw [padded, ih, padded, Nat.div_div_eq_div_mul, ← pow_succ', List.cons_append]

/-- A numeral is the numeral of its upper part and the digits of its lower part. -/
theorem ofNat_append_padded {a : Nat} (ha : 0 < a) : ∀ (k : Nat) {b : Nat}, b < 10 ^ k →
    ofNat (a * 10 ^ k + b) = ofNat a ++ padded k b := by
  intro k
  induction k with
  | zero =>
      intro b hb
      have hb : b = 0 := by simpa using hb
      simp [hb, padded]
  | succ k ih =>
      intro b hb
      have hsplit : a * 10 ^ (k + 1) + b = 10 * (a * 10 ^ k + b / 10) + b % 10 := by
        rw [pow_succ]
        have := Nat.div_add_mod b 10
        linarith
      have hpos : 0 < a * 10 ^ k := Nat.mul_pos ha (pow_pos (by norm_num) k)
      have hlow : b / 10 < 10 ^ k := by
        rw [pow_succ] at hb
        omega
      rw [hsplit, ofNat_of_le (by omega), padded_concat, ← List.append_assoc, ← ih hlow]
      congr 2
      · omega
      · congr 1
        omega

theorem ofNat_split {m : Nat} (k : Nat) (h : 10 ^ k ≤ m) :
    ofNat m = ofNat (m / 10 ^ k) ++ padded k (m % 10 ^ k) := by
  have hpos : 0 < 10 ^ k := pow_pos (by norm_num) k
  rw [← ofNat_append_padded (Nat.div_pos h hpos) k (Nat.mod_lt m hpos), Nat.div_add_mod']

theorem padded_mod : ∀ (k n : Nat), padded k (n % 10 ^ k) = padded k n := by
  intro k
  induction k with
  | zero => intro n; rfl
  | succ k ih =>
      intro n
      rw [padded, padded, ← ih (n % 10 ^ (k + 1)), ← ih n,
        Nat.mod_mod_of_dvd _ (pow_dvd_pow 10 k.le_succ)]
      congr 2
      rw [pow_succ, Nat.mod_mul_right_div_self, Nat.mod_mod]

theorem padded_add (n m : Nat) : ∀ k, padded (k + m) n = padded k (n / 10 ^ m) ++ padded m n := by
  intro k
  induction k with
  | zero => simp [padded]
  | succ k ih =>
      rw [Nat.succ_add, padded, ih, padded, Nat.div_div_eq_div_mul, ← pow_add, Nat.add_comm m k]
      rfl

/-! ### Leading zeros -/

/-- Up to `k` digits, where a digit is left out if the number is too small to have it. -/
def leading : Nat → Nat → List UInt8
  | 0, _ => []
  | k + 1, n => (if k = 0 ∨ 10 ^ k ≤ n then [byte (n / 10 ^ k % 10)] else []) ++ leading k n

theorem leading_eq_padded : ∀ {k : Nat}, 10 ^ k ≤ n → leading (k + 1) n = padded (k + 1) n := by
  intro k
  induction k with
  | zero => intro _; simp [leading, padded]
  | succ k ih =>
      intro h
      have hle : 10 ^ k ≤ n := le_trans (Nat.pow_le_pow_right (by norm_num) k.le_succ) h
      rw [leading, if_pos (.inr h), ih hle, padded]
      rfl

/-- **Digits without leading zeros are the numeral.** -/
theorem leading_eq : ∀ {k : Nat}, n < 10 ^ (k + 1) → leading (k + 1) n = ofNat n := by
  intro k
  induction k with
  | zero =>
      intro h
      have h : n < 10 := by simpa using h
      rw [ofNat_of_lt h]
      simp [leading, Nat.mod_eq_of_lt h]
  | succ k ih =>
      intro h
      by_cases hle : 10 ^ (k + 1) ≤ n
      · have hlt : n / 10 ^ (k + 1) < 10 := by
          rw [pow_succ] at h
          exact Nat.div_lt_of_lt_mul h
        rw [leading_eq_padded hle, ofNat_split (k + 1) hle, padded_mod, ofNat_of_lt hlt]
        conv_lhs => rw [padded, Nat.mod_eq_of_lt hlt]
        rfl
      · have hnot : ¬ (k + 1 = 0 ∨ 10 ^ (k + 1) ≤ n) := by simp [Nat.not_le.mp hle]
        rw [leading, if_neg hnot, List.nil_append]
        exact ih (Nat.not_le.mp hle)

/-! ### Reading -/

def isDigit (c : UInt8) : Bool := 48 ≤ c && c ≤ 57

/-- What digits stand for after a number read so far. -/
def value (i : Nat) (ds : List UInt8) : Nat := ds.foldl (fun i c => 10 * i + (c.toNat - 48)) i

theorem toNat_byte {d : Nat} (h : d < 10) : (byte d).toNat = 48 + d := by
  unfold byte
  rw [UInt8.toNat_ofNat']
  omega

theorem isDigit_byte {d : Nat} (h : d < 10) : isDigit (byte d) = true := by
  have hle : (48 : UInt8) ≤ byte d ∧ byte d ≤ 57 := by
    rw [UInt8.le_iff_toNat_le, UInt8.le_iff_toNat_le, toNat_byte h]
    constructor
    · show 48 ≤ 48 + d; omega
    · show 48 + d ≤ 57; omega
  simp [isDigit, hle]

theorem le_value : ∀ (ds : List UInt8) (i : Nat), i ≤ value i ds := by
  intro ds
  induction ds with
  | nil => intro i; exact le_rfl
  | cons c ds ih =>
      intro i
      have := ih (10 * i + (c.toNat - 48))
      unfold value at this ⊢
      rw [List.foldl_cons]
      omega

theorem value_append (i : Nat) (ds es : List UInt8) : value i (ds ++ es) = value (value i ds) es :=
  List.foldl_append

theorem ofNat_induction {P : Nat → Prop} (small : ∀ n < 10, P n)
    (large : ∀ n, 10 ≤ n → P (n / 10) → P n) : ∀ n, P n := by
  intro n
  induction n using Nat.strong_induction_on with
  | _ n ih =>
      by_cases h : n < 10
      · exact small n h
      · exact large n (Nat.not_lt.mp h) (ih (n / 10) (by omega))

/-- **Reading a numeral gives the number.** -/
theorem value_ofNat : ∀ n, value 0 (ofNat n) = n := by
  apply ofNat_induction
  · intro n h
    rw [ofNat_of_lt h]
    simp [value, toNat_byte h]
  · intro n h ih
    rw [ofNat_of_le h, value_append, ih]
    simp only [value, List.foldl_cons, List.foldl_nil, toNat_byte (Nat.mod_lt n (by norm_num))]
    omega

theorem isDigit_of_mem_ofNat : ∀ n, ∀ c ∈ ofNat n, isDigit c = true := by
  apply ofNat_induction
  · intro n h c hc
    rw [ofNat_of_lt h, List.mem_singleton] at hc
    rw [hc, isDigit_byte h]
  · intro n h ih c hc
    rw [ofNat_of_le h] at hc
    rcases List.mem_append.mp hc with hc | hc
    · exact ih c hc
    · rw [List.mem_singleton.mp hc, isDigit_byte (Nat.mod_lt n (by norm_num))]

/-- A numeral begins with a digit that is not zero, but for the numeral of zero. -/
theorem ofNat_cons : ∀ n, n ≠ 0 → ∃ d ds, 0 < d ∧ d < 10 ∧ ofNat n = byte d :: ds := by
  apply ofNat_induction
  · intro n h h0
    exact ⟨n, [], Nat.pos_of_ne_zero h0, h, ofNat_of_lt h⟩
  · intro n h ih _
    obtain ⟨d, ds, hpos, hlt, hd⟩ := ih (by omega)
    refine ⟨d, ds ++ [byte (n % 10)], hpos, hlt, ?_⟩
    rw [ofNat_of_le h, hd]
    rfl

end Decimal
