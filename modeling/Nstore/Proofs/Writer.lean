/-
What the writer writes.

`itoa` looks two digits at a time up in a table and skips leading zeros branch by
branch; all of its branches write the plain numeral.  The writer decides from its
levels what separates two values; after `Accept` the levels are as before, with one
value more, and what it has put out is the text of the value.

`text` is that text, written down without levels.
-/
import Nstore.Writer
import Nstore.Lib.Decimal

namespace Nstore

/-! ### Numerals -/

namespace Itoa

open Decimal

/-- The table holds the two digits of every number below 100. -/
theorem lut_eq : ∀ x < 100, lut (x * 2) = byte (x / 10) ∧ lut (x * 2 + 1) = byte (x % 10) := by
  decide +kernel

theorem lut_even {x : Nat} (h : x < 100) : lut (x * 2) = byte (x / 10) := (lut_eq x h).1

theorem lut_odd {x : Nat} (h : x < 100) : lut (x * 2 + 1) = byte (x % 10) := (lut_eq x h).2

private theorem padded_eight (v : Nat) : padded 8 v =
    [byte (v / 10000000 % 10), byte (v / 1000000 % 10), byte (v / 100000 % 10),
      byte (v / 10000 % 10), byte (v / 1000 % 10), byte (v / 100 % 10), byte (v / 10 % 10),
      byte (v % 10)] := by
  simp [padded]

/-- The eight lookups for a number of up to eight digits. -/
structure Lookups (v : Nat) : Prop where
  d1 : lut (v / 10000 / 100 * 2) = byte (v / 10000000 % 10)
  d1' : lut (v / 10000 / 100 * 2 + 1) = byte (v / 1000000 % 10)
  d2 : lut (v / 10000 % 100 * 2) = byte (v / 100000 % 10)
  d2' : lut (v / 10000 % 100 * 2 + 1) = byte (v / 10000 % 10)
  d3 : lut (v % 10000 / 100 * 2) = byte (v / 1000 % 10)
  d3' : lut (v % 10000 / 100 * 2 + 1) = byte (v / 100 % 10)
  d4 : lut (v % 10000 % 100 * 2) = byte (v / 10 % 10)
  d4' : lut (v % 10000 % 100 * 2 + 1) = byte (v % 10)

theorem lookups {v : Nat} (h : v < 100000000) : Lookups v := by
  have h1 : v / 10000 / 100 / 10 = v / 10000000 % 10 := by omega
  have h2 : v / 10000 / 100 % 10 = v / 1000000 % 10 := by omega
  have h3 : v / 10000 % 100 / 10 = v / 100000 % 10 := by omega
  have h4 : v / 10000 % 100 % 10 = v / 10000 % 10 := by omega
  have h5 : v % 10000 / 100 / 10 = v / 1000 % 10 := by omega
  have h6 : v % 10000 / 100 % 10 = v / 100 % 10 := by omega
  have h7 : v % 10000 % 100 / 10 = v / 10 % 10 := by omega
  have h8 : v % 10000 % 100 % 10 = v % 10 := by omega
  constructor
  · rw [lut_even (by omega), h1]
  · rw [lut_odd (by omega), h2]
  · rw [lut_even (by omega), h3]
  · rw [lut_odd (by omega), h4]
  · rw [lut_even (by omega), h5]
  · rw [lut_odd (by omega), h6]
  · rw [lut_even (by omega), h7]
  · rw [lut_odd (by omega), h8]

/-- A block of eight digits. -/
theorem eightDigits_eq {v : Nat} (h : v < kTen8) : eightDigits v = padded 8 v := by
  have hv := lookups h
  rw [padded_eight]
  unfold eightDigits
  simp only
  rw [hv.d1, hv.d1', hv.d2, hv.d2', hv.d3, hv.d3', hv.d4, hv.d4']

private theorem leading_four (v : Nat) : leading 4 v =
    putIf (v ≥ 1000) (byte (v / 1000 % 10)) ++ putIf (v ≥ 100) (byte (v / 100 % 10)) ++
      putIf (v ≥ 10) (byte (v / 10 % 10)) ++ [byte (v % 10)] := by
  simp [leading, putIf]

theorem leading_eight (v : Nat) : leading 8 v =
    putIf (v ≥ 10000000) (byte (v / 10000000 % 10)) ++
      putIf (v ≥ 1000000) (byte (v / 1000000 % 10)) ++
      putIf (v ≥ 100000) (byte (v / 100000 % 10)) ++ putIf (v ≥ 10000) (byte (v / 10000 % 10)) ++
      putIf (v ≥ 1000) (byte (v / 1000 % 10)) ++ putIf (v ≥ 100) (byte (v / 100 % 10)) ++
      putIf (v ≥ 10) (byte (v / 10 % 10)) ++ [byte (v % 10)] := by
  simp [leading, putIf]

/-- The branch for up to four digits. -/
theorem fourDigits_eq {value : Nat} (h : value < 10000) :
    putIf (value ≥ 1000) (lut (value / 100 * 2)) ++
      putIf (value ≥ 100) (lut (value / 100 * 2 + 1)) ++
      putIf (value ≥ 10) (lut (value % 100 * 2)) ++ [lut (value % 100 * 2 + 1)] =
        ofNat value := by
  rw [← leading_eq (k := 3) (by omega), leading_four, lut_even (by omega), lut_odd (by omega),
    lut_even (by omega), lut_odd (by omega)]
  have h1 : value / 100 / 10 = value / 1000 % 10 := by omega
  have h2 : value % 100 / 10 = value / 10 % 10 := by omega
  have h3 : value % 100 % 10 = value % 10 := by omega
  rw [h1, h2, h3]

/-- The branch for five to eight digits. -/
theorem fiveToEight_eq {value : Nat} (hle : 10000 ≤ value) (h : value < 100000000) :
    putIf (value ≥ 10000000) (lut (value / 10000 / 100 * 2)) ++
      putIf (value ≥ 1000000) (lut (value / 10000 / 100 * 2 + 1)) ++
      putIf (value ≥ 100000) (lut (value / 10000 % 100 * 2)) ++
      [lut (value / 10000 % 100 * 2 + 1), lut (value % 10000 / 100 * 2),
        lut (value % 10000 / 100 * 2 + 1), lut (value % 10000 % 100 * 2),
        lut (value % 10000 % 100 * 2 + 1)] = ofNat value := by
  have hv := lookups h
  rw [← leading_eq (k := 7) (by omega), leading_eight, hv.d1, hv.d1', hv.d2, hv.d2', hv.d3, hv.d3',
    hv.d4, hv.d4']
  -- from the fourth on the digits are always there
  have hput (d : UInt8) (m : Nat) (hm : m ≤ 10000) : putIf (value ≥ m) d = [d] :=
    if_pos (le_trans hm hle)
  rw [hput _ 10000 le_rfl, hput _ 1000 (by norm_num), hput _ 100 (by norm_num),
    hput _ 10 (by norm_num)]
  simp

theorem putIf_congr {c c' : Prop} [Decidable c] [Decidable c'] (h : c ↔ c') (d : UInt8) :
    putIf c d = putIf c' d := by
  unfold putIf
  simp only [h]

/-- The first part of the branch for nine to sixteen digits. -/
theorem nineToSixteen_eq {value : Nat} (hle : kTen8 ≤ value) (h : value / kTen8 < kTen8) :
    putIf (value ≥ kTen15) (lut (value / kTen8 / 10000 / 100 * 2)) ++
      putIf (value ≥ kTen14) (lut (value / kTen8 / 10000 / 100 * 2 + 1)) ++
      putIf (value ≥ kTen13) (lut (value / kTen8 / 10000 % 100 * 2)) ++
      putIf (value ≥ kTen12) (lut (value / kTen8 / 10000 % 100 * 2 + 1)) ++
      putIf (value ≥ kTen11) (lut (value / kTen8 % 10000 / 100 * 2)) ++
      putIf (value ≥ kTen10) (lut (value / kTen8 % 10000 / 100 * 2 + 1)) ++
      putIf (value ≥ kTen9) (lut (value / kTen8 % 10000 % 100 * 2)) ++
      putIf (value ≥ kTen8) (lut (value / kTen8 % 10000 % 100 * 2 + 1)) =
        ofNat (value / kTen8) := by
  have hcond (k : Nat) : value ≥ kTen8 * k ↔ value / kTen8 ≥ k := by
    rw [ge_iff_le, ge_iff_le, Nat.le_div_iff_mul_le (by decide), Nat.mul_comm]
  have h9 : value ≥ kTen9 ↔ value / kTen8 ≥ 10 := hcond _
  have h10 : value ≥ kTen10 ↔ value / kTen8 ≥ 100 := hcond _
  have h11 : value ≥ kTen11 ↔ value / kTen8 ≥ 1000 := hcond _
  have h12 : value ≥ kTen12 ↔ value / kTen8 ≥ 10000 := hcond _
  have h13 : value ≥ kTen13 ↔ value / kTen8 ≥ 100000 := hcond _
  have h14 : value ≥ kTen14 ↔ value / kTen8 ≥ 1000000 := hcond _
  have h15 : value ≥ kTen15 ↔ value / kTen8 ≥ 10000000 := hcond _
  have hv := lookups h
  rw [← leading_eq (k := 7) h, leading_eight, hv.d1, hv.d1', hv.d2, hv.d2', hv.d3, hv.d3', hv.d4,
    hv.d4', putIf_congr h15, putIf_congr h14, putIf_congr h13, putIf_congr h12, putIf_congr h11,
    putIf_congr h10, putIf_congr h9]
  exact congrArg _ (if_pos hle)

/-- The first part of the last branch: one to four digits. -/
theorem headDigits_eq {a : Nat} (h : a < 10000) :
    (if a < 10 then [digit a]
      else if a < 100 then [lut (a * 2), lut (a * 2 + 1)]
      else if a < 1000 then [digit (a / 100), lut (a % 100 * 2), lut (a % 100 * 2 + 1)]
      else [lut (a / 100 * 2), lut (a / 100 * 2 + 1), lut (a % 100 * 2), lut (a % 100 * 2 + 1)]) =
        ofNat a := by
  split
  · rename_i h1
    rw [ofNat_of_lt h1]
    rfl
  · rename_i h1
    split
    · rename_i h2
      rw [lut_even h2, lut_odd h2, ofNat_of_le (by omega), ofNat_of_lt (by omega)]
      rfl
    · rename_i h2
      have h100 : a % 100 / 10 = a / 10 % 10 := by omega
      have h10 : a % 100 % 10 = a % 10 := by omega
      have hdiv : a / 10 / 10 = a / 100 := by omega
      split
      · rw [lut_even (by omega), lut_odd (by omega), ofNat_of_le (n := a) (by omega),
          ofNat_of_le (n := a / 10) (by omega), hdiv, ofNat_of_lt (by omega), h100, h10]
        rfl
      · have hdiv' : a / 100 / 10 = a / 10 / 10 / 10 := by omega
        rw [lut_even (by omega), lut_odd (by omega), lut_even (by omega), lut_odd (by omega),
          ofNat_of_le (n := a) (by omega), ofNat_of_le (n := a / 10) (by omega),
          ofNat_of_le (n := a / 10 / 10) (by omega), ofNat_of_lt (by omega), hdiv', hdiv, h100, h10]
        rfl

theorem u32toa_eq {value : Nat} (h : value < 2 ^ 32) : u32toa value = ofNat value := by
  unfold u32toa
  split
  · rename_i hlt
    exact fourDigits_eq hlt
  · split
    · rename_i hle hlt
      exact fiveToEight_eq (Nat.not_lt.mp hle) hlt
    · rename_i hle
      have hle : 10 ^ 8 ≤ value := Nat.not_lt.mp hle
      have hhead : (if value / 100000000 ≥ 10 then
          [lut (value / 100000000 * 2), lut (value / 100000000 * 2 + 1)]
          else [digit (value / 100000000)]) = ofNat (value / 10 ^ 8) := by
        split
        · rw [lut_even (by omega), lut_odd (by omega), ofNat_of_le (by omega),
            ofNat_of_lt (by omega)]
          rfl
        · rw [ofNat_of_lt (by omega)]
          rfl
      have htail : eightDigits (value % 100000000) = padded 8 (value % 100000000) :=
        eightDigits_eq (Nat.mod_lt _ (by norm_num))
      rw [ofNat_split 8 hle, ← hhead]
      exact congrArg _ htail

/-- **`u64toa` writes the numeral.** -/
theorem u64toa_eq {value : Nat} (h : value < 2 ^ 64) : u64toa value = ofNat value := by
  have hpow : 10 ^ 8 = kTen8 := by decide
  unfold u64toa
  split
  · rename_i hlt8
    split
    · rename_i hlt
      exact fourDigits_eq hlt
    · rename_i hle
      exact fiveToEight_eq (Nat.not_lt.mp hle) hlt8
  · rename_i hle8
    have hle8 : kTen8 ≤ value := Nat.not_lt.mp hle8
    have hpos : 0 < kTen8 := by decide
    split
    · rename_i hlt16
      have hsplit := ofNat_split (m := value) 8 (hpow ▸ hle8)
      rw [hpow, ← eightDigits_eq (Nat.mod_lt _ hpos),
        ← nineToSixteen_eq hle8 (Nat.div_lt_of_lt_mul hlt16)] at hsplit
      exact hsplit.symm
    · rename_i hle16
      have hle16 : 10 ^ 16 ≤ value := Nat.not_lt.mp hle16
      have hpow16 : 10 ^ 16 = kTen16 := by decide
      have hhigh : value / kTen16 < 10000 := by
        rw [← hpow16]
        omega
      have hlow : value % kTen16 < kTen8 * kTen8 := Nat.mod_lt _ (by decide)
      rw [ofNat_split 16 hle16, padded_add _ 8 8, ← padded_mod 8 (value % 10 ^ 16), hpow, hpow16,
        ← eightDigits_eq (Nat.div_lt_of_lt_mul hlow), ← eightDigits_eq (Nat.mod_lt _ hpos),
        ← headDigits_eq hhigh, ← List.append_assoc]

/--
**What `itoa` writes is read as the number it was given.**  It is digits only, at least
one, and the first is no zero unless it stands alone; where a number fits both functions,
their different branches write the same bytes.
-/
theorem u64toa_reads {value : Nat} (h : value < 2 ^ 64) :
    Decimal.value 0 (u64toa value) = value ∧ (∀ c ∈ u64toa value, isDigit c = true) ∧
      (value = 0 → u64toa value = [48]) ∧ (value ≠ 0 → (u64toa value).headD 48 ≠ 48) ∧
      (value < 2 ^ 32 → u32toa value = u64toa value) := by
  rw [u64toa_eq h]
  refine ⟨value_ofNat value, isDigit_of_mem_ofNat value, ?_, ?_, u32toa_eq⟩
  · intro h0
    rw [h0, ofNat_of_lt (by norm_num)]
    rfl
  · intro h0
    obtain ⟨d, ds, hpos, hlt, hd⟩ := ofNat_cons value h0
    rw [hd, List.headD_cons]
    intro hzero
    have hbyte : (byte d).toNat = 48 := congrArg UInt8.toNat hzero
    rw [toNat_byte hlt] at hbyte
    omega

/-- The largest number there is takes the last branch. -/
theorem u64toa_reads_max : Decimal.value 0 (u64toa (2 ^ 64 - 1)) = 2 ^ 64 - 1 :=
  (u64toa_reads (by norm_num)).1

end Itoa

/-! ### Texts -/

namespace GenericValue

open Writer

mutual

/-- The text of a value. -/
def text : GenericValue Empty → Bytes
  | .null => ascii "null"
  | .bool b => if b then ascii "true" else ascii "false"
  | .int i => writeNumber i
  | .string s => writeString s
  | .array xs => 91 :: textElements true xs ++ [93]
  | .object ms => 123 :: textMembers true ms ++ [125]

/-- The text of elements, with a comma before each but the first. -/
def textElements (first : Bool) : List (GenericValue Empty) → Bytes
  | [] => []
  | x :: xs => (if first then [] else [44]) ++ (text x ++ textElements false xs)

def textMembers (first : Bool) : List (Member Empty) → Bytes
  | [] => []
  | (name, x) :: ms =>
      (if first then [] else [44]) ++ (writeString name ++ 58 :: (text x ++ textMembers false ms))

end

end GenericValue

namespace Writer

open GenericValue

theorem put_mk {out bs : Bytes} {ls : List Level} : put bs ⟨out, ls⟩ = ⟨out ++ bs, ls⟩ := rfl

/-- A comma stands before every element but the first. -/
theorem putPrefix_element {out : Bytes} {n : Nat} {ls : List Level} :
    putPrefix ⟨out, ⟨n, true⟩ :: ls⟩ =
      ⟨out ++ (if decide (n = 0) then [] else [44]), ⟨n + 1, true⟩ :: ls⟩ := by
  simp only [putPrefix, decide_eq_true_eq]
  split <;> rfl

/-- A name is written at an even place. -/
theorem putPrefix_name {out : Bytes} {n : Nat} {ls : List Level} :
    putPrefix ⟨out, ⟨2 * n, false⟩ :: ls⟩ =
      ⟨out ++ (if decide (n = 0) then [] else [44]), ⟨2 * n + 1, false⟩ :: ls⟩ := by
  simp only [putPrefix, decide_eq_true_eq]
  by_cases h : n = 0
  · simp [h]
  · simp [h]

/-- And its value at an odd one. -/
theorem putPrefix_value {out : Bytes} {n : Nat} {ls : List Level} :
    putPrefix ⟨out, ⟨2 * n + 1, false⟩ :: ls⟩ =
      ⟨out ++ [58], ⟨2 * (n + 1), false⟩ :: ls⟩ := by
  simp [putPrefix]
  omega

mutual

/-- **`Accept` writes the text of a value**, after what separates it from the one before. -/
theorem accept_eq (w : Writer) : ∀ v, accept w v = w.putPrefix.put v.text
  | .null => by rw [accept, text]
  | .bool b => by rw [accept, text]
  | .int i => by rw [accept, text]
  | .string s => by rw [accept, text]
  | .array xs => by
      rw [accept, start, acceptElements_eq, text, finish]
      simp [put]
  | .object ms => by
      rw [accept, start]
      have h := acceptMembers_eq (w.putPrefix.out ++ [123]) 0 w.putPrefix.levels ms
      simp only [Bool.false_eq_true, if_false]
      rw [h, text, finish]
      simp [put]

theorem acceptElements_eq (out : Bytes) (n : Nat) (ls : List Level) : ∀ xs,
    acceptElements ⟨out, ⟨n, true⟩ :: ls⟩ xs =
      ⟨out ++ textElements (decide (n = 0)) xs, ⟨n + xs.length, true⟩ :: ls⟩
  | [] => by simp [acceptElements, textElements]
  | x :: xs => by
      rw [acceptElements, accept_eq, putPrefix_element, put_mk, acceptElements_eq, textElements]
      simp [Nat.add_comm, Nat.add_left_comm]

theorem acceptMembers_eq (out : Bytes) (n : Nat) (ls : List Level) : ∀ ms,
    acceptMembers ⟨out, ⟨2 * n, false⟩ :: ls⟩ ms =
      ⟨out ++ textMembers (decide (n = 0)) ms, ⟨2 * (n + ms.length), false⟩ :: ls⟩
  | [] => by simp [acceptMembers, textMembers]
  | (name, x) :: ms => by
      rw [acceptMembers, accept_eq, key, putPrefix_name]
      simp only [put_mk, putPrefix_value]
      rw [acceptMembers_eq, textMembers]
      simp [Nat.add_comm, Nat.add_left_comm]

end

end Writer

end Nstore
