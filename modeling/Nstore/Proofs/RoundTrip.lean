/-
Reading what was written.

The writer escapes byte by byte and the reader undoes each escape, the reader's loops
over digits end at the number the numeral was made of, and a comma or a closing bracket
ends every number that is not the whole text.  So the text of a value, read at any place
of a document, gives the value back and leaves what stood after it.

A number has to fit 64 bits, signed or unsigned: that is what the writer's integers are.
-/
import Nstore.Proofs.Writer
import Nstore.Proofs.Reader
import Mathlib.Data.List.TakeWhile

namespace Nstore

/-! ### Numerals -/

open Decimal (ofNat value byte)

/-- The numeral of an integer. -/
def numeral (i : Int) : Bytes := if i < 0 then 45 :: ofNat i.natAbs else ofNat i.toNat

/-- Whichever of its four functions `Accept` takes. -/
theorem Writer.writeNumber_eq {i : Int} (lo : -2 ^ 63 ≤ i) (hi : i < 2 ^ 64) :
    writeNumber i = numeral i := by
  have habs : i < 0 → i.natAbs < 2 ^ 64 := by omega
  have hnat : i.toNat < 2 ^ 64 := by omega
  unfold writeNumber numeral
  split
  · rename_i h
    unfold Itoa.i32toa
    split
    · rw [Itoa.u32toa_eq (by omega)]
    · rw [Itoa.u32toa_eq (by omega)]
  · split
    · rename_i h
      rw [Itoa.u32toa_eq (by omega), if_neg (by omega)]
    · split
      · unfold Itoa.i64toa
        split
        · rename_i h
          rw [Itoa.u64toa_eq (habs h)]
        · rw [Itoa.u64toa_eq hnat]
      · rename_i h
        rw [Itoa.u64toa_eq hnat, if_neg (by omega)]

namespace Reader

/-- What may stand after a number: nothing that would go on with it. -/
def Ends (rest : Bytes) : Prop :=
  ∀ c ∈ rest.head?, isDigit c = false ∧ c ≠ 46 ∧ c ≠ 101 ∧ c ≠ 69

private theorem ends_nil : Ends [] := by
  intro c hc
  exact absurd hc (by simp)

theorem ends_cons {c : UInt8} (hd : isDigit c = false) (hc : c ≠ 46 ∧ c ≠ 101 ∧ c ≠ 69)
    (rest : Bytes) : Ends (c :: rest) := by
  intro b hb
  rw [List.head?_cons, Option.mem_some_iff] at hb
  rw [← hb]
  exact ⟨hd, hc⟩

/-- A loop over digits takes some of them, and all if what they stand for fits. -/
theorem accumulate_digits (limit : Nat) (last : UInt8) (hlast : isDigit last = true) {rest : Bytes}
    (hr : Ends rest) : ∀ (ds : Bytes) (i significand : Nat), (∀ c ∈ ds, isDigit c = true) →
      ∃ ds₁ ds₂, ds = ds₁ ++ ds₂ ∧
        accumulate limit last i significand (ds ++ rest) =
          ⟨value i ds₁, significand + ds₁.length, decide (ds₂ ≠ []), ds₂ ++ rest⟩ ∧
        (value i ds ≤ 10 * limit + (last.toNat - 48) → ds₂ = []) := by
  intro ds
  induction ds with
  | nil =>
      intro i significand _
      refine ⟨[], [], rfl, ?_, fun _ => rfl⟩
      cases rest with
      | nil => rfl
      | cons c rest =>
          have hc := (hr c (by simp)).1
          simp [accumulate, hc, value]
  | cons c ds ih =>
      intro i significand hds
      have hc := hds c (by simp)
      have hle : (48 : UInt8).toNat ≤ c.toNat ∧ c.toNat ≤ (57 : UInt8).toNat := by
        simpa [isDigit, UInt8.le_iff_toNat_le] using hc
      rw [List.cons_append, accumulate, if_pos hc]
      split
      · rename_i hfull
        refine ⟨[], c :: ds, rfl, by simp [value], fun hv => ?_⟩
        -- one digit more is already too much
        have hgrow := Decimal.le_value ds (10 * i + (c.toNat - 48))
        have hvalue : value i (c :: ds) = value (10 * i + (c.toNat - 48)) ds := rfl
        have hover : limit < i ∨ last.toNat < c.toNat := by
          rcases hfull.2 with h | h
          · exact .inl (lt_of_le_of_ne hfull.1 (Ne.symm h))
          · exact .inr (UInt8.lt_iff_toNat_lt.mp h)
        have hd : (48 : UInt8).toNat = 48 := rfl
        have hd' : (57 : UInt8).toNat = 57 := rfl
        have hl : (48 : UInt8).toNat ≤ last.toNat ∧ last.toNat ≤ (57 : UInt8).toNat := by
          simpa [isDigit, UInt8.le_iff_toNat_le] using hlast
        omega
      · obtain ⟨ds₁, ds₂, rfl, hacc, hfit⟩ :=
          ih (i * 10 + (c.toNat - 48)) (significand + 1) fun b hb => hds b (by simp [hb])
        have hvalue (es : Bytes) : value i (c :: es) = value (i * 10 + (c.toNat - 48)) es := by
          rw [Nat.mul_comm]
          rfl
        refine ⟨c :: ds₁, ds₂, rfl, ?_, ?_⟩
        · rw [hacc, hvalue, List.length_cons]
          congr 1
          omega
        · rw [hvalue]
          exact hfit

/-- The largest number that is read as an integer. -/
def intBound (minus : Bool) : Nat := if minus then 2 ^ 63 else 2 ^ 64 - 1

private theorem digits64_eq (minus : Bool) {rest : Bytes} (hr : Ends rest) {ds : Bytes}
    (i significand : Nat) (hds : ∀ c ∈ ds, isDigit c = true)
    (hfit : value i ds ≤ intBound minus) :
    digits64 minus i significand (ds ++ rest) =
      ⟨value i ds, significand + ds.length, false, rest⟩ := by
  unfold digits64
  cases minus with
  | true =>
      obtain ⟨ds₁, ds₂, rfl, hacc, hall⟩ :=
        accumulate_digits 0x0CCCCCCCCCCCCCCC 56 rfl hr ds i significand hds
      rw [if_pos rfl, hacc, hall hfit]
      simp
  | false =>
      obtain ⟨ds₁, ds₂, rfl, hacc, hall⟩ :=
        accumulate_digits 0x1999999999999999 53 rfl hr ds i significand hds
      rw [if_neg (by decide), hacc, hall hfit]
      simp

private theorem digits32_eq (minus : Bool) {rest : Bytes} (hr : Ends rest) {ds : Bytes}
    (i significand : Nat) (hds : ∀ c ∈ ds, isDigit c = true) :
    ∃ ds₁ ds₂, ds = ds₁ ++ ds₂ ∧ digits32 minus i significand (ds ++ rest) =
      ⟨value i ds₁, significand + ds₁.length, decide (ds₂ ≠ []), ds₂ ++ rest⟩ := by
  unfold digits32
  cases minus with
  | true =>
      obtain ⟨ds₁, ds₂, hsplit, hacc, -⟩ := accumulate_digits 214748364 56 rfl hr ds i
        significand hds
      exact ⟨ds₁, ds₂, hsplit, hacc⟩
  | false =>
      obtain ⟨ds₁, ds₂, hsplit, hacc, -⟩ := accumulate_digits 429496729 53 rfl hr ds i
        significand hds
      exact ⟨ds₁, ds₂, hsplit, hacc⟩

/-- **An integer that fits 64 bits is read to its end**, whichever loop it ends in. -/
theorem parseInt_numeral (minus : Bool) {n : Nat} (hn : n ≤ intBound minus) {rest : Bytes}
    (hr : Ends rest) :
    ∃ significand, parseInt minus (ofNat n ++ rest) = some ⟨n, significand, false, 0, rest⟩ := by
  by_cases h0 : n = 0
  · subst h0
    rw [Decimal.ofNat_of_lt (by norm_num)]
    exact ⟨0, rfl⟩
  obtain ⟨d, ds, hpos, hlt, hd⟩ := Decimal.ofNat_cons n h0
  have hdigits : ∀ c ∈ ds, isDigit c = true := fun c hc =>
    Decimal.isDigit_of_mem_ofNat n c (by rw [hd]; exact List.mem_cons_of_mem _ hc)
  have hvalue : value d ds = n := by
    have := Decimal.value_ofNat n
    rw [hd] at this
    simpa [value, Decimal.toNat_byte hlt] using this
  have htoNat : (byte d).toNat - 48 = d := by
    rw [Decimal.toNat_byte hlt]
    omega
  have hdigit : byte d ≠ 48 ∧ 49 ≤ byte d ∧ byte d ≤ 57 := by
    rw [← UInt8.toNat_inj.ne, UInt8.le_iff_toNat_le, UInt8.le_iff_toNat_le,
      Decimal.toNat_byte hlt, show (49 : UInt8).toNat = 49 from rfl,
      show (48 : UInt8).toNat = 48 from rfl, show (57 : UInt8).toNat = 57 from rfl]
    omega
  have hpeek : peek (byte d :: (ds ++ rest)) = byte d := rfl
  rw [hd, List.cons_append]
  unfold parseInt
  rw [hpeek, if_neg hdigit.1, if_pos hdigit.2, htoNat, List.tail_cons]
  obtain ⟨ds₁, ds₂, hsplit, hacc⟩ := digits32_eq minus hr d 0 hdigits
  simp only [hacc]
  by_cases hnil : ds₂ = []
  · rw [hnil, List.append_nil] at hsplit
    subst hsplit
    exact ⟨0 + ds.length, by simp [hnil, hvalue]⟩
  · -- the second loop reads what the first has left
    have hvalue' : value (value d ds₁) ds₂ = n := by
      rw [← Decimal.value_append, ← hsplit, hvalue]
    have hbig := digits64_eq minus hr (value d ds₁) (0 + ds₁.length)
      (fun c hc => hdigits c (by simp [hsplit, hc])) (hvalue'.symm ▸ hn)
    refine ⟨0 + ds₁.length + ds₂.length, ?_⟩
    rw [if_pos (by simpa using hnil), parseBigInt]
    simp only [hbig, hvalue']
    rfl

/-- Where neither a point nor an exponent follows, an integer stays one. -/
theorem parseFrac_ends {n : Number} (hr : Ends n.rest) : parseFrac n = some n := by
  have hno : consume n.rest 46 = none := by
    unfold consume
    rw [if_neg]
    intro h
    exact (hr 46 h).2.1 rfl
  unfold parseFrac
  rw [hno]

private theorem parseExp_ends {n : Number} (hr : Ends n.rest) : parseExp n = some (n, 0) := by
  have he : consume n.rest 101 = none := by
    unfold consume
    rw [if_neg]
    intro h
    exact (hr 101 h).2.2.1 rfl
  have hE : consume n.rest 69 = none := by
    unfold consume
    rw [if_neg]
    intro h
    exact (hr 69 h).2.2.2 rfl
  unfold parseExp
  rw [he, hE]
  rfl

theorem parseNumber_eq {is digits rest : Bytes} {minus : Bool} {n significand : Nat}
    (hminus : (consume is 45).isSome = minus) (hdigits : (consume is 45).getD is = digits)
    (hr : Ends rest) (h : parseInt minus digits = some ⟨n, significand, false, 0, rest⟩) :
    parseNumber is = some (.int (if minus then -n else n), rest) := by
  have hfrac := parseFrac_ends (n := ⟨n, significand, false, 0, rest⟩) hr
  have hexp := parseExp_ends (n := ⟨n, significand, false, 0, rest⟩) hr
  unfold parseNumber
  simp only [hminus, hdigits, h, Option.bind_some, hfrac, hexp]
  rfl

/-- A numeral begins with a digit. -/
theorem ofNat_head (n : Nat) : ∃ c ds, ofNat n = c :: ds ∧ isDigit c = true := by
  cases h : ofNat n with
  | nil =>
      by_cases h0 : n = 0
      · rw [h0, Decimal.ofNat_of_lt (by norm_num)] at h
        exact absurd h (by simp)
      · obtain ⟨d, ds, -, -, hd⟩ := Decimal.ofNat_cons n h0
        rw [hd] at h
        exact absurd h (by simp)
  | cons c ds => exact ⟨c, ds, rfl, Decimal.isDigit_of_mem_ofNat n c (by simp [h])⟩

private theorem parseNumber_numeral {i : Int} (lo : -2 ^ 63 ≤ i) (hi : i < 2 ^ 64) {rest : Bytes}
    (hr : Ends rest) : parseNumber (numeral i ++ rest) = some (.int i, rest) := by
  unfold numeral
  split
  · rename_i hneg
    obtain ⟨significand, hn⟩ := parseInt_numeral true
      (show i.natAbs ≤ 2 ^ 63 by omega) hr
    have hsign : -(i.natAbs : Int) = i := by omega
    rw [parseNumber_eq (by rw [List.cons_append, consume_cons]; rfl)
      (by rw [List.cons_append, consume_cons]; rfl) hr hn, if_pos rfl, hsign]
  · rename_i hpos
    obtain ⟨c, ds, hc, hdigit⟩ := ofNat_head i.toNat
    have hfirst : consume (ofNat i.toNat ++ rest) 45 = none := by
      rw [hc, List.cons_append]
      apply consume_cons_ne
      rintro rfl
      exact absurd hdigit (by decide)
    obtain ⟨significand, hn⟩ := parseInt_numeral false
      (show i.toNat ≤ 2 ^ 64 - 1 by omega) hr
    have hsign : (i.toNat : Int) = i := by omega
    rw [parseNumber_eq (by rw [hfirst]; rfl) (by rw [hfirst]; rfl) hr hn, if_neg (by decide), hsign]

/-! ### Strings -/

/-- The escape of a byte, read from behind its backslash, is the byte. -/
theorem parseEscape_short : ∀ n < 256, Writer.escape (UInt8.ofNat n) ≠ 0 →
    Writer.escape (UInt8.ofNat n) ≠ 117 →
      escape (Writer.escape (UInt8.ofNat n)) = UInt8.ofNat n ∧ UInt8.ofNat n ≠ 0 := by
  decide +kernel

/-- The four digits of a control character. -/
theorem parseEscape_long : ∀ n < 256, Writer.escape (UInt8.ofNat n) = 117 →
    hexValue (Writer.hexDigit (n / 16)) = some (n / 16) ∧
      hexValue (Writer.hexDigit (n % 16)) = some (n % 16) ∧ n < 32 := by
  decide +kernel

private theorem parseEscape_writeByte {c : UInt8} (h : Writer.escape c ≠ 0) (is : Bytes) :
    parseEscape ((Writer.writeByte c).tail ++ is) = some ([c], is) := by
  have hc : UInt8.ofNat c.toNat = c := UInt8.ofNat_toNat
  unfold Writer.writeByte
  rw [if_neg h]
  split
  · rename_i hu
    obtain ⟨h₁, h₂, hlt⟩ := parseEscape_long c.toNat c.toNat_lt (hc.symm ▸ hu)
    have hhex : parseHex4 (48 :: 48 :: Writer.hexDigit (c.toNat / 16) ::
        Writer.hexDigit (c.toNat % 16) :: is) = some (c.toNat, is) := by
      have h0 : hexValue 48 = some 0 := rfl
      simp only [parseHex4, parseHex, peek, List.headD_cons, List.tail_cons, h0, h₁, h₂,
        Option.bind_some, Nat.zero_mul, Nat.zero_add, Nat.div_add_mod']
    have hcode : parseCodepoint (48 :: 48 :: Writer.hexDigit (c.toNat / 16) ::
        Writer.hexDigit (c.toNat % 16) :: is) = some (c.toNat, is) := by
      unfold parseCodepoint
      simp only [hhex, Option.bind_some]
      rw [if_neg (by omega)]
    have hutf : encodeUtf8 c.toNat = [c] := by
      unfold encodeUtf8
      rw [if_pos (by omega), hc]
    have hescape : ¬ escape 117 ≠ 0 := by decide
    unfold parseEscape
    simp only [List.tail_cons, List.cons_append, List.nil_append, peek, List.headD_cons]
    rw [if_neg hescape, if_pos trivial, hcode, Option.map_some, hutf]
  · rename_i hu
    obtain ⟨h₁, h₂⟩ := parseEscape_short c.toNat c.toNat_lt (hc.symm ▸ h) (hc.symm ▸ hu)
    rw [hc] at h₁ h₂
    unfold parseEscape
    simp only [List.tail_cons, List.cons_append, List.nil_append, peek, List.headD_cons, h₁]
    rw [if_pos h₂]

/-- What is written as it is, is no control character, quotation mark or backslash. -/
theorem plain_of_escape : ∀ n < 256, Writer.escape (UInt8.ofNat n) = 0 →
    ¬ UInt8.ofNat n < 32 ∧ UInt8.ofNat n ≠ 34 ∧ UInt8.ofNat n ≠ 92 := by
  decide +kernel

/-- One round of the loop reads what was written for one byte. -/
theorem parseStringToStream_writeByte (fuel : Nat) (c : UInt8) (is : Bytes) :
    parseStringToStream (fuel + 1) (Writer.writeByte c ++ is) =
      (parseStringToStream fuel is).map fun r => (c :: r.1, r.2) := by
  by_cases h : Writer.escape c = 0
  · have hplain := plain_of_escape c.toNat c.toNat_lt (by rwa [UInt8.ofNat_toNat])
    rw [UInt8.ofNat_toNat] at hplain
    have hbyte : Writer.writeByte c = [c] := if_pos h
    rw [hbyte, List.cons_append, List.nil_append, parseStringToStream_cons, if_neg hplain.2.2,
      if_neg hplain.2.1, if_neg hplain.1]
  · have hbyte : Writer.writeByte c = 92 :: (Writer.writeByte c).tail := by
      unfold Writer.writeByte
      rw [if_neg h]
      split
      · rfl
      · rfl
    rw [hbyte, List.cons_append, parseStringToStream_cons, if_pos rfl, parseEscape_writeByte h,
      Option.bind_some]
    rfl

/-- **A string is read as it was before it was escaped.** -/
theorem parseStringToStream_flatMap (rest : Bytes) : ∀ (s : Bytes) {fuel : Nat},
    s.length + 1 ≤ fuel →
      parseStringToStream fuel (s.flatMap Writer.writeByte ++ 34 :: rest) = some (s, rest) := by
  intro s
  induction s with
  | nil =>
      intro fuel h
      obtain ⟨fuel, rfl⟩ := Nat.exists_eq_add_of_le' h
      rfl
  | cons c s ih =>
      intro fuel h
      rw [List.length_cons] at h
      obtain ⟨fuel, rfl⟩ := Nat.exists_eq_add_of_le' (show 1 ≤ fuel by omega)
      rw [List.flatMap_cons, List.append_assoc, parseStringToStream_writeByte, ih (by omega),
        Option.map_some]

private theorem length_le_flatMap (s : Bytes) : s.length ≤ (s.flatMap Writer.writeByte).length := by
  induction s with
  | nil => exact le_rfl
  | cons c s ih =>
      have hone : 1 ≤ (Writer.writeByte c).length := by
        unfold Writer.writeByte
        split
        · exact le_rfl
        · split
          · exact Nat.le_add_left 1 5
          · exact Nat.le_add_left 1 1
      rw [List.flatMap_cons, List.length_append, List.length_cons]
      omega

theorem parseString_writeString (s rest : Bytes) :
    parseString ((Writer.writeString s).tail ++ rest) = some (s, rest) := by
  have htail : (Writer.writeString s).tail ++ rest = s.flatMap Writer.writeByte ++ 34 :: rest := by
    simp [Writer.writeString]
  rw [htail]
  apply parseStringToStream_flatMap
  have := length_le_flatMap s
  rw [List.length_append, List.length_cons]
  omega

end Reader

/-! ### Values -/

namespace GenericValue

variable {δ : Type}

mutual

/-- The numbers of a value fit 64 bits, signed or unsigned. -/
def Fits : GenericValue δ → Prop
  | .null => True
  | .bool _ => True
  | .int i => -2 ^ 63 ≤ i ∧ i < 2 ^ 64
  | .double _ => True
  | .string _ => True
  | .array xs => FitElements xs
  | .object ms => FitMembers ms

def FitElements : List (GenericValue δ) → Prop
  | [] => True
  | x :: xs => x.Fits ∧ FitElements xs

def FitMembers : List (Member δ) → Prop
  | [] => True
  | (_, x) :: ms => x.Fits ∧ FitMembers ms

end

mutual

/-- A value without doubles as one that might have some. -/
def lift : GenericValue Empty → GenericValue δ
  | .null => .null
  | .bool b => .bool b
  | .int i => .int i
  | .string s => .string s
  | .array xs => .array (liftElements xs)
  | .object ms => .object (liftMembers ms)

def liftElements : List (GenericValue Empty) → List (GenericValue δ)
  | [] => []
  | x :: xs => x.lift :: liftElements xs

def liftMembers : List (Member Empty) → List (Member δ)
  | [] => []
  | (name, x) :: ms => (name, x.lift) :: liftMembers ms

end

end GenericValue

namespace Reader

open GenericValue

theorem skipWhitespace_cons {c : UInt8} (h : isSpace c = false) (is : Bytes) :
    skipWhitespace (c :: is) = c :: is := by
  unfold skipWhitespace
  rw [List.dropWhile_cons_of_neg (by simp [h])]

/-- A byte that a number may begin with begins nothing else. -/
theorem number_byte : ∀ n < 256, (UInt8.ofNat n = 45 ∨ isDigit (UInt8.ofNat n) = true) →
    isSpace (UInt8.ofNat n) = false ∧ UInt8.ofNat n ≠ 93 ∧ UInt8.ofNat n ≠ 110 ∧ UInt8.ofNat n ≠ 116 ∧
      UInt8.ofNat n ≠ 102 ∧ UInt8.ofNat n ≠ 34 ∧ UInt8.ofNat n ≠ 123 ∧ UInt8.ofNat n ≠ 91 := by
  decide +kernel

theorem numeral_head (i : Int) : ∃ c t, numeral i = c :: t ∧ isSpace c = false ∧ c ≠ 93 ∧
    c ≠ 110 ∧ c ≠ 116 ∧ c ≠ 102 ∧ c ≠ 34 ∧ c ≠ 123 ∧ c ≠ 91 := by
  have hfirst : ∃ c t, numeral i = c :: t ∧ (c = 45 ∨ isDigit c = true) := by
    unfold numeral
    split
    · exact ⟨45, _, rfl, .inl rfl⟩
    · obtain ⟨c, ds, hc, hd⟩ := ofNat_head i.toNat
      exact ⟨c, ds, hc, .inr hd⟩
  obtain ⟨c, t, hc, hfirst⟩ := hfirst
  have hbyte := number_byte c.toNat c.toNat_lt (by rwa [UInt8.ofNat_toNat])
  rw [UInt8.ofNat_toNat] at hbyte
  exact ⟨c, t, hc, hbyte⟩

/-- A text begins with neither white space nor a closing bracket. -/
theorem text_head (v : GenericValue Empty) (h : v.Fits) :
    ∃ c t, v.text = c :: t ∧ isSpace c = false ∧ c ≠ 93 := by
  cases v with
  | null => exact ⟨110, ascii "ull", rfl, rfl, by decide⟩
  | bool b =>
      cases b with
      | true => exact ⟨116, ascii "rue", rfl, rfl, by decide⟩
      | false => exact ⟨102, ascii "alse", rfl, rfl, by decide⟩
  | int i =>
      rw [GenericValue.Fits] at h
      obtain ⟨c, t, hc, hspace, hclose, -⟩ := numeral_head i
      rw [text, Writer.writeNumber_eq h.1 h.2]
      exact ⟨c, t, hc, hspace, hclose⟩
  | double d => exact d.elim
  | string s => exact ⟨34, _, rfl, rfl, by decide⟩
  | array xs => exact ⟨91, _, rfl, rfl, by decide⟩
  | object ms => exact ⟨123, _, rfl, rfl, by decide⟩

theorem skipWhitespace_text (v : GenericValue Empty) (h : v.Fits) (rest : Bytes) :
    skipWhitespace (v.text ++ rest) = v.text ++ rest := by
  obtain ⟨c, t, hc, hspace, -⟩ := text_head v h
  rw [hc, List.cons_append, skipWhitespace_cons hspace]

theorem consumeAll_append : ∀ (cs rest : Bytes), consumeAll (cs ++ rest) cs = some rest := by
  intro cs
  induction cs with
  | nil => intro rest; rfl
  | cons c cs ih =>
      intro rest
      rw [consumeAll, List.cons_append, consume_cons, Option.bind_some, ih]

private theorem parseValue_int {i : Int} (lo : -2 ^ 63 ≤ i) (hi : i < 2 ^ 64) {rest : Bytes}
    (hr : Ends rest) (fuel : Nat) :
    parseValue (fuel + 1) (numeral i ++ rest) = some (.int i, rest) := by
  obtain ⟨c, t, hc, -, -, h₁, h₂, h₃, h₄, h₅, h₆⟩ := numeral_head i
  have hnum := parseNumber_numeral lo hi hr
  rw [hc, List.cons_append] at hnum ⊢
  rw [parseValue_cons, if_neg h₁, if_neg h₂, if_neg h₃, if_neg h₄, if_neg h₅, if_neg h₆, hnum]

private theorem consume_text {v : GenericValue Empty} (h : v.Fits) (rest : Bytes) :
    consume (v.text ++ rest) 93 = none := by
  obtain ⟨c, t, hc, -, hclose⟩ := text_head v h
  rw [hc, List.cons_append, consume_cons_ne hclose]

private theorem parseArray_empty {fuel : Nat} (h : 1 ≤ fuel) (rest : Bytes) :
    parseArray fuel (skipWhitespace (93 :: rest)) = some (.array [], rest) := by
  obtain ⟨fuel, rfl⟩ := Nat.exists_eq_add_of_le' h
  rw [skipWhitespace_cons rfl, parseArray, consume_cons]

private theorem parseObject_empty {fuel : Nat} (h : 1 ≤ fuel) (rest : Bytes) :
    parseObject fuel (skipWhitespace (125 :: rest)) = some (.object [], rest) := by
  obtain ⟨fuel, rfl⟩ := Nat.exists_eq_add_of_le' h
  rw [skipWhitespace_cons rfl, parseObject, consume_cons]

private theorem parseArray_elements {fuel : Nat} {is : Bytes} (h : consume is 93 = none) :
    parseArray (fuel + 1) is = (parseElements fuel is).map fun r => (.array r.1, r.2) := by
  rw [parseArray, h]

private theorem parseObject_members (fuel : Nat) (is : Bytes) :
    parseObject (fuel + 1) (34 :: is) =
      (parseMembers fuel (34 :: is)).map fun r => (.object r.1, r.2) := by
  rw [parseObject, consume_cons_ne (by decide)]

/-- After an element comes the closing bracket. -/
theorem parseElements_last {fuel : Nat} {is rest : Bytes} {v : GenericValue Double}
    (h : parseValue fuel is = some (v, 93 :: rest)) :
    parseElements (fuel + 1) is = some ([v], rest) := by
  rw [parseElements, h, Option.bind_some]
  simp only [skipWhitespace_cons (show isSpace 93 = false from rfl), consume_cons,
    consume_cons_ne (show (93 : UInt8) ≠ 44 by decide)]

/-- Or a comma and the next element. -/
theorem parseElements_comma {fuel : Nat} {is rest : Bytes} {v : GenericValue Double}
    (h : parseValue fuel is = some (v, 44 :: rest)) (hrest : skipWhitespace rest = rest) :
    parseElements (fuel + 1) is = (parseElements fuel rest).map fun r => (v :: r.1, r.2) := by
  rw [parseElements, h, Option.bind_some]
  simp only [skipWhitespace_cons (show isSpace 44 = false from rfl), consume_cons, hrest]

/-- A member up to its value. -/
theorem parseMembers_value {fuel : Nat} {name is : Bytes} (hskip : skipWhitespace is = is) :
    parseMembers (fuel + 1) (Writer.writeString name ++ 58 :: is) =
      (parseValue fuel is).bind fun (v, is) =>
        match consume (skipWhitespace is) 44, consume (skipWhitespace is) 125 with
        | some is, _ =>
            (parseMembers fuel (skipWhitespace is)).map fun (ms, is) => ((name, v) :: ms, is)
        | none, some is => some ([(name, v)], is)
        | none, none => none := by
  have hname : Writer.writeString name = 34 :: (Writer.writeString name).tail := rfl
  rw [hname, List.cons_append, parseMembers, consume_cons, Option.bind_some,
    parseString_writeString, Option.bind_some]
  have hcolon : consume (skipWhitespace (58 :: is)) 58 = some is := by
    rw [skipWhitespace_cons (show isSpace 58 = false from rfl), consume_cons]
  dsimp only
  rw [hcolon, Option.bind_some]
  exact congrArg₂ Option.bind (congrArg (parseValue fuel) hskip) rfl

private theorem parseMembers_last {fuel : Nat} {name is rest : Bytes} {v : GenericValue Double}
    (hskip : skipWhitespace is = is) (h : parseValue fuel is = some (v, 125 :: rest)) :
    parseMembers (fuel + 1) (Writer.writeString name ++ 58 :: is) = some ([(name, v)], rest) := by
  rw [parseMembers_value hskip, h, Option.bind_some]
  simp only [skipWhitespace_cons (show isSpace 125 = false from rfl), consume_cons,
    consume_cons_ne (show (125 : UInt8) ≠ 44 by decide)]

private theorem parseMembers_comma {fuel : Nat} {name is rest : Bytes} {v : GenericValue Double}
    (hskip : skipWhitespace is = is) (h : parseValue fuel is = some (v, 44 :: 34 :: rest)) :
    parseMembers (fuel + 1) (Writer.writeString name ++ 58 :: is) =
      (parseMembers fuel (34 :: rest)).map fun r => ((name, v) :: r.1, r.2) := by
  rw [parseMembers_value hskip, h, Option.bind_some]
  simp only [skipWhitespace_cons (show isSpace 44 = false from rfl), consume_cons,
    skipWhitespace_cons (show isSpace 34 = false from rfl)]

mutual

/-- **The text of a value is read as the value**, wherever it stands. -/
theorem parseValue_text : ∀ (v : GenericValue Empty), v.Fits → ∀ (rest : Bytes), Ends rest →
    ∀ fuel, 3 * (v.text ++ rest).length + 1 ≤ fuel →
      parseValue fuel (v.text ++ rest) = some (v.lift, rest)
  | .null, _, rest, _, fuel + 1, _ => by
      rw [text, show ascii "null" = 110 :: ascii "ull" from rfl, List.cons_append, parseValue_cons,
        if_pos rfl, consumeAll_append]
      rfl
  | .bool true, _, rest, _, fuel + 1, _ => by
      rw [text, if_pos rfl, show ascii "true" = 116 :: ascii "rue" from rfl, List.cons_append,
        parseValue_cons, if_neg (by decide), if_pos rfl, consumeAll_append]
      rfl
  | .bool false, _, rest, _, fuel + 1, _ => by
      rw [text, if_neg (by decide), show ascii "false" = 102 :: ascii "alse" from rfl,
        List.cons_append, parseValue_cons, if_neg (by decide), if_neg (by decide), if_pos rfl,
        consumeAll_append]
      rfl
  | .int i, h, rest, hr, fuel + 1, _ => by
      rw [GenericValue.Fits] at h
      rw [text, Writer.writeNumber_eq h.1 h.2, parseValue_int h.1 h.2 hr, lift]
  | .string s, _, rest, _, fuel + 1, _ => by
      rw [text, show Writer.writeString s = 34 :: (Writer.writeString s).tail from rfl,
        List.cons_append, parseValue_cons, if_neg (by decide), if_neg (by decide),
        if_neg (by decide), if_pos rfl, parseString_writeString]
      rfl
  | .array [], _, rest, _, fuel + 1, hf => by
      have hfuel : 1 ≤ fuel := by
        rw [text, textElements] at hf
        simp only [List.length_append, List.length_cons] at hf
        omega
      exact parseArray_empty hfuel rest
  | .array (x :: xs), h, rest, _, fuel + 1, hf => by
      rw [GenericValue.Fits, FitElements] at h
      have htext : (array (x :: xs)).text ++ rest =
          91 :: (x.text ++ textElements false xs ++ 93 :: rest) := by
        simp [text, textElements]
      rw [htext, List.length_cons] at hf
      obtain ⟨fuel, rfl⟩ := Nat.exists_eq_add_of_le' (show 1 ≤ fuel by omega)
      have hskip := skipWhitespace_text x h.1 (textElements false xs ++ 93 :: rest)
      have hopen := consume_text h.1 (textElements false xs ++ 93 :: rest)
      have helems := parseElements_text x xs h.1 h.2 rest fuel (by omega)
      rw [List.append_assoc] at helems
      rw [htext, parseValue_cons, if_neg (by decide), if_neg (by decide), if_neg (by decide),
        if_neg (by decide), if_neg (by decide), if_pos rfl, List.append_assoc, hskip,
        parseArray_elements hopen, helems]
      rfl
  | .object [], _, rest, _, fuel + 1, hf => by
      have hfuel : 1 ≤ fuel := by
        rw [text, textMembers] at hf
        simp only [List.length_append, List.length_cons] at hf
        omega
      exact parseObject_empty hfuel rest
  | .object ((name, x) :: ms), h, rest, _, fuel + 1, hf => by
      rw [GenericValue.Fits, FitMembers] at h
      have htext : (object ((name, x) :: ms)).text ++ rest = 123 ::
          (Writer.writeString name ++ 58 :: (x.text ++ textMembers false ms ++ 125 :: rest)) := by
        simp [text, textMembers]
      rw [htext, List.length_cons] at hf
      obtain ⟨fuel, rfl⟩ := Nat.exists_eq_add_of_le' (show 1 ≤ fuel by omega)
      have hmembers := parseMembers_text name x ms h.1 h.2 rest fuel (by omega)
      rw [htext, parseValue_cons, if_neg (by decide), if_neg (by decide), if_neg (by decide),
        if_neg (by decide), if_pos rfl,
        show Writer.writeString name = 34 :: (Writer.writeString name).tail from rfl,
        List.cons_append, skipWhitespace_cons rfl, parseObject_members]
      rw [show Writer.writeString name = 34 :: (Writer.writeString name).tail from rfl,
        List.cons_append] at hmembers
      rw [hmembers]
      rfl
termination_by _ _ _ _ fuel => fuel

/-- Elements are read up to the closing bracket. -/
theorem parseElements_text : ∀ (x : GenericValue Empty) (xs : List (GenericValue Empty)),
    x.Fits → FitElements xs → ∀ (rest : Bytes) fuel,
      3 * (x.text ++ textElements false xs ++ 93 :: rest).length + 2 ≤ fuel →
        parseElements fuel (x.text ++ textElements false xs ++ 93 :: rest) =
          some (x.lift :: liftElements xs, rest)
  | x, [], h, _, rest, fuel + 1, hf => by
      rw [textElements, List.append_nil] at hf ⊢
      exact parseElements_last
        (parseValue_text x h (93 :: rest) (ends_cons rfl (by decide) rest) fuel (by omega))
  | x, y :: xs, h, hs, rest, fuel + 1, hf => by
      rw [FitElements] at hs
      have htext : x.text ++ textElements false (y :: xs) ++ 93 :: rest =
          x.text ++ 44 :: (y.text ++ textElements false xs ++ 93 :: rest) := by
        simp [textElements]
      rw [htext] at hf ⊢
      have hx := parseValue_text x h (44 :: (y.text ++ textElements false xs ++ 93 :: rest))
        (ends_cons rfl (by decide) _) fuel (by omega)
      have hskip := skipWhitespace_text y hs.1 (textElements false xs ++ 93 :: rest)
      rw [← List.append_assoc] at hskip
      rw [List.length_append, List.length_cons] at hf
      rw [parseElements_comma hx hskip, parseElements_text y xs hs.1 hs.2 rest fuel (by omega)]
      rfl
termination_by _ _ _ _ _ fuel => fuel

/-- And so are members. -/
theorem parseMembers_text : ∀ (name : Bytes) (x : GenericValue Empty) (ms : List (Member Empty)),
    x.Fits → FitMembers ms → ∀ (rest : Bytes) fuel,
      3 * (Writer.writeString name ++ 58 :: (x.text ++ textMembers false ms ++ 125 :: rest)).length
        + 2 ≤ fuel →
        parseMembers fuel
          (Writer.writeString name ++ 58 :: (x.text ++ textMembers false ms ++ 125 :: rest)) =
            some ((name, x.lift) :: liftMembers ms, rest)
  | name, x, [], h, _, rest, fuel + 1, hf => by
      rw [textMembers, List.append_nil] at hf ⊢
      rw [List.length_append, List.length_cons] at hf
      exact parseMembers_last (skipWhitespace_text x h _)
        (parseValue_text x h (125 :: rest) (ends_cons rfl (by decide) rest) fuel (by omega))
  | name, x, (name', y) :: ms, h, hs, rest, fuel + 1, hf => by
      rw [FitMembers] at hs
      have htext : x.text ++ textMembers false ((name', y) :: ms) ++ 125 :: rest =
          x.text ++ 44 :: (Writer.writeString name' ++
            58 :: (y.text ++ textMembers false ms ++ 125 :: rest)) := by
        simp [textMembers]
      rw [htext, List.length_append, List.length_cons, List.length_append, List.length_cons] at hf
      rw [htext]
      have hx := parseValue_text x h (44 :: (Writer.writeString name' ++
        58 :: (y.text ++ textMembers false ms ++ 125 :: rest))) (ends_cons rfl (by decide) _) fuel
          (by rw [List.length_append, List.length_cons]; omega)
      have hms := parseMembers_text name' y ms hs.1 hs.2 rest fuel (by omega)
      rw [show Writer.writeString name' = 34 :: (Writer.writeString name').tail from rfl,
        List.cons_append] at hx hms ⊢
      rw [parseMembers_comma (skipWhitespace_text x h _) hx, hms]
      rfl
termination_by _ _ _ _ _ _ fuel => fuel

end

end Reader

/-! ### Bytes of a text -/

/-- No control character is in a text: it has no NUL and no line ends in it. -/
def Printable (bs : Bytes) : Prop := ∀ b ∈ bs, 32 ≤ b

theorem Printable.append {xs ys : Bytes} (hx : Printable xs) (hy : Printable ys) :
    Printable (xs ++ ys) := by
  intro b hb
  rcases List.mem_append.mp hb with hb | hb
  · exact hx b hb
  · exact hy b hb

theorem Printable.cons {b : UInt8} {ys : Bytes} (hb : 32 ≤ b) (hy : Printable ys) :
    Printable (b :: ys) := by
  intro c hc
  rcases List.mem_cons.mp hc with rfl | hc
  · exact hb
  · exact hy c hc

theorem printable_nil : Printable [] := fun _ h => absurd h List.not_mem_nil

theorem printable_of_all {bs : Bytes} (h : bs.all (32 ≤ ·) = true) : Printable bs :=
  fun b hb => of_decide_eq_true (List.all_eq_true.mp h b hb)

private theorem printable_writeByte :
    ∀ n < 256, ∀ b ∈ Writer.writeByte (UInt8.ofNat n), 32 ≤ b := by
  decide +kernel

theorem printable_writeString (s : Bytes) : Printable (Writer.writeString s) := by
  have hbody : Printable (s.flatMap Writer.writeByte) := by
    intro b hb
    obtain ⟨c, -, hb⟩ := List.mem_flatMap.mp hb
    exact printable_writeByte c.toNat c.toNat_lt b (by rwa [UInt8.ofNat_toNat])
  unfold Writer.writeString
  exact (hbody.cons (by decide)).append (printable_nil.cons (by decide))

private theorem printable_numeral (i : Int) : Printable (numeral i) := by
  have hdigits (n : Nat) : Printable (ofNat n) := by
    intro b hb
    have := Decimal.isDigit_of_mem_ofNat n b hb
    simp only [Decimal.isDigit, Bool.and_eq_true, decide_eq_true_eq] at this
    exact UInt8.le_trans (show (32 : UInt8) ≤ 48 by decide) this.1
  unfold numeral
  split
  · exact (hdigits _).cons (by decide)
  · exact hdigits _

namespace GenericValue

theorem printable_comma (first : Bool) : Printable (if first then [] else [44]) := by
  cases first with
  | true => exact printable_nil
  | false => exact printable_nil.cons (by decide)

mutual

theorem printable_text : ∀ v : GenericValue Empty, v.Fits → Printable v.text
  | .null, _ => by
      rw [text]
      exact printable_of_all rfl
  | .bool true, _ => by
      rw [text, if_pos rfl]
      exact printable_of_all rfl
  | .bool false, _ => by
      rw [text, if_neg (by decide)]
      exact printable_of_all rfl
  | .int i, h => by
      rw [Fits] at h
      rw [text, Writer.writeNumber_eq h.1 h.2]
      exact printable_numeral i
  | .string s, _ => by
      rw [text]
      exact printable_writeString s
  | .array xs, h => by
      rw [Fits] at h
      rw [text]
      exact ((printable_textElements true xs h).cons (by decide)).append
        (printable_nil.cons (by decide))
  | .object ms, h => by
      rw [Fits] at h
      rw [text]
      exact ((printable_textMembers true ms h).cons (by decide)).append
        (printable_nil.cons (by decide))

theorem printable_textElements (first : Bool) : ∀ xs : List (GenericValue Empty),
    FitElements xs → Printable (textElements first xs)
  | [], _ => by
      rw [textElements]
      exact printable_nil
  | x :: xs, h => by
      rw [FitElements] at h
      rw [textElements]
      exact (printable_comma first).append
        ((printable_text x h.1).append (printable_textElements false xs h.2))

theorem printable_textMembers (first : Bool) : ∀ ms : List (Member Empty),
    FitMembers ms → Printable (textMembers first ms)
  | [], _ => by
      rw [textMembers]
      exact printable_nil
  | (name, x) :: ms, h => by
      rw [FitMembers] at h
      rw [textMembers]
      exact (printable_comma first).append ((printable_writeString name).append
        (((printable_text x h.1).append (printable_textMembers false ms h.2)).cons (by decide)))

end

end GenericValue

/-- Nothing of a printable text is cut off. -/
theorem Printable.takeWhile {bs : Bytes} (h : Printable bs) : bs.takeWhile (· ≠ 0) = bs := by
  rw [List.takeWhile_eq_self_iff]
  intro b hb
  have := h b hb
  simp only [ne_eq, decide_eq_true_eq]
  rintro rfl
  exact absurd this (by decide)

/-- **A document that has been written is read as it was.** -/
theorem Reader.parse_text {v : GenericValue Empty} (h : v.Fits) : parse v.text = some v.lift := by
  obtain ⟨c, t, hc, hspace, -⟩ := text_head v h
  have hskip : skipWhitespace v.text = v.text := by
    rw [hc, skipWhitespace_cons hspace]
  have hne : v.text ≠ [] := by
    rw [hc]
    exact List.cons_ne_nil _ _
  have hread := parseValue_text v h [] ends_nil (fuelOf v.text) (by
    rw [List.append_nil]
    exact Nat.add_le_add_left (by norm_num) _)
  rw [List.append_nil] at hread
  unfold parse document
  simp only
  rw [(GenericValue.printable_text v h).takeWhile, hskip, if_neg hne, hread]
  rfl

/-- The document that `Accept` puts out. -/
theorem Writer.out_accept (v : GenericValue Empty) : (accept .new v).out = v.text := by
  rw [accept_eq]
  exact List.nil_append _

end Nstore
