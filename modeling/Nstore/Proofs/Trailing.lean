/-
White space behind a document.

`std::getline` leaves the CR of a line in the argument, so every request is parsed with
white space behind it.  Each function of the reader reads a text with white space behind
it as it reads the text: white space goes on with nothing that has been begun, and a
string that is open at the end of the text is open after it, too.
-/
import Nstore.Lib.Scanner
import Nstore.Proofs.Reader

namespace Nstore

namespace Reader

open Scanner

variable {w : Bytes}

/-- White space. -/
def Blank (w : Bytes) : Prop := ∀ c ∈ w, isSpace c = true

theorem blank_of_all {w : Bytes} (h : w.all isSpace = true) : Blank w := List.all_eq_true.mp h

theorem noSpace_of_all {cs : Bytes} (h : cs.all (fun c => !isSpace c) = true) :
    ∀ c ∈ cs, isSpace c = false := by
  intro c hc
  simpa using List.all_eq_true.mp h c hc

/-! ### White space and what it is not -/

theorem space_byte : ∀ n < 256, isSpace (UInt8.ofNat n) = true →
    isDigit (UInt8.ofNat n) = false ∧ hexValue (UInt8.ofNat n) = none ∧
      escape (UInt8.ofNat n) = 0 ∧ UInt8.ofNat n ≠ 92 ∧ UInt8.ofNat n ≠ 34 := by
  decide +kernel

theorem space_of_isSpace {c : UInt8} (h : isSpace c = true) :
    isDigit c = false ∧ hexValue c = none ∧ escape c = 0 ∧ c ≠ 92 ∧ c ≠ 34 := by
  have := space_byte c.toNat c.toNat_lt (by rwa [UInt8.ofNat_toNat])
  rwa [UInt8.ofNat_toNat] at this

/-- What a blank text begins with: nothing, or white space. -/
theorem Blank.cases (hw : Blank w) : w = [] ∨ ∃ c rest, w = c :: rest ∧ isSpace c = true := by
  cases w with
  | nil => exact .inl rfl
  | cons c rest => exact .inr ⟨c, rest, rfl, hw c List.mem_cons_self⟩

theorem Blank.consume (hw : Blank w) {c : UInt8} (hc : isSpace c = false) : consume w c = none := by
  rcases hw.cases with rfl | ⟨b, rest, rfl, hb⟩
  · rfl
  · apply consume_cons_ne
    rintro rfl
    rw [hb] at hc
    exact absurd hc (by simp)

theorem consume_append (hw : Blank w) {c : UInt8} (hc : isSpace c = false) (s : Bytes) :
    consume (s ++ w) c = (consume s c).map (· ++ w) := by
  cases s with
  | nil =>
      rw [List.nil_append, hw.consume hc]
      rfl
  | cons b s =>
      rw [List.cons_append, consume_cons_eq, consume_cons_eq]
      split
      · rfl
      · rfl

theorem consumeAll_behind (hw : Blank w) : ∀ (cs : Bytes), (∀ c ∈ cs, isSpace c = false) →
    ∀ s, consumeAll (s ++ w) cs = (consumeAll s cs).map (· ++ w) := by
  intro cs
  induction cs with
  | nil => intro _ s; rfl
  | cons c cs ih =>
      intro hcs s
      rw [consumeAll, consumeAll, consume_append hw (hcs c List.mem_cons_self)]
      cases consume s c with
      | none => rfl
      | some s' => exact ih (fun b hb => hcs b (List.mem_cons_of_mem _ hb)) s'

/-- A scanner after one byte. -/
theorem extends_consume {α : Type} (hw : Blank w) {c : UInt8} (hc : isSpace c = false)
    {q : Bytes → Option (α × Bytes)} (hq : Extends w q) :
    Extends w fun s => (consume s c).bind q := by
  intro s
  simp only [consume_append hw hc]
  cases Reader.consume s c with
  | none => rfl
  | some s' => exact hq s'

/-! ### Strings -/

theorem extends_parseHex (hw : Blank w) : ∀ i codepoint, Extends w (parseHex i codepoint) := by
  intro i
  induction i with
  | zero => intro codepoint s; rfl
  | succ i ih =>
      intro codepoint s
      cases s with
      | nil =>
          have hend : parseHex (i + 1) codepoint [] = none := rfl
          rw [List.nil_append, hend]
          rcases hw.cases with rfl | ⟨c, rest, rfl, hc⟩
          · exact hend
          · rw [parseHex_cons, (space_of_isSpace hc).2.1]
            rfl
      | cons c s =>
          rw [List.cons_append, parseHex_cons, parseHex_cons]
          cases hexValue c with
          | none => rfl
          | some d => exact ih _ s

private theorem extends_parseCodepoint (hw : Blank w) : Extends w parseCodepoint := by
  unfold parseCodepoint
  apply (extends_parseHex hw 4 0).bind
  intro codepoint
  simp only
  split
  · intro s
    simp only [consumeAll_behind hw [92, 117] (noSpace_of_all rfl)]
    cases consumeAll s [92, 117] with
    | none => rfl
    | some s' =>
        have hsecond : Extends w fun s => (parseHex4 s).bind fun r =>
            if r.1 < 0xDC00 ∨ 0xDFFF < r.1 then none
            else some ((((codepoint - 0xD800) <<< 10) ||| (r.1 - 0xDC00)) + 0x10000, r.2) := by
          apply (extends_parseHex hw 4 0).bind
          intro codepoint2
          simp only
          split
          · exact extends_fail
          · exact extends_pure _
        exact hsecond s'
  · exact extends_pure _

private theorem parseEscape_blank (hw : Blank w) : parseEscape w = none := by
  rcases hw.cases with rfl | ⟨c, rest, rfl, hc⟩
  · rfl
  · have hne : c ≠ 117 := by
      rintro rfl
      exact absurd hc (by decide)
    have hescape : ¬ escape c ≠ 0 := fun h => h (space_of_isSpace hc).2.2.1
    rw [parseEscape_cons, if_neg hescape, if_neg hne]

private theorem extends_parseEscape (hw : Blank w) : Extends w parseEscape := by
  intro s
  cases s with
  | nil =>
      rw [List.nil_append, parseEscape_blank hw]
      rfl
  | cons c s =>
      rw [List.cons_append, parseEscape_cons, parseEscape_cons]
      split
      · rfl
      · split
        · exact (extends_parseCodepoint hw).map encodeUtf8 s
        · rfl

/-- Only white space is left of an open string. -/
theorem parseStringToStream_blank : ∀ (fuel : Nat) {w : Bytes}, Blank w →
    parseStringToStream fuel w = none := by
  intro fuel
  induction fuel with
  | zero => intro w _; rfl
  | succ fuel ih =>
      intro w hw
      rcases hw.cases with rfl | ⟨c, rest, rfl, hc⟩
      · rfl
      · have hspace := space_of_isSpace hc
        have hrest := ih fun b hb => hw b (List.mem_cons_of_mem _ hb)
        rw [parseStringToStream_cons, if_neg hspace.2.2.2.1, if_neg hspace.2.2.2.2, hrest]
        simp

private theorem extends_parseStringToStream (hw : Blank w) :
    ∀ fuel, Extends w (parseStringToStream fuel) := by
  intro fuel
  induction fuel with
  | zero => exact extends_fail
  | succ fuel ih =>
      intro s
      cases s with
      | nil =>
          rw [List.nil_append, parseStringToStream_blank _ hw]
          rfl
      | cons c s =>
          rw [List.cons_append, parseStringToStream_cons, parseStringToStream_cons]
          split
          · have hescape : Extends w fun s => (parseEscape s).bind fun r =>
                (parseStringToStream fuel r.2).map fun r' => (r.1 ++ r'.1, r'.2) :=
              (extends_parseEscape hw).bind fun out => ih.map (out ++ ·)
            exact hescape s
          · split
            · rfl
            · split
              · rfl
              · exact ih.map (c :: ·) s

private theorem parseStringToStream_succ : ∀ (fuel : Nat) {is : Bytes}, is.length + 1 ≤ fuel →
    parseStringToStream (fuel + 1) is = parseStringToStream fuel is := by
  intro fuel
  induction fuel with
  | zero => intro is h; omega
  | succ fuel ih =>
      intro is h
      cases is with
      | nil => rfl
      | cons c is =>
          rw [List.length_cons] at h
          rw [parseStringToStream_cons, parseStringToStream_cons, ih (by omega)]
          split
          · apply Option.bind_congr
            intro r hr
            have := length_parseEscape hr
            rw [ih (by omega)]
          · rfl

/-- A string never runs out of fuel. -/
theorem parseString_fuel (is : Bytes) : ∀ {fuel : Nat}, is.length + 1 ≤ fuel →
    parseStringToStream fuel is = parseString is := by
  intro fuel h
  induction fuel, h using Nat.le_induction with
  | base => rfl
  | succ fuel h ih => rw [parseStringToStream_succ fuel h, ih]

theorem extends_parseString (hw : Blank w) : Extends w parseString := by
  intro s
  have hfuel : s.length + 1 ≤ (s ++ w).length + 1 := by simp
  rw [← parseString_fuel s hfuel]
  exact extends_parseStringToStream hw _ s

/-! ### Numbers -/

theorem Blank.digit (hw : Blank w) : w = [] ∨ ∃ c rest, w = c :: rest ∧ isDigit c = false := by
  rcases hw.cases with h | ⟨c, rest, h, hc⟩
  · exact .inl h
  · exact .inr ⟨c, rest, h, (space_of_isSpace hc).1⟩

def Digits.behind (w : Bytes) (d : Digits) : Digits := { d with rest := d.rest ++ w }

def Mantissa.behind (w : Bytes) (m : Mantissa) : Mantissa := { m with rest := m.rest ++ w }

def Number.behind (w : Bytes) (n : Number) : Number := { n with rest := n.rest ++ w }

theorem accumulate_behind (hw : Blank w) (limit : Nat) (last : UInt8) : ∀ (s : Bytes) (i significand),
    accumulate limit last i significand (s ++ w) =
      (accumulate limit last i significand s).behind w := by
  intro s
  induction s with
  | nil =>
      intro i significand
      rcases hw.digit with rfl | ⟨c, rest, rfl, hc⟩
      · rfl
      · simp [accumulate, hc, Digits.behind]
  | cons c s ih =>
      intro i significand
      rw [List.cons_append, accumulate, accumulate]
      split
      · split
        · rfl
        · exact ih _ _
      · rfl

private theorem extends_bigDigits (hw : Blank w) : ∀ (s : Bytes) (d : Nat),
    bigDigits d (s ++ w) = (bigDigits d s).map fun r => (r.1, r.2 ++ w) := by
  intro s
  induction s with
  | nil =>
      intro d
      rcases hw.digit with rfl | ⟨c, rest, rfl, hc⟩
      · rfl
      · simp [bigDigits, hc]
  | cons c s ih =>
      intro d
      rw [List.cons_append, bigDigits, bigDigits]
      split
      · split
        · rfl
        · exact ih _
      · rfl

private theorem fracDigits_behind (hw : Blank w) :
    ∀ (s : Bytes) (i64 significand : Nat) (expFrac : Int),
    fracDigits i64 significand expFrac (s ++ w) = (fracDigits i64 significand expFrac s).behind w := by
  intro s
  induction s with
  | nil =>
      intro i64 significand expFrac
      rcases hw.digit with rfl | ⟨c, rest, rfl, hc⟩
      · rfl
      · simp [fracDigits, hc, Mantissa.behind]
  | cons c s ih =>
      intro i64 significand expFrac
      rw [List.cons_append, fracDigits, fracDigits]
      split
      · split
        · rfl
        · exact ih _ _ _
      · rfl

theorem fracDouble_behind (hw : Blank w) : ∀ (s : Bytes) (d significand : Nat) (expFrac : Int),
    fracDouble d significand expFrac (s ++ w) = (fracDouble d significand expFrac s).behind w := by
  intro s
  induction s with
  | nil =>
      intro d significand expFrac
      rcases hw.digit with rfl | ⟨c, rest, rfl, hc⟩
      · rfl
      · simp [fracDouble, hc, Mantissa.behind]
  | cons c s ih =>
      intro d significand expFrac
      rw [List.cons_append, fracDouble, fracDouble]
      split
      · split
        · exact ih _ _ _
        · exact ih _ _ _
      · rfl

private theorem dropWhile_digits (hw : Blank w) (s : Bytes) :
    (s ++ w).dropWhile isDigit = s.dropWhile isDigit ++ w := by
  induction s with
  | nil =>
      rcases hw.digit with rfl | ⟨c, rest, rfl, hc⟩
      · rfl
      · rw [List.nil_append, List.dropWhile_cons_of_neg (by simp [hc])]
        rfl
  | cons c s ih =>
      rw [List.cons_append]
      by_cases hc : isDigit c = true
      · rw [List.dropWhile_cons_of_pos hc, List.dropWhile_cons_of_pos hc, ih]
      · rw [List.dropWhile_cons_of_neg hc, List.dropWhile_cons_of_neg hc, List.cons_append]

private theorem minusExponent_behind (hw : Blank w) : ∀ (s : Bytes) (exp : Nat),
    minusExponent exp (s ++ w) = ((minusExponent exp s).1, (minusExponent exp s).2 ++ w) := by
  intro s
  induction s with
  | nil =>
      intro exp
      rcases hw.digit with rfl | ⟨c, rest, rfl, hc⟩
      · rfl
      · simp [minusExponent, hc]
  | cons c s ih =>
      intro exp
      rw [List.cons_append, minusExponent, minusExponent]
      split
      · simp only
        split
        · rw [dropWhile_digits hw]
        · exact ih _
      · rfl

private theorem extends_plusExponent (hw : Blank w) (maxExp : Int) : ∀ (s : Bytes) (exp : Nat),
    plusExponent maxExp exp (s ++ w) = (plusExponent maxExp exp s).map fun r => (r.1, r.2 ++ w) := by
  intro s
  induction s with
  | nil =>
      intro exp
      rcases hw.digit with rfl | ⟨c, rest, rfl, hc⟩
      · rfl
      · simp [plusExponent, hc]
  | cons c s ih =>
      intro exp
      rw [List.cons_append, plusExponent, plusExponent]
      split
      · simp only
        split
        · rfl
        · exact ih _
      · rfl

/-- White space is no digit, and neither is the end of the text. -/
theorem isDigit_peek (hw : Blank w) (s : Bytes) : isDigit (peek (s ++ w)) = isDigit (peek s) := by
  cases s with
  | nil =>
      rcases hw.digit with rfl | ⟨c, rest, rfl, hc⟩
      · rfl
      · exact hc
  | cons c s => rfl

private theorem peek_of_isDigit (s : Bytes) (h : isDigit (peek s) = true) :
    ∃ c is, s = c :: is := by
  cases s with
  | nil => exact absurd h (by decide)
  | cons c is => exact ⟨c, is, rfl⟩

theorem digits32_behind (hw : Blank w) (minus : Bool) (i significand : Nat) (s : Bytes) :
    digits32 minus i significand (s ++ w) = (digits32 minus i significand s).behind w := by
  unfold digits32
  split
  · exact accumulate_behind hw _ _ _ _ _
  · exact accumulate_behind hw _ _ _ _ _

private theorem digits64_behind (hw : Blank w) (minus : Bool) (i significand : Nat) (s : Bytes) :
    digits64 minus i significand (s ++ w) = (digits64 minus i significand s).behind w := by
  unfold digits64
  split
  · exact accumulate_behind hw _ _ _ _ _
  · exact accumulate_behind hw _ _ _ _ _

private theorem parseBigInt_behind (hw : Blank w) (minus : Bool) (i significand : Nat) (s : Bytes) :
    parseBigInt minus i significand (s ++ w) =
      (parseBigInt minus i significand s).map (Number.behind w) := by
  unfold parseBigInt
  simp only [digits64_behind hw, Digits.behind]
  split
  · rw [extends_bigDigits hw, Option.map_map, Option.map_map]
    rfl
  · rfl

private theorem parseInt_behind (hw : Blank w) (minus : Bool) (s : Bytes) :
    parseInt minus (s ++ w) = (parseInt minus s).map (Number.behind w) := by
  cases s with
  | nil =>
      rcases hw.cases with rfl | ⟨c, rest, rfl, hc⟩
      · rfl
      · have hdigit := (space_of_isSpace hc).1
        have hnone : c ≠ 48 ∧ ¬ (49 ≤ c ∧ c ≤ 57) := by
          refine ⟨?_, fun h => ?_⟩
          · rintro rfl
            exact absurd hdigit (by decide)
          · have h48 : (48 : UInt8) ≤ c := UInt8.le_trans (show (48 : UInt8) ≤ 49 by decide) h.1
            simp [isDigit, h48, h.2] at hdigit
        rw [List.nil_append, parseInt_cons, if_neg hnone.1, if_neg hnone.2]
        rfl
  | cons c s =>
      have hover : (digits32 minus (c.toNat - 48) 0 (s ++ w)).overflow =
          (digits32 minus (c.toNat - 48) 0 s).overflow := by
        rw [digits32_behind hw]
        rfl
      rw [List.cons_append, parseInt_cons, parseInt_cons, hover]
      split
      · rfl
      · split
        · rw [digits32_behind hw]
          split
          · exact parseBigInt_behind hw _ _ _ _
          · rfl
        · rfl

private theorem parseFrac_behind (hw : Blank w) (n : Number) :
    parseFrac (n.behind w) = (parseFrac n).map (Number.behind w) := by
  unfold parseFrac
  have hconsume : consume (n.behind w).rest 46 = (consume n.rest 46).map (· ++ w) :=
    consume_append hw rfl n.rest
  rw [hconsume]
  cases consume n.rest 46 with
  | none => rfl
  | some is =>
      simp only [Option.map_some, isDigit_peek hw, fracDigits_behind hw, Number.behind,
        Mantissa.behind]
      split
      · split
        · simp [fracDouble_behind hw, Number.behind, Mantissa.behind]
        · simp [fracDouble_behind hw, Number.behind, Mantissa.behind]
      · rfl

private theorem expSign_behind (hw : Blank w) (s : Bytes) :
    expSign (s ++ w) = ((expSign s).1, (expSign s).2 ++ w) := by
  unfold expSign
  rw [consume_append hw rfl, consume_append hw rfl]
  cases consume s 43 with
  | some is => rfl
  | none =>
      cases consume s 45 with
      | some is => rfl
      | none => rfl

private theorem parseExp_behind (hw : Blank w) (n : Number) :
    parseExp (n.behind w) = (parseExp n).map fun r => (r.1.behind w, r.2) := by
  unfold parseExp
  have hconsume : (consume (n.behind w).rest 101).or (consume (n.behind w).rest 69) =
      ((consume n.rest 101).or (consume n.rest 69)).map (· ++ w) := by
    have h₁ : consume (n.behind w).rest 101 = (consume n.rest 101).map (· ++ w) :=
      consume_append hw rfl n.rest
    have h₂ : consume (n.behind w).rest 69 = (consume n.rest 69).map (· ++ w) :=
      consume_append hw rfl n.rest
    rw [h₁, h₂]
    cases consume n.rest 101 <;> rfl
  rw [hconsume]
  cases (consume n.rest 101).or (consume n.rest 69) with
  | none => rfl
  | some is =>
      simp only [Option.map_some, expSign_behind hw, isDigit_peek hw]
      split
      · rename_i hdigit
        obtain ⟨c, rest, hrest⟩ := peek_of_isDigit _ hdigit
        rw [hrest]
        have hpeek : peek (c :: rest ++ w) = peek (c :: rest) := rfl
        have htail : (c :: rest ++ w).tail = rest ++ w := rfl
        simp only [hpeek, htail, List.tail_cons]
        split
        · simp only [minusExponent_behind hw]
          rfl
        · rw [extends_plusExponent hw]
          rw [Option.map_map, Option.map_map]
          rfl
      · rfl

theorem extends_parseNumber (hw : Blank w) : Extends w parseNumber := by
  intro s
  unfold parseNumber
  have hsign : (consume (s ++ w) 45).isSome = (consume s 45).isSome := by
    rw [consume_append hw rfl, Option.isSome_map]
  have hdigits : (consume (s ++ w) 45).getD (s ++ w) = (consume s 45).getD s ++ w := by
    rw [consume_append hw rfl]
    cases consume s 45 <;> rfl
  simp only [hsign, hdigits, parseInt_behind hw]
  cases parseInt (consume s 45).isSome ((consume s 45).getD s) with
  | none => rfl
  | some n =>
      simp only [Option.map_some, Option.bind_some, parseFrac_behind hw]
      cases parseFrac n with
      | none => rfl
      | some n =>
          simp only [Option.map_some, Option.bind_some, parseExp_behind hw]
          cases parseExp n with
          | none => rfl
          | some r =>
              simp only [Option.map_some, Number.behind]
              split
              · rfl
              · rfl

/-! ### Values -/

/-- White space begins no value. -/
theorem space_begins : ∀ n < 256, isSpace (UInt8.ofNat n) = true →
    UInt8.ofNat n ≠ 110 ∧ UInt8.ofNat n ≠ 116 ∧ UInt8.ofNat n ≠ 102 ∧ UInt8.ofNat n ≠ 34 ∧
      UInt8.ofNat n ≠ 123 ∧ UInt8.ofNat n ≠ 91 := by
  decide +kernel

theorem parseValue_blank (hw : Blank w) (fuel : Nat) : parseValue fuel w = none := by
  cases fuel with
  | zero => rw [parseValue]
  | succ fuel =>
      have hnumber : parseNumber w = none := extends_parseNumber hw []
      rcases hw.cases with rfl | ⟨c, rest, rfl, hc⟩
      · rw [parseValue]
        exact hnumber
      · have hne := space_begins c.toNat c.toNat_lt (by rwa [UInt8.ofNat_toNat])
        rw [UInt8.ofNat_toNat] at hne
        rw [parseValue_cons, if_neg hne.1, if_neg hne.2.1, if_neg hne.2.2.1, if_neg hne.2.2.2.1,
          if_neg hne.2.2.2.2.1, if_neg hne.2.2.2.2.2, hnumber]

theorem blank_nil : Blank [] := fun _ h => absurd h List.not_mem_nil

theorem parseElements_nil (fuel : Nat) : parseElements fuel [] = none := by
  cases fuel with
  | zero => rw [parseElements]
  | succ fuel =>
      rw [parseElements, parseValue_blank blank_nil]
      rfl

private theorem parseArray_nil (fuel : Nat) : parseArray fuel [] = none := by
  cases fuel with
  | zero => rw [parseArray]
  | succ fuel =>
      have hconsume : consume [] 93 = none := rfl
      rw [parseArray, hconsume, parseElements_nil]
      rfl

theorem parseMembers_nil (fuel : Nat) : parseMembers fuel [] = none := by
  cases fuel with
  | zero => rw [parseMembers]
  | succ fuel =>
      rw [parseMembers]
      rfl

private theorem parseObject_nil (fuel : Nat) : parseObject fuel [] = none := by
  cases fuel with
  | zero => rw [parseObject]
  | succ fuel =>
      have hconsume : consume [] 125 = none := rfl
      rw [parseObject, hconsume, parseMembers_nil]
      rfl

/-- What follows an item of a list: a comma and the rest of the list, or its end. -/
def afterItem {α : Type} (close : UInt8) (more : Bytes → Option (List α × Bytes)) (x : α)
    (is : Bytes) : Option (List α × Bytes) :=
  match consume is 44, consume is close with
  | some is, _ => (more (skipWhitespace is)).map fun (xs, is) => (x :: xs, is)
  | none, some is => some ([x], is)
  | none, none => none

theorem extends_afterItem {α : Type} (hw : Blank w) {close : UInt8} (hclose : isSpace close = false)
    {more : Bytes → Option (List α × Bytes)} (hmore : Extends w more) (hend : more [] = none)
    (x : α) : Extends w (afterItem close more x) := by
  intro s
  unfold afterItem
  rw [consume_append hw (show isSpace 44 = false from rfl), consume_append hw hclose]
  cases consume s 44 with
  | some is => exact ((hmore.skip hw hend).map (x :: ·)) is
  | none =>
      cases consume s close with
      | some is => rfl
      | none => rfl

theorem parseElements_eq (fuel : Nat) (is : Bytes) : parseElements (fuel + 1) is =
    (parseValue fuel is).bind fun r =>
      afterItem 93 (parseElements fuel) r.1 (skipWhitespace r.2) := by
  rw [parseElements]
  rfl

theorem parseMembers_eq (fuel : Nat) (is : Bytes) : parseMembers (fuel + 1) is =
    (consume is 34).bind fun is => (parseString is).bind fun r =>
      (consume (skipWhitespace r.2) 58).bind fun is =>
        (parseValue fuel (skipWhitespace is)).bind fun r' =>
          afterItem 125 (parseMembers fuel) (r.1, r'.1) (skipWhitespace r'.2) := by
  rw [parseMembers]
  rfl

/-- The functions that call each other read on with white space behind the text. -/
structure ExtendAll (w : Bytes) (fuel : Nat) : Prop where
  value : Extends w (parseValue fuel)
  object : Extends w (parseObject fuel)
  members : Extends w (parseMembers fuel)
  array : Extends w (parseArray fuel)
  elements : Extends w (parseElements fuel)

namespace ExtendAll

variable {fuel : Nat}

theorem literal (hw : Blank w) {cs : Bytes} (hcs : ∀ c ∈ cs, isSpace c = false)
    (v : GenericValue Double) : Extends w fun s => (consumeAll s cs).map fun is => (v, is) := by
  intro s
  simp only [consumeAll_behind hw _ hcs]
  cases consumeAll s cs <;> rfl

theorem value_succ (hw : Blank w) (hf : ExtendAll w fuel) : Extends w (parseValue (fuel + 1)) := by
  intro s
  cases s with
  | nil =>
      rw [List.nil_append, parseValue_blank hw, parseValue_blank blank_nil]
      rfl
  | cons c s =>
      rw [List.cons_append, parseValue_cons, parseValue_cons]
      split
      · exact literal hw (noSpace_of_all rfl) .null s
      split
      · exact literal hw (noSpace_of_all rfl) (.bool true) s
      split
      · exact literal hw (noSpace_of_all rfl) (.bool false) s
      split
      · exact (extends_parseString hw).map GenericValue.string s
      split
      · exact hf.object.skip hw (parseObject_nil fuel) s
      split
      · exact hf.array.skip hw (parseArray_nil fuel) s
      · exact extends_parseNumber hw (c :: s)

theorem object_succ (hw : Blank w) (hf : ExtendAll w fuel) : Extends w (parseObject (fuel + 1)) := by
  intro s
  rw [parseObject, parseObject, consume_append hw (show isSpace 125 = false from rfl)]
  cases consume s 125 with
  | some is => rfl
  | none => exact hf.members.map GenericValue.object s

theorem array_succ (hw : Blank w) (hf : ExtendAll w fuel) : Extends w (parseArray (fuel + 1)) := by
  intro s
  rw [parseArray, parseArray, consume_append hw (show isSpace 93 = false from rfl)]
  cases consume s 93 with
  | some is => rfl
  | none => exact hf.elements.map GenericValue.array s

theorem elements_succ (hw : Blank w) (hf : ExtendAll w fuel) :
    Extends w (parseElements (fuel + 1)) := by
  have hrest : Extends w fun s => (parseValue fuel s).bind fun r =>
      afterItem 93 (parseElements fuel) r.1 (skipWhitespace r.2) := by
    apply hf.value.bind
    intro v
    have hafter := extends_afterItem hw (show isSpace 93 = false from rfl) hf.elements
      (parseElements_nil fuel) v
    exact hafter.skip hw rfl
  intro s
  rw [parseElements_eq, parseElements_eq]
  exact hrest s

theorem members_succ (hw : Blank w) (hf : ExtendAll w fuel) :
    Extends w (parseMembers (fuel + 1)) := by
  -- from the inside: what follows the value, the value, the colon, the name
  have hvalue (name : Bytes) : Extends w fun s => (parseValue fuel s).bind fun r =>
      afterItem 125 (parseMembers fuel) (name, r.1) (skipWhitespace r.2) := by
    apply hf.value.bind
    intro v
    have hafter := extends_afterItem hw (show isSpace 125 = false from rfl) hf.members
      (parseMembers_nil fuel) (name, v)
    exact hafter.skip hw rfl
  have hcolon (name : Bytes) : Extends w fun s => (consume s 58).bind fun is =>
      (parseValue fuel (skipWhitespace is)).bind fun r =>
        afterItem 125 (parseMembers fuel) (name, r.1) (skipWhitespace r.2) := by
    apply extends_consume hw rfl
    exact (hvalue name).skip hw (by rw [parseValue_blank blank_nil]; rfl)
  have hname : Extends w fun s => (parseString s).bind fun r =>
      (consume (skipWhitespace r.2) 58).bind fun is =>
        (parseValue fuel (skipWhitespace is)).bind fun r' =>
          afterItem 125 (parseMembers fuel) (r.1, r'.1) (skipWhitespace r'.2) := by
    apply (extends_parseString hw).bind
    intro name
    exact (hcolon name).skip hw rfl
  intro s
  rw [parseMembers_eq, parseMembers_eq]
  exact extends_consume hw rfl hname s

end ExtendAll

private theorem extendAll (hw : Blank w) : ∀ fuel, ExtendAll w fuel := by
  intro fuel
  induction fuel with
  | zero =>
      constructor
      · intro s; rw [parseValue, parseValue]; rfl
      · intro s; rw [parseObject, parseObject]; rfl
      · intro s; rw [parseMembers, parseMembers]; rfl
      · intro s; rw [parseArray, parseArray]; rfl
      · intro s; rw [parseElements, parseElements]; rfl
  | succ fuel ih =>
      exact ⟨ih.value_succ hw, ih.object_succ hw, ih.members_succ hw, ih.array_succ hw,
        ih.elements_succ hw⟩

private theorem document_append (hw : Blank w) {is : Bytes} (hne : is ≠ []) :
    document (is ++ w) = document is := by
  have hfuel : fuelOf is ≤ fuelOf (is ++ w) := by
    unfold fuelOf
    rw [List.length_append]
    omega
  unfold document
  rw [if_neg hne, if_neg (by simp [hne]), (extendAll hw _).value, parseValue_fuel is hfuel]
  cases parseValue (fuelOf is) is with
  | none => rfl
  | some r =>
      have hrest : skipWhitespace (r.2 ++ w) = [] ↔ skipWhitespace r.2 = [] := by
        unfold skipWhitespace
        rw [dropWhile_append_all hw]
        split
        · rename_i h
          simp [h]
        · rename_i h
          simp [h]
      simp only [Option.map_some, Option.bind_some, hrest]

/-- White space is not where a text ends. -/
theorem takeWhile_append_blank (hw : Blank w) (str : Bytes) :
    (str ++ w).takeWhile (· ≠ 0) = str.takeWhile (· ≠ 0) ∨
      (str ++ w).takeWhile (· ≠ 0) = str.takeWhile (· ≠ 0) ++ w := by
  have hall : w.takeWhile (· ≠ 0) = w := by
    rw [List.takeWhile_eq_self_iff]
    intro c hc
    simp only [ne_eq, decide_eq_true_eq]
    rintro rfl
    exact absurd (hw 0 hc) (by decide)
  rw [List.takeWhile_append]
  split
  · rename_i hlen
    have hstr : str.takeWhile (· ≠ 0) = str :=
      (List.takeWhile_prefix _).eq_of_length hlen
    rw [hall, hstr]
    exact .inr rfl
  · exact .inl rfl

/-- White space behind a document changes nothing, whatever the document is. -/
theorem parse_append_blank (hw : Blank w) (str : Bytes) : parse (str ++ w) = parse str := by
  unfold parse
  rcases takeWhile_append_blank hw str with h | h
  · rw [h]
  · rw [h]
    unfold skipWhitespace
    rw [dropWhile_append_all hw]
    split
    · rename_i hnil
      rw [hnil]
    · rename_i hne
      exact document_append hw hne

/-- **White space around a document changes nothing**, and a text that is refused stays so. -/
theorem parse_blank {front : Bytes} (hf : Blank front) (hw : Blank w) (str : Bytes) :
    parse (front ++ str ++ w) = parse str := by
  rw [parse_append_blank hw]
  have hnul : ∀ c ∈ front, decide (c ≠ 0) = true := by
    intro c hc
    simp only [ne_eq, decide_eq_true_eq]
    rintro rfl
    exact absurd (hf 0 hc) (by decide)
  unfold parse
  rw [List.takeWhile_append_of_pos hnul]
  unfold skipWhitespace
  rw [List.dropWhile_append_of_pos hf]

/-- A request on two lines of its own, as a client may send it. -/
theorem parse_blank_array :
    parse ([10] ++ ascii "[\x221\x22]" ++ [13, 10]) = parse (ascii "[\x221\x22]") :=
  parse_blank (blank_of_all rfl) (blank_of_all rfl) (ascii "[\x221\x22]")

end Reader

end Nstore
