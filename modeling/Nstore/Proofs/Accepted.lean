/-
What the reader accepts.

The loops into an integer stop before it overflows, so whatever is accepted can be
written again; and what has been written is accepted, so a document that was accepted
can be kept in the form the writer gives it.
-/
import Nstore.Proofs.RoundTrip

namespace Nstore

namespace Reader

open GenericValue

/-! ### Integers -/

/-- A loop never passes its bound. -/
theorem accumulate_le (limit : Nat) (last : UInt8) : ∀ (is : Bytes) (i significand : Nat),
    isDigit last = true → i ≤ 10 * limit + (last.toNat - 48) →
      (accumulate limit last i significand is).value ≤ 10 * limit + (last.toNat - 48) := by
  intro is
  induction is with
  | nil => intro i significand _ hi; exact hi
  | cons c is ih =>
      intro i significand hlast hi
      rw [accumulate]
      split
      · rename_i hc
        split
        · exact hi
        · rename_i hfit
          have h48 : (48 : UInt8).toNat = 48 := rfl
          have h57 : (57 : UInt8).toNat = 57 := rfl
          have hd : (48 : UInt8).toNat ≤ c.toNat ∧ c.toNat ≤ (57 : UInt8).toNat := by
            simpa [isDigit, UInt8.le_iff_toNat_le] using hc
          have hl : (48 : UInt8).toNat ≤ last.toNat ∧ last.toNat ≤ (57 : UInt8).toNat := by
            simpa [isDigit, UInt8.le_iff_toNat_le] using hlast
          have hroom : i < limit ∨ (i = limit ∧ c.toNat ≤ last.toNat) := by
            by_cases h : i < limit
            · exact .inl h
            · simp only [not_and, not_or, ne_eq, not_not, UInt8.not_lt,
                UInt8.le_iff_toNat_le] at hfit
              exact .inr (hfit (Nat.not_lt.mp h))
          apply ih _ _ hlast
          omega
      · exact hi

private theorem digits32_le (minus : Bool) {i : Nat} (hi : i < 10) (significand : Nat)
    (is : Bytes) :
    (digits32 minus i significand is).value ≤ intBound minus := by
  unfold digits32 intBound
  cases minus with
  | true =>
      have h := accumulate_le 214748364 56 is i significand rfl (by omega)
      have h56 : (56 : UInt8).toNat = 56 := rfl
      simp only [if_true]
      omega
  | false =>
      have h := accumulate_le 429496729 53 is i significand rfl (by omega)
      have h53 : (53 : UInt8).toNat = 53 := rfl
      simp only [Bool.false_eq_true, if_false]
      omega

private theorem digits64_le {minus : Bool} {i significand : Nat} (hi : i ≤ intBound minus)
    (is : Bytes) :
    (digits64 minus i significand is).value ≤ intBound minus := by
  unfold digits64
  cases minus with
  | true => exact accumulate_le 0x0CCCCCCCCCCCCCCC 56 is i significand rfl hi
  | false => exact accumulate_le 0x1999999999999999 53 is i significand rfl hi

/-- An integer, if it has not become a double. -/
def Number.Fits (minus : Bool) (n : Number) : Prop := n.useDouble = false → n.value ≤ intBound minus

private theorem fits_parseInt {minus : Bool} {is : Bytes} {n : Number}
    (h : parseInt minus is = some n) :
    n.Fits minus := by
  unfold parseInt at h
  split at h
  · rw [Option.some.injEq] at h
    rw [← h]
    intro _
    exact Nat.zero_le _
  · split at h
    · rename_i hdigit
      have hfirst : (peek is).toNat - 48 < 10 := by
        have h57 : (57 : UInt8).toNat = 57 := rfl
        have := UInt8.le_iff_toNat_le.mp hdigit.2
        omega
      have h32 := digits32_le minus hfirst 0 is.tail
      simp only at h
      split at h
      · unfold parseBigInt at h
        simp only at h
        split at h
        · obtain ⟨r, -, rfl⟩ := Option.map_eq_some_iff.mp h
          intro hdouble
          exact absurd hdouble (by simp)
        · rw [Option.some.injEq] at h
          rw [← h]
          intro _
          exact digits64_le h32 _
      · rw [Option.some.injEq] at h
        rw [← h]
        intro _
        exact h32
    · exact absurd h (by simp)

private theorem fits_parseFrac {minus : Bool} {n m : Number} (hn : n.Fits minus)
    (h : parseFrac n = some m) : m.Fits minus := by
  unfold parseFrac at h
  split at h
  · rw [Option.some.injEq] at h
    exact h ▸ hn
  · split at h
    · rw [Option.some.injEq] at h
      rw [← h]
      intro hdouble
      exact absurd hdouble (by simp)
    · exact absurd h (by simp)

private theorem fits_parseExp {minus : Bool} {n : Number} {r : Number × Int} (hn : n.Fits minus)
    (h : parseExp n = some r) : r.1.Fits minus := by
  unfold parseExp at h
  split at h
  · rw [Option.some.injEq] at h
    exact h ▸ hn
  · simp only at h
    split at h
    · split at h
      · rw [Option.some.injEq] at h
        rw [← h]
        intro hdouble
        exact absurd hdouble (by simp)
      · obtain ⟨r', -, rfl⟩ := Option.map_eq_some_iff.mp h
        intro hdouble
        exact absurd hdouble (by simp)
    · exact absurd h (by simp)

private theorem fits_parseNumber {is : Bytes} {r : GenericValue Double × Bytes}
    (h : parseNumber is = some r) : r.1.Fits := by
  unfold parseNumber at h
  simp only at h
  rw [Option.bind_eq_some_iff] at h
  obtain ⟨n, hn, h⟩ := h
  rw [Option.bind_eq_some_iff] at h
  obtain ⟨m, hm, h⟩ := h
  obtain ⟨⟨k, exp⟩, hk, rfl⟩ := Option.map_eq_some_iff.mp h
  have hfits := fits_parseExp (fits_parseFrac (fits_parseInt hn) hm) hk
  simp only
  split
  · rw [GenericValue.Fits]
    trivial
  · rename_i hint
    have hle := hfits (by simpa using hint)
    simp only at hle
    unfold intBound at hle
    rw [GenericValue.Fits]
    split
    · rename_i hminus
      rw [if_pos hminus] at hle
      omega
    · rename_i hminus
      rw [if_neg hminus] at hle
      omega

/-! ### Documents -/

structure FitAll (fuel : Nat) : Prop where
  value : ∀ {is r}, parseValue fuel is = some r → r.1.Fits
  object : ∀ {is r}, parseObject fuel is = some r → r.1.Fits
  members : ∀ {is r}, parseMembers fuel is = some r → FitMembers r.1
  array : ∀ {is r}, parseArray fuel is = some r → r.1.Fits
  elements : ∀ {is r}, parseElements fuel is = some r → FitElements r.1

namespace FitAll

variable {fuel : Nat} {is : Bytes}

theorem value_succ (hf : FitAll fuel) {r : GenericValue Double × Bytes}
    (h : parseValue (fuel + 1) is = some r) : r.1.Fits := by
  rw [parseValue] at h
  simp only at h
  split at h
  · obtain ⟨is', -, rfl⟩ := Option.map_eq_some_iff.mp h
    rw [GenericValue.Fits]
    trivial
  split at h
  · obtain ⟨is', -, rfl⟩ := Option.map_eq_some_iff.mp h
    rw [GenericValue.Fits]
    trivial
  split at h
  · obtain ⟨is', -, rfl⟩ := Option.map_eq_some_iff.mp h
    rw [GenericValue.Fits]
    trivial
  split at h
  · obtain ⟨r', -, rfl⟩ := Option.map_eq_some_iff.mp h
    rw [GenericValue.Fits]
    trivial
  split at h
  · exact hf.object h
  split at h
  · exact hf.array h
  · exact fits_parseNumber h

theorem object_succ (hf : FitAll fuel) {r : GenericValue Double × Bytes}
    (h : parseObject (fuel + 1) is = some r) : r.1.Fits := by
  rw [parseObject] at h
  split at h
  · rw [Option.some.injEq] at h
    rw [← h, GenericValue.Fits, FitMembers]
    trivial
  · obtain ⟨r', h', rfl⟩ := Option.map_eq_some_iff.mp h
    rw [GenericValue.Fits]
    exact hf.members h'

theorem array_succ (hf : FitAll fuel) {r : GenericValue Double × Bytes}
    (h : parseArray (fuel + 1) is = some r) : r.1.Fits := by
  rw [parseArray] at h
  split at h
  · rw [Option.some.injEq] at h
    rw [← h, GenericValue.Fits, FitElements]
    trivial
  · obtain ⟨r', h', rfl⟩ := Option.map_eq_some_iff.mp h
    rw [GenericValue.Fits]
    exact hf.elements h'

theorem elements_succ (hf : FitAll fuel) {r : List (GenericValue Double) × Bytes}
    (h : parseElements (fuel + 1) is = some r) : FitElements r.1 := by
  rw [parseElements, Option.bind_eq_some_iff] at h
  obtain ⟨⟨v, is₁⟩, hv, h⟩ := h
  have hfit : v.Fits := hf.value hv
  simp only at h
  split at h
  · obtain ⟨r', h', rfl⟩ := Option.map_eq_some_iff.mp h
    rw [FitElements]
    exact ⟨hfit, hf.elements h'⟩
  · rw [Option.some.injEq] at h
    rw [← h, FitElements, FitElements]
    exact ⟨hfit, trivial⟩
  · exact absurd h (by simp)

theorem members_succ (hf : FitAll fuel) {r : List (Member Double) × Bytes}
    (h : parseMembers (fuel + 1) is = some r) : FitMembers r.1 := by
  rw [parseMembers, Option.bind_eq_some_iff] at h
  obtain ⟨is₁, -, h⟩ := h
  rw [Option.bind_eq_some_iff] at h
  obtain ⟨⟨name, is₂⟩, -, h⟩ := h
  rw [Option.bind_eq_some_iff] at h
  obtain ⟨is₃, -, h⟩ := h
  rw [Option.bind_eq_some_iff] at h
  obtain ⟨⟨v, is₄⟩, hv, h⟩ := h
  have hfit : v.Fits := hf.value hv
  simp only at h
  split at h
  · obtain ⟨r', h', rfl⟩ := Option.map_eq_some_iff.mp h
    rw [FitMembers]
    exact ⟨hfit, hf.members h'⟩
  · rw [Option.some.injEq] at h
    rw [← h, FitMembers, FitMembers]
    exact ⟨hfit, trivial⟩
  · exact absurd h (by simp)

end FitAll

private theorem fitAll : ∀ fuel, FitAll fuel := by
  intro fuel
  induction fuel with
  | zero =>
      constructor
      · intro is r h; simp [parseValue] at h
      · intro is r h; simp [parseObject] at h
      · intro is r h; simp [parseMembers] at h
      · intro is r h; simp [parseArray] at h
      · intro is r h; simp [parseElements] at h
  | succ fuel ih =>
      exact ⟨ih.value_succ, ih.object_succ, ih.members_succ, ih.array_succ, ih.elements_succ⟩

/-- **Every integer that is accepted fits 64 bits.** -/
theorem fits_parse {str : Bytes} {v : GenericValue Double} (h : parse str = some v) : v.Fits := by
  unfold parse document at h
  simp only at h
  split at h
  · exact absurd h (by simp)
  · rw [Option.bind_eq_some_iff] at h
    obtain ⟨⟨v', is⟩, hv, h⟩ := h
    simp only at h
    split at h
    · rw [Option.some.injEq] at h
      exact h ▸ (fitAll _).value hv
    · exact absurd h (by simp)

end Reader

namespace GenericValue

mutual

theorem fits_of_lift : ∀ v : GenericValue Empty, (v.lift : GenericValue Double).Fits → v.Fits
  | .null, _ => by
      rw [Fits]
      trivial
  | .bool b, _ => by
      rw [Fits]
      trivial
  | .int i, h => by
      rw [lift, Fits] at h
      rw [Fits]
      exact h
  | .string s, _ => by
      rw [Fits]
      trivial
  | .array xs, h => by
      rw [lift, Fits] at h
      rw [Fits]
      exact fits_of_liftElements xs h
  | .object ms, h => by
      rw [lift, Fits] at h
      rw [Fits]
      exact fits_of_liftMembers ms h

theorem fits_of_liftElements : ∀ xs : List (GenericValue Empty),
    FitElements (liftElements xs : List (GenericValue Double)) → FitElements xs
  | [], _ => by
      rw [FitElements]
      trivial
  | x :: xs, h => by
      rw [liftElements, FitElements] at h
      rw [FitElements]
      exact ⟨fits_of_lift x h.1, fits_of_liftElements xs h.2⟩

theorem fits_of_liftMembers : ∀ ms : List (Member Empty),
    FitMembers (liftMembers ms : List (Member Double)) → FitMembers ms
  | [], _ => by
      rw [FitMembers]
      trivial
  | (name, x) :: ms, h => by
      rw [liftMembers, FitMembers] at h
      rw [FitMembers]
      exact ⟨fits_of_lift x h.1, fits_of_liftMembers ms h.2⟩

end

end GenericValue

/--
**Exactly the documents that are read back are ones that can be read.**  For a document
without doubles it is the same whether its integers fit 64 bits, whether any text is read
as it, and whether what `Accept` writes is, which then is one line without a NUL.
-/
theorem Reader.parse_accept (v : GenericValue Empty) :
    List.TFAE [v.Fits, ∃ str, parse str = some v.lift,
      parse (Writer.accept .new v).out = some v.lift ∧ Printable (Writer.accept .new v).out] := by
  tfae_have 1 → 3 := by
    intro hfits
    rw [Writer.out_accept]
    exact ⟨parse_text hfits, v.printable_text hfits⟩
  tfae_have 3 → 2 := by
    intro h
    exact ⟨(Writer.accept .new v).out, h.1⟩
  tfae_have 2 → 1 := by
    intro ⟨str, h⟩
    exact v.fits_of_lift (fits_parse h)
  tfae_finish

end Nstore
