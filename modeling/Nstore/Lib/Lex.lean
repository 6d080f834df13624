/-
Lexicographic comparison by differences.

A comparison routine written in C often subtracts field from field and returns
the first difference that is not zero.  `firstDiff` is that routine on two lists
of integers.  When neither list is a proper prefix of the other, its sign is the
lexicographic order of the lists, so everything Mathlib knows about `List Int` as
a linear order applies to it.

The routine as written usually narrows the result on the way out.  What survives
narrowing is a question about three differences at a time, and
`firstDiff_triangle` says how those three are related.
-/
import Mathlib.Data.List.Lex
import Mathlib.Tactic

namespace LexDiff

/-- The first non-zero difference of two lists of integers, or zero. -/
def firstDiff : List Int → List Int → Int
  | x :: xs, y :: ys => if x - y ≠ 0 then x - y else firstDiff xs ys
  | _, _ => 0

/-- Neither list stops where the other goes on. -/
def Aligned (xs ys : List Int) : Prop := firstDiff xs ys = 0 → xs = ys

theorem firstDiff_self : ∀ xs : List Int, firstDiff xs xs = 0 := by
  intro xs
  induction xs with
  | nil => rfl
  | cons x xs ih => simp [firstDiff, ih]

theorem firstDiff_cons_self (x : Int) (xs ys : List Int) :
    firstDiff (x :: xs) (x :: ys) = firstDiff xs ys := by
  simp [firstDiff]

theorem firstDiff_cons_ne {x y : Int} (h : x ≠ y) (xs ys : List Int) :
    firstDiff (x :: xs) (y :: ys) = x - y := by
  rw [firstDiff, if_pos (by omega)]

theorem firstDiff_append_self (ps xs ys : List Int) :
    firstDiff (ps ++ xs) (ps ++ ys) = firstDiff xs ys := by
  induction ps with
  | nil => rfl
  | cons p ps ih => rw [List.cons_append, List.cons_append, firstDiff_cons_self, ih]

theorem firstDiff_swap : ∀ xs ys : List Int, firstDiff ys xs = -firstDiff xs ys := by
  intro xs
  induction xs with
  | nil => intro ys; cases ys <;> rfl
  | cons x xs ih =>
      intro ys
      cases ys with
      | nil => rfl
      | cons y ys =>
          by_cases h : x = y
          · subst h
            rw [firstDiff_cons_self, firstDiff_cons_self, ih]
          · rw [firstDiff_cons_ne h, firstDiff_cons_ne (Ne.symm h)]
            omega

theorem Aligned.tail {x : Int} {xs ys : List Int} (h : Aligned (x :: xs) (x :: ys)) :
    Aligned xs ys := by
  intro h0
  rw [← firstDiff_cons_self x] at h0
  exact (List.cons.inj (h h0)).2

theorem aligned_refl (xs : List Int) : Aligned xs xs := fun _ => rfl

theorem aligned_cons {x y : Int} {xs ys : List Int} (h : x = y → Aligned xs ys) :
    Aligned (x :: xs) (y :: ys) := by
  intro h0
  by_cases hxy : x = y
  · subst hxy
    rw [firstDiff_cons_self] at h0
    rw [h rfl h0]
  · rw [firstDiff_cons_ne hxy] at h0
    omega

theorem firstDiff_append {xs ys : List Int} (h : Aligned xs ys) (r r' : List Int) :
    firstDiff (xs ++ r) (ys ++ r') =
      if firstDiff xs ys ≠ 0 then firstDiff xs ys else firstDiff r r' := by
  by_cases h0 : firstDiff xs ys = 0
  · rw [if_neg (by simpa using h0), h h0, firstDiff_append_self]
  · rw [if_pos h0]
    clear h
    induction xs generalizing ys with
    | nil => exact absurd (by cases ys <;> rfl) h0
    | cons x xs ih =>
        cases ys with
        | nil => exact absurd rfl h0
        | cons y ys =>
            by_cases hxy : x = y
            · subst hxy
              rw [firstDiff_cons_self] at h0 ⊢
              rw [List.cons_append, List.cons_append, firstDiff_cons_self]
              exact ih h0
            · rw [List.cons_append, List.cons_append, firstDiff_cons_ne hxy,
                firstDiff_cons_ne hxy]

theorem aligned_append {xs ys r r' : List Int} (h : Aligned xs ys) (h' : Aligned r r') :
    Aligned (xs ++ r) (ys ++ r') := by
  intro h0
  rw [firstDiff_append h] at h0
  split at h0
  · rename_i hne
    exact absurd h0 hne
  · rename_i hz
    rw [h (by simpa using hz), h' h0]

theorem firstDiff_single (x y : Int) : firstDiff [x] [y] = x - y := by
  by_cases h : x = y
  · subst h; rw [firstDiff_self]; omega
  · exact firstDiff_cons_ne h [] []

/-- The sign of the first difference is the lexicographic order. -/
theorem firstDiff_neg_iff : ∀ {xs ys : List Int}, Aligned xs ys →
    (firstDiff xs ys < 0 ↔ xs < ys) := by
  intro xs
  induction xs with
  | nil =>
      intro ys h
      have hys : [] = ys := h (by cases ys <;> rfl)
      subst hys
      simp [firstDiff]
  | cons x xs ih =>
      intro ys h
      cases ys with
      | nil => exact absurd (h rfl) (by simp)
      | cons y ys =>
          rw [List.cons_lt_cons_iff]
          by_cases hxy : x = y
          · subst hxy
            rw [firstDiff_cons_self, ih h.tail]
            simp
          · rw [firstDiff_cons_ne hxy]
            constructor
            · intro hlt
              exact Or.inl (by omega)
            · rintro (hlt | ⟨heq, -⟩)
              · omega
              · exact absurd heq hxy

theorem cons_le_cons_iff {a b : Int} {l m : List Int} :
    a :: l ≤ b :: m ↔ a < b ∨ a = b ∧ l ≤ m := by
  rw [← not_lt, List.cons_lt_cons_iff, ← not_lt]
  constructor
  · intro h
    by_cases hab : a = b
    · exact Or.inr ⟨hab, fun hlt => h (Or.inr ⟨hab.symm, hlt⟩)⟩
    · exact Or.inl (by omega)
  · rintro h (hlt | ⟨heq, hlt⟩)
    · omega
    · exact (h.resolve_left (by omega)).2 hlt

/-- A list between two that begin alike begins like them. -/
theorem cons_between {a b : Int} {lo m hi : List Int} (h1 : a :: lo ≤ b :: m)
    (h2 : b :: m < a :: hi) : b = a ∧ lo ≤ m ∧ m < hi := by
  rcases List.cons_lt_cons_iff.mp h2 with hlt | ⟨heq, hlt⟩
  · exact absurd (cons_le_cons_iff.mp h1) (by omega)
  · exact ⟨heq, ((cons_le_cons_iff.mp h1).resolve_left (by omega)).2, hlt⟩

theorem firstDiff_eq_zero_iff {xs ys : List Int} (h : Aligned xs ys) :
    firstDiff xs ys = 0 ↔ xs = ys :=
  ⟨h, fun heq => by rw [heq, firstDiff_self]⟩

/-- If every coordinate lies in one window, so does every difference. -/
theorem firstDiff_bound (lo : Int) {B : Int} (hB : 0 < B) : ∀ {xs ys : List Int},
    (∀ x ∈ xs, lo ≤ x ∧ x < lo + B) → (∀ y ∈ ys, lo ≤ y ∧ y < lo + B) →
    -B < firstDiff xs ys ∧ firstDiff xs ys < B := by
  intro xs
  induction xs with
  | nil => intro ys _ _; simp [firstDiff, hB]
  | cons x xs ih =>
      intro ys hx hy
      cases ys with
      | nil => simp [firstDiff, hB]
      | cons y ys =>
          by_cases hxy : x = y
          · subst hxy
            rw [firstDiff_cons_self]
            exact ih (fun z hz => hx z (by simp [hz])) (fun z hz => hy z (by simp [hz]))
          · rw [firstDiff_cons_ne hxy]
            have h1 := hx x (by simp)
            have h2 := hy y (by simp)
            omega

/--
How the three differences of three lists are related.  Either all three lists
part at one place, and the differences add up, or two of them go on together
after the third has left, and then its two differences agree up to sign.
-/
theorem firstDiff_triangle : ∀ {xs ys zs : List Int},
    Aligned xs ys → Aligned ys zs → Aligned xs zs →
    firstDiff xs zs = firstDiff xs ys + firstDiff ys zs ∨
      firstDiff xs zs = firstDiff ys zs ∨ firstDiff xs zs = firstDiff xs ys ∨
      (firstDiff xs ys ≠ 0 ∧ firstDiff ys zs = -firstDiff xs ys) := by
  intro xs
  induction xs with
  | nil =>
      intro ys zs hxy _ _
      have hys : [] = ys := hxy (by cases ys <;> rfl)
      subst hys
      exact Or.inr (Or.inl rfl)
  | cons x xs ih =>
      intro ys zs hxy hyz hxz
      cases ys with
      | nil => exact absurd (hxy rfl) (by simp)
      | cons y ys =>
          cases zs with
          | nil => exact absurd (hyz rfl) (by simp)
          | cons z zs =>
              by_cases h1 : x = y
              · subst h1
                by_cases h2 : x = z
                · subst h2
                  simp only [firstDiff_cons_self]
                  exact ih hxy.tail hyz.tail hxz.tail
                · rw [firstDiff_cons_ne h2, firstDiff_cons_ne h2]
                  exact Or.inr (Or.inl rfl)
              · by_cases h2 : y = z
                · subst h2
                  rw [firstDiff_cons_ne h1, firstDiff_cons_ne h1]
                  exact Or.inr (Or.inr (Or.inl rfl))
                · by_cases h3 : x = z
                  · subst h3
                    rw [firstDiff_cons_ne h1, firstDiff_cons_ne h2]
                    exact Or.inr (Or.inr (Or.inr ⟨by omega, by omega⟩))
                  · rw [firstDiff_cons_ne h1, firstDiff_cons_ne h2, firstDiff_cons_ne h3]
                    exact Or.inl (by omega)

end LexDiff
