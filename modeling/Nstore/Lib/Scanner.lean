/-
Scanners, which read something from the front of a list and leave the rest.

A scanner `Extends` over `w` if text that goes on with `w` is read as if it ended, and
`w` is left over as well.  Scanners that do are closed under composition, so one that is
put together from small ones does, if the small ones do.

Skipping is the exception: at the end of a text it takes `w` too, if all of it may be
skipped.  What comes after the skip then has to have refused the end of the text.
-/
import Mathlib.Data.List.TakeWhile
import Mathlib.Tactic

namespace Scanner

variable {β α γ : Type}

/-- `w` behind the text stays behind what is left. -/
def Extends (w : List β) (p : List β → Option (α × List β)) : Prop :=
  ∀ s, p (s ++ w) = (p s).map fun r => (r.1, r.2 ++ w)

variable {w : List β} {p : List β → Option (α × List β)}

theorem Extends.bind (hp : Extends w p) {q : α × List β → Option (γ × List β)}
    (hq : ∀ a, Extends w fun s => q (a, s)) : Extends w fun s => (p s).bind q := by
  intro s
  simp only [hp s]
  cases p s with
  | none => rfl
  | some r => exact hq r.1 r.2

theorem Extends.map (hp : Extends w p) (f : α → γ) :
    Extends w fun s => (p s).map fun r => (f r.1, r.2) := by
  intro s
  simp only [hp s]
  cases p s <;> rfl

theorem extends_fail : Extends w fun _ => (none : Option (α × List β)) := fun _ => rfl

theorem extends_pure (a : α) : Extends w fun s => some (a, s) := fun _ => rfl

/-- Skipping what satisfies `skip`. -/
theorem dropWhile_append_all {skip : β → Bool} (hw : ∀ c ∈ w, skip c = true) : ∀ s : List β,
    (s ++ w).dropWhile skip = if s.dropWhile skip = [] then [] else s.dropWhile skip ++ w := by
  intro s
  induction s with
  | nil =>
      rw [List.nil_append, List.dropWhile_nil, if_pos rfl]
      exact List.dropWhile_eq_nil_iff.mpr hw
  | cons c s ih =>
      rw [List.cons_append]
      by_cases hc : skip c = true
      · rw [List.dropWhile_cons_of_pos hc, List.dropWhile_cons_of_pos hc, ih]
      · rw [List.dropWhile_cons_of_neg hc, List.dropWhile_cons_of_neg hc,
          if_neg (List.cons_ne_nil c s)]
        rfl

/-- **A scanner after a skip**, if it refuses the end of the text. -/
theorem Extends.skip {skip : β → Bool} (hw : ∀ c ∈ w, skip c = true) (hp : Extends w p)
    (hend : p [] = none) : Extends w fun s => p (s.dropWhile skip) := by
  intro s
  simp only [dropWhile_append_all hw s]
  split
  · rename_i h
    rw [h, hend]
    rfl
  · exact hp _

end Scanner
