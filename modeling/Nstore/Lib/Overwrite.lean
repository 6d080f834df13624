/-
Lists kept up to date by records that overwrite older ones.

A record is entered in front, after everything that it overwrites has been taken
out.  What is left after a whole list of records has been entered is what none of
the later ones overwrites: that is all a reader of the list has to know, whatever
"overwrites" means.
-/
import Mathlib.Data.List.Nodup
import Mathlib.Tactic

namespace Overwrite

variable {α : Type}

/-! ### Where a record stands in a list -/

section Split

variable {rs l r : List α} {x y : α}

/-- Where a list with one more record at its end can be split. -/
theorem split_concat (h : rs ++ [x] = l ++ y :: r) :
    (l = rs ∧ y = x ∧ r = []) ∨ ∃ r', r = r' ++ [x] ∧ rs = l ++ y :: r' := by
  rcases List.eq_nil_or_concat r with rfl | ⟨r', z, rfl⟩
  · obtain ⟨hl, hx⟩ := List.append_inj' h rfl
    exact Or.inl ⟨hl.symm, (List.singleton_inj.mp hx).symm, rfl⟩
  · have h' : rs ++ [x] = (l ++ y :: r') ++ [z] := by simpa using h
    obtain ⟨hl, hx⟩ := List.append_inj' h' rfl
    have hx : x = z := List.singleton_inj.mp hx
    exact Or.inr ⟨r', by simp [hx], hl⟩

/-- A record of a kind that is there stands somewhere as the last of its kind. -/
theorem exists_last {p : α → Prop} (h : ∃ x ∈ rs, p x) :
    ∃ l y r, rs = l ++ y :: r ∧ p y ∧ ∀ z ∈ r, ¬ p z := by
  induction rs with
  | nil =>
      obtain ⟨x, hx, -⟩ := h
      exact absurd hx List.not_mem_nil
  | cons z rest ih =>
      by_cases hrest : ∃ x ∈ rest, p x
      · obtain ⟨l, y, r, rfl, hy, hr⟩ := ih hrest
        exact ⟨z :: l, y, r, rfl, hy, hr⟩
      · push Not at hrest
        obtain ⟨x, hx, hp⟩ := h
        rcases List.mem_cons.mp hx with rfl | hx
        · exact ⟨[], x, rest, rfl, hp, hrest⟩
        · exact absurd hp (hrest x hx)

end Split

/-! ### Entering records -/

section Enter

variable (hides : α → α → Prop) [∀ x y, Decidable (hides x y)]

/-- Enter a record. -/
def enter (xs : List α) (x : α) : List α := x :: xs.filter fun y => ¬ hides x y

/-- Enter record after record. -/
def enterAll (xs rs : List α) : List α := rs.foldl (enter hides) xs

variable {hides} {xs rs : List α} {x y : α}

theorem mem_enter : y ∈ enter hides xs x ↔ y = x ∨ (y ∈ xs ∧ ¬ hides x y) := by
  simp [enter]

theorem enterAll_concat : enterAll hides xs (rs ++ [x]) = enter hides (enterAll hides xs rs) x := by
  simp [enterAll]

/-- **What is left**: records that no later one overwrites, and what none overwrites. -/
theorem mem_enterAll :
    y ∈ enterAll hides xs rs ↔
      (∃ l r, rs = l ++ y :: r ∧ ∀ z ∈ r, ¬ hides z y) ∨ (y ∈ xs ∧ ∀ z ∈ rs, ¬ hides z y) := by
  induction rs using List.reverseRecOn with
  | nil => simp [enterAll]
  | append_singleton rs x ih =>
      rw [enterAll_concat, mem_enter, ih]
      have hlast : ∀ {zs : List α}, (∀ z ∈ zs, ¬ hides z y) → ¬ hides x y →
          ∀ z ∈ zs ++ [x], ¬ hides z y := by
        intro zs hzs hx z hz
        rcases List.mem_append.mp hz with hz | hz
        · exact hzs z hz
        · rw [List.mem_singleton.mp hz]
          exact hx
      constructor
      · rintro (rfl | ⟨⟨l, r, rfl, hr⟩ | ⟨hy, hrs⟩, hx⟩)
        · exact Or.inl ⟨rs, [], rfl, by simp⟩
        · exact Or.inl ⟨l, r ++ [x], by simp, hlast hr hx⟩
        · exact Or.inr ⟨hy, hlast hrs hx⟩
      · rintro (⟨l, r, heq, hr⟩ | ⟨hy, hrs⟩)
        · rcases split_concat heq with ⟨-, hyx, -⟩ | ⟨r', rfl, rfl⟩
          · exact Or.inl hyx
          · refine Or.inr ⟨Or.inl ⟨l, r', rfl, fun z hz => hr z (by simp [hz])⟩, ?_⟩
            exact hr x (by simp)
        · exact Or.inr ⟨Or.inr ⟨hy, fun z hz => hrs z (by simp [hz])⟩, hrs x (by simp)⟩

theorem enter_perm {ys : List α} (h : xs.Perm ys) : (enter hides xs x).Perm (enter hides ys x) :=
  (h.filter _).cons x

/-- The order of a list does not show in what it holds later. -/
theorem enterAll_perm {ys : List α} (h : xs.Perm ys) :
    (enterAll hides xs rs).Perm (enterAll hides ys rs) := by
  induction rs using List.reverseRecOn with
  | nil => exact h
  | append_singleton rs x ih =>
      rw [enterAll_concat, enterAll_concat]
      exact enter_perm ih

/-- Nothing is there twice if a record overwrites itself. -/
theorem nodup_enterAll (hself : ∀ x, hides x x) (hxs : xs.Nodup) :
    (enterAll hides xs rs).Nodup := by
  induction rs using List.reverseRecOn with
  | nil => exact hxs
  | append_singleton rs x ih =>
      rw [enterAll_concat, enter, List.nodup_cons]
      refine ⟨fun hc => ?_, ih.filter _⟩
      simpa [hself x] using (List.mem_filter.mp hc).2

end Enter

end Overwrite
