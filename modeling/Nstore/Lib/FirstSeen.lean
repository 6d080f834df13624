/-
Numbering things in the order they are first seen.

A counter hands out a number the first time a thing is seen, and the same number
whenever it is seen again.  What has been numbered is the list of things in the
order of their first occurrence, so the number of a thing is its place in that list,
counted from where the counter began.
-/
import Mathlib.Data.List.Lex
import Mathlib.Tactic

namespace FirstSeen

variable {α : Type} [DecidableEq α]

/-- A thing is added at the end, unless it was seen before. -/
def see (xs : List α) (x : α) : List α := if x ∈ xs then xs else xs ++ [x]

/-- What has been seen after a list of things, in the order of first occurrence. -/
def seeAll (xs ys : List α) : List α := ys.foldl see xs

/-- The number of a thing. -/
def number (i : Int) (xs : List α) (x : α) : Int := i + xs.idxOf x

/-- Every thing seen with its number. -/
def numbered (i : Int) (xs : List α) : List (α × Int) := xs.map fun x => (x, number i xs x)

variable {i : Int} {xs ys : List α} {x y : α}

/-! ### What has been seen -/

theorem mem_see : y ∈ see xs x ↔ y ∈ xs ∨ y = x := by
  unfold see
  split
  · rename_i h
    constructor
    · exact Or.inl
    · rintro (hy | rfl)
      · exact hy
      · exact h
  · simp

theorem nodup_see (h : xs.Nodup) : (see xs x).Nodup := by
  unfold see
  split
  · exact h
  · rename_i hx
    rw [List.nodup_append]
    refine ⟨h, by simp, fun a ha b hb => ?_⟩
    rw [List.mem_singleton.mp hb]
    exact fun hc => hx (hc ▸ ha)

theorem see_extends : xs <+: see xs x := by
  unfold see
  split
  · exact List.prefix_refl xs
  · exact List.prefix_append xs [x]

theorem seeAll_append (xs ys zs : List α) : seeAll xs (ys ++ zs) = seeAll (seeAll xs ys) zs :=
  List.foldl_append

theorem nodup_seeAll : ∀ {ys xs : List α}, xs.Nodup → (seeAll xs ys).Nodup := by
  intro ys
  induction ys with
  | nil => intro xs h; exact h
  | cons y rest ih => intro xs h; exact ih (nodup_see h)

theorem seeAll_extends : ∀ {ys xs : List α}, xs <+: seeAll xs ys := by
  intro ys
  induction ys with
  | nil => intro xs; exact List.prefix_refl xs
  | cons y rest ih => intro xs; exact see_extends.trans ih

theorem mem_seeAll : ∀ {ys xs : List α}, x ∈ seeAll xs ys ↔ x ∈ xs ∨ x ∈ ys := by
  intro ys
  induction ys with
  | nil => intro xs; simp [seeAll]
  | cons y rest ih =>
      intro xs
      show x ∈ seeAll (see xs y) rest ↔ _
      rw [ih, mem_see, List.mem_cons, or_assoc]

/-! ### Numbers -/

/-- What is seen later does not change a number. -/
theorem number_eq (h : xs <+: ys) (hx : x ∈ xs) : number i ys x = number i xs x := by
  obtain ⟨zs, rfl⟩ := h
  unfold number
  rw [List.idxOf_append_of_mem hx]

theorem number_range (hx : x ∈ xs) : i ≤ number i xs x ∧ number i xs x < i + xs.length := by
  have := List.idxOf_lt_length_of_mem hx
  unfold number
  omega

/-- Different things have different numbers. -/
theorem number_inj (hx : x ∈ xs) (h : number i xs x = number i xs y) : x = y := by
  unfold number at h
  exact (List.idxOf_inj hx).mp (by omega)

/-- The numbers are handed out one after the other. -/
theorem map_number (h : xs.Nodup) :
    xs.map (number i xs) = (List.range xs.length).map fun k : Nat => i + k := by
  refine List.ext_getElem (by simp) fun k hk hk' => ?_
  have hlen : k < xs.length := by simpa using hk
  simp [number, h.idxOf_getElem k hlen]

theorem lookup_numbered (i : Int) (xs : List α) (x : α) :
    (numbered i xs).lookup x = if x ∈ xs then some (number i xs x) else none := by
  unfold numbered
  generalize number i xs = f
  induction xs with
  | nil => rfl
  | cons y rest ih =>
      rw [List.map_cons, List.lookup_cons, ih]
      by_cases hxy : x = y
      · subst hxy
        simp
      · simp [beq_false_of_ne hxy, hxy]

theorem numbered_concat (h : x ∉ xs) :
    numbered i (xs ++ [x]) = numbered i xs ++ [(x, i + xs.length)] := by
  unfold numbered
  rw [List.map_append, List.map_singleton]
  congr 1
  · refine List.map_congr_left fun y hy => ?_
    rw [number_eq (List.prefix_append xs [x]) hy]
  · simp [number, List.idxOf_append_of_notMem h]

end FirstSeen
