/-
Streams cut at a delimiter of two symbols.

A segment ends where the last symbol of the delimiter follows its first.  What comes
after the last delimiter is not a segment yet.  A stream may also be cut at the last
symbol alone, into lines; then a line that ends in the first symbol ends a segment, and
any other line only makes the segment it is in longer.
-/
import Mathlib.Data.List.Infix
import Mathlib.Tactic

namespace Delimited

variable {α : Type} [DecidableEq α] (c l : α)

/-- The segments of a stream, where the first of them has begun with `acc`. -/
def segmentsFrom : List α → List α → List (List α)
  | _, [] => []
  | acc, b :: rest =>
      if b = l ∧ acc.getLast? = some c then acc.dropLast :: segmentsFrom [] rest
      else segmentsFrom (acc ++ [b]) rest

/-- The segments of a stream that have ended. -/
def segments (bs : List α) : List (List α) := segmentsFrom c l [] bs

variable {c l}

/-- A stream has a segment if the delimiter is in it. -/
theorem segmentsFrom_eq_nil_iff : ∀ (bs acc : List α), segmentsFrom c l acc bs = [] ↔
    ¬ [c, l] <:+: bs ∧ ¬ (acc.getLast? = some c ∧ bs.head? = some l) := by
  intro bs
  induction bs with
  | nil => intro acc; simp [segmentsFrom]
  | cons b rest ih =>
      intro acc
      rw [segmentsFrom]
      by_cases hend : b = l ∧ acc.getLast? = some c
      · rw [if_pos hend]
        simp [hend.1, hend.2]
      · have hfront : [c, l] <+: b :: rest ↔ b = c ∧ rest.head? = some l := by
          cases rest with
          | nil => simp
          | cons b' rest => simp [eq_comm]
        rw [if_neg hend, ih, List.infix_cons_iff, hfront]
        simp only [List.getLast?_append, List.getLast?_singleton, Option.some_or,
          Option.some.injEq, List.head?_cons]
        tauto

theorem segments_eq_nil_iff (bs : List α) : segments c l bs = [] ↔ ¬ [c, l] <:+: bs := by
  rw [segments, segmentsFrom_eq_nil_iff]
  simp

/-- A line ends the segment, or it only makes it longer. -/
theorem segmentsFrom_line {line : List α} (h : l ∉ line) (acc rest : List α) :
    segmentsFrom c l acc (line ++ l :: rest) =
      if (acc ++ line).getLast? = some c then (acc ++ line).dropLast :: segmentsFrom c l [] rest
      else segmentsFrom c l (acc ++ line ++ [l]) rest := by
  induction line generalizing acc with
  | nil => simp [segmentsFrom]
  | cons b line ih =>
      have hb : b ≠ l := fun hc => h (hc ▸ List.mem_cons_self)
      rw [List.cons_append, segmentsFrom, if_neg (fun hc => hb hc.1),
        ih (fun hc => h (List.mem_cons_of_mem _ hc))]
      simp

/-- How many segments there are depends only on whether the first may end at once. -/
theorem length_segmentsFrom : ∀ (bs acc acc' : List α),
    (acc.getLast? = some c ↔ acc'.getLast? = some c) →
    (segmentsFrom c l acc bs).length = (segmentsFrom c l acc' bs).length := by
  intro bs
  induction bs with
  | nil => intro acc acc' _; rfl
  | cons b rest ih =>
      intro acc acc' h
      rw [segmentsFrom, segmentsFrom]
      by_cases hend : b = l ∧ acc.getLast? = some c
      · rw [if_pos hend, if_pos ⟨hend.1, h.mp hend.2⟩]
        rfl
      · rw [if_neg hend, if_neg fun hc => hend ⟨hc.1, h.mpr hc.2⟩]
        exact ih _ _ (by simp)

/-- Lines that end in the first symbol of the delimiter are what counts. -/
theorem length_segments_lines (hcl : c ≠ l) {lines : List (List α)} (h : ∀ line ∈ lines, l ∉ line)
    (rest : List α) : (segments c l (lines.flatMap (· ++ [l]) ++ rest)).length =
      lines.countP (fun line => line.getLast? = some c) + (segments c l rest).length := by
  induction lines with
  | nil => simp
  | cons line lines ih =>
      have hrest := ih fun line' hl => h line' (List.mem_cons_of_mem _ hl)
      have hsplit : (line :: lines).flatMap (· ++ [l]) ++ rest =
          line ++ l :: (lines.flatMap (· ++ [l]) ++ rest) := by
        simp
      rw [hsplit, segments, segmentsFrom_line (h line List.mem_cons_self), List.nil_append,
        List.countP_cons]
      by_cases hend : line.getLast? = some c
      · rw [if_pos hend, if_pos (by simpa using hend), List.length_cons]
        have : (segmentsFrom c l [] (lines.flatMap (· ++ [l]) ++ rest)).length = _ := hrest
        omega
      · rw [if_neg hend, if_neg (by simpa using hend)]
        have hlast : (line ++ [l]).getLast? = some c ↔ ([] : List α).getLast? = some c := by
          simp [hcl.symm]
        rw [length_segmentsFrom _ _ _ hlast]
        have : (segmentsFrom c l [] (lines.flatMap (· ++ [l]) ++ rest)).length = _ := hrest
        omega

/-- Segments without the last symbol of the delimiter are found again. -/
theorem segments_flatMap {segs : List (List α)} (h : ∀ seg ∈ segs, l ∉ seg) (hcl : c ≠ l)
    (rest : List α) :
    segments c l (segs.flatMap (· ++ [c, l]) ++ rest) = segs ++ segments c l rest := by
  induction segs with
  | nil => simp
  | cons seg segs ih =>
      have hseg : l ∉ seg ++ [c] := by
        simp only [List.mem_append, List.mem_singleton, not_or]
        exact ⟨h seg List.mem_cons_self, hcl.symm⟩
      have hsplit : (seg :: segs).flatMap (· ++ [c, l]) ++ rest =
          (seg ++ [c]) ++ l :: (segs.flatMap (· ++ [c, l]) ++ rest) := by
        simp
      rw [hsplit, segments, segmentsFrom_line hseg, List.nil_append, if_pos (by simp),
        List.dropLast_concat, List.cons_append, ← ih fun s hs => h s (List.mem_cons_of_mem _ hs)]
      rfl

/-- Texts written one after the other, each with the delimiter behind it, are cut apart again. -/
theorem segments_flatMap_map {β : Type} {f : β → List α} {xs : List β} (h : ∀ x ∈ xs, l ∉ f x)
    (hcl : c ≠ l) : segments c l (xs.flatMap fun x => f x ++ [c, l]) = xs.map f := by
  have hfree : ∀ seg ∈ xs.map f, l ∉ seg := by
    intro seg hseg
    obtain ⟨x, hx, rfl⟩ := List.mem_map.mp hseg
    exact h x hx
  have hcut := segments_flatMap hfree hcl []
  rw [List.flatMap_map, List.append_nil] at hcut
  exact hcut.trans (List.append_nil _)

/-- More of a stream adds segments at the end. -/
theorem segmentsFrom_append (y : List α) : ∀ (x acc : List α),
    segmentsFrom c l acc x <+: segmentsFrom c l acc (x ++ y) := by
  intro x
  induction x with
  | nil => intro acc; exact List.nil_prefix
  | cons b rest ih =>
      intro acc
      rw [List.cons_append, segmentsFrom, segmentsFrom]
      by_cases hend : b = l ∧ acc.getLast? = some c
      · rw [if_pos hend, if_pos hend]
        exact (List.prefix_cons_inj _).mpr (ih [])
      · rw [if_neg hend, if_neg hend]
        exact ih _

theorem segments_append (x y : List α) : segments c l x <+: segments c l (x ++ y) :=
  segmentsFrom_append y x []

/-- The first segment goes on with what it has begun with. -/
theorem head_segmentsFrom : ∀ (bs acc : List α), acc.getLast? ≠ some c →
    ∀ {seg : List α} {segs : List (List α)},
      segmentsFrom c l acc bs = seg :: segs → acc <+: seg := by
  have hgen : ∀ (bs acc : List α), ∀ {seg : List α} {segs : List (List α)},
      segmentsFrom c l acc bs = seg :: segs → acc.dropLast <+: seg ∧
        (acc.getLast? ≠ some c → acc <+: seg) := by
    intro bs
    induction bs with
    | nil => intro acc seg segs h; exact absurd h (by simp [segmentsFrom])
    | cons b rest ih =>
        intro acc seg segs h
        rw [segmentsFrom] at h
        by_cases hend : b = l ∧ acc.getLast? = some c
        · rw [if_pos hend] at h
          have hseg : acc.dropLast = seg := (List.cons.inj h).1
          exact ⟨hseg ▸ List.prefix_refl _, fun hne => absurd hend.2 hne⟩
        · rw [if_neg hend] at h
          have hacc : acc <+: seg := by
            have := (ih _ h).1
            rwa [List.dropLast_concat] at this
          exact ⟨(List.dropLast_prefix acc).trans hacc, fun _ => hacc⟩
  intro bs acc hne seg segs h
  exact (hgen bs acc h).2 hne

end Delimited
