/-
Scanning a sorted run in batches.

A cursor walks over records that come in groups.  The loop keeps the group of the
record it last took in and a batch built up from that group's records; when a
record of another group arrives, the batch is flushed and a fresh one begun, and
the last batch is flushed after the loop.

`finish_foldl` says what that computes: one flush per maximal run of records of
one group, in order.  When the records are sorted by group, those runs are the
groups, `mem_batches`.
-/
import Mathlib.Data.List.Lex
import Mathlib.Tactic

namespace BatchScan

variable {α γ μ β : Type}

/-- The loop's variables: last group, its batch so far, and what has been flushed. -/
structure Scan (γ μ β : Type) where
  last : γ
  current : μ
  out : List β

section Loop

variable [DecidableEq γ] (group : α → γ) (update : μ → α → μ) (flush : γ → μ → List β) (fresh : μ)

/-- Flush if the group changes, then take the record in. -/
def step (st : Scan γ μ β) (x : α) : Scan γ μ β :=
  if group x ≠ st.last then
    { last := group x, current := update fresh x, out := st.out ++ flush st.last st.current }
  else { st with current := update st.current x }

/-- The flush after the loop. -/
def finish (st : Scan γ μ β) : List β := st.out ++ flush st.last st.current

/-- The maximal runs of records of one group. -/
def batches : List α → List (γ × List α)
  | [] => []
  | x :: rest =>
      match batches rest with
      | [] => [(group x, [x])]
      | (g, xs) :: bs => if group x = g then (g, x :: xs) :: bs else (group x, [x]) :: (g, xs) :: bs

end Loop

variable [DecidableEq γ] {group : α → γ} {update : μ → α → μ} {flush : γ → μ → List β} {fresh : μ}

theorem batches_cons (group : α → γ) (x : α) (rest : List α) :
    ∃ xs bs, batches group (x :: rest) = (group x, x :: xs) :: bs := by
  rw [batches]
  split
  · exact ⟨[], [], rfl⟩
  · rename_i g xs bs hb
    by_cases h : group x = g
    · exact ⟨xs, bs, by rw [if_pos h, h]⟩
    · exact ⟨[], (g, xs) :: bs, by rw [if_neg h]⟩

theorem mem_of_mem_batches {group : α → γ} : ∀ {xs : List α}, ∀ b ∈ batches group xs, ∀ x ∈ b.2, x ∈ xs := by
  intro xs
  induction xs with
  | nil => intro b hb; exact absurd hb List.not_mem_nil
  | cons y rest ih =>
      intro b hb x hx
      rw [batches] at hb
      split at hb
      · rw [List.mem_singleton.mp hb, List.mem_singleton] at hx
        exact hx ▸ List.mem_cons_self
      · rename_i g ys bs hbs
        rw [hbs] at ih
        split at hb
        · rcases List.mem_cons.mp hb with rfl | hb
          · rcases List.mem_cons.mp hx with rfl | hx
            · exact List.mem_cons_self
            · exact List.mem_cons_of_mem y (ih (g, ys) List.mem_cons_self x hx)
          · exact List.mem_cons_of_mem y (ih b (List.mem_cons_of_mem _ hb) x hx)
        · rcases List.mem_cons.mp hb with rfl | hb
          · exact (List.mem_singleton.mp hx) ▸ List.mem_cons_self
          · exact List.mem_cons_of_mem y (ih b hb x hx)

/-- A batch is a run of records of its own group, in any order of the records. -/
theorem group_of_mem_batches {group : α → γ} :
    ∀ {xs : List α}, ∀ b ∈ batches group xs, ∀ x ∈ b.2, group x = b.1 := by
  intro xs
  induction xs with
  | nil => intro b hb; exact absurd hb List.not_mem_nil
  | cons y rest ih =>
      intro b hb x hx
      rw [batches] at hb
      split at hb
      · rw [List.mem_singleton.mp hb] at hx ⊢
        rw [List.mem_singleton.mp hx]
      · rename_i g ys bs hbs
        rw [hbs] at ih
        split at hb
        · rename_i hg
          rcases List.mem_cons.mp hb with rfl | hb
          · rcases List.mem_cons.mp hx with rfl | hx
            · exact hg
            · exact ih (g, ys) List.mem_cons_self x hx
          · exact ih b (List.mem_cons_of_mem _ hb) x hx
        · rcases List.mem_cons.mp hb with rfl | hb
          · rw [List.mem_singleton.mp hx]
          · exact ih b hb x hx

/-- Flushing every batch, the first one on top of a batch already begun. -/
private def flushFrom (update : μ → α → μ) (flush : γ → μ → List β) (fresh : μ) (last : γ)
    (current : μ) : List (γ × List α) → List β
  | [] => flush last current
  | (g, xs) :: bs =>
      let rest := bs.flatMap fun b => flush b.1 (b.2.foldl update fresh)
      if g = last then flush last (xs.foldl update current) ++ rest
      else flush last current ++ flush g (xs.foldl update fresh) ++ rest

private theorem finish_foldl_from : ∀ (xs : List α) (st : Scan γ μ β),
    finish flush (xs.foldl (step group update flush fresh) st) =
      st.out ++ flushFrom update flush fresh st.last st.current (batches group xs) := by
  intro xs
  induction xs with
  | nil => intro st; rfl
  | cons x rest ih =>
      intro st
      rw [List.foldl_cons, ih, batches]
      by_cases hx : group x = st.last
      · have hstep : step group update flush fresh st x =
            { st with current := update st.current x } := by
          rw [step, if_neg (by simpa using hx)]
        rw [hstep]
        cases hb : batches group rest with
        | nil => simp [flushFrom, hx]
        | cons b bs =>
            obtain ⟨g, ys⟩ := b
            by_cases hg : group x = g
            · subst hg
              simp [flushFrom, hx]
            · have hg' : g ≠ st.last := fun hc => hg (hx.trans hc.symm)
              simp [flushFrom, hx, hg', Ne.symm hg']
      · have hstep : step group update flush fresh st x =
            { last := group x, current := update fresh x,
              out := st.out ++ flush st.last st.current } := by
          rw [step, if_pos hx]
        rw [hstep]
        cases hb : batches group rest with
        | nil => simp [flushFrom, hx]
        | cons b bs =>
            obtain ⟨g, ys⟩ := b
            by_cases hg : group x = g
            · subst hg
              simp [flushFrom, hx]
            · simp [flushFrom, hx, hg, Ne.symm hg]

/-- **The loop flushes each batch once, in order.** -/
theorem finish_foldl (hfresh : ∀ g, flush g fresh = []) (d : γ) (xs : List α) :
    finish flush (xs.foldl (step group update flush fresh) ⟨d, fresh, []⟩) =
      (batches group xs).flatMap fun b => flush b.1 (b.2.foldl update fresh) := by
  rw [finish_foldl_from]
  cases batches group xs with
  | nil => simp [flushFrom, hfresh]
  | cons b bs =>
      obtain ⟨g, ys⟩ := b
      by_cases hg : g = d
      · simp [flushFrom, hg]
      · simp [flushFrom, hg, hfresh]

/-! ### On records sorted by group

`R` is the order of the groups.  Records of one group stand together because two
groups cannot follow each other both ways round.
-/

section Sorted

variable {R : γ → γ → Prop}

/-- Each record's group is that of every later one, or comes before it. -/
def Grouped (R : γ → γ → Prop) (group : α → γ) (xs : List α) : Prop :=
  xs.Pairwise fun x y => group x = group y ∨ R (group x) (group y)

theorem batches_head {x : α} {rest : List α} {g : γ} {ys : List α} {bs : List (γ × List α)}
    (hb : batches group (x :: rest) = (g, ys) :: bs) : g = group x := by
  obtain ⟨zs, cs, hc⟩ := batches_cons group x rest
  rw [hc] at hb
  exact (Prod.mk.inj (List.cons.inj hb).1).1.symm

theorem batches_eq_nil {xs : List α} (h : batches group xs = []) : xs = [] := by
  cases xs with
  | nil => rfl
  | cons x rest =>
      obtain ⟨zs, cs, hc⟩ := batches_cons group x rest
      rw [hc] at h
      simp at h

/-- The group of the first record comes before all batches that do not begin with it. -/
private theorem before_batches (htrans : ∀ a b c, R a b → R b c → R a c) {x : α}
    {rest : List α} (h : Grouped R group (x :: rest)) {g : γ} {ys : List α}
    {bs : List (γ × List α)} (hb : batches group rest = (g, ys) :: bs) (hx : group x ≠ g)
    (hs : (batches group rest).Pairwise fun b c => R b.1 c.1) :
    ∀ b ∈ batches group rest, R (group x) b.1 := by
  have hxg : R (group x) g := by
    cases rest with
    | nil => simp [batches] at hb
    | cons y rest' =>
        have hg := batches_head hb
        rcases List.rel_of_pairwise_cons h (by simp : y ∈ y :: rest') with heq | hlt
        · exact absurd (heq.trans hg.symm) hx
        · rw [hg]; exact hlt
  intro b hbm
  rw [hb] at hbm hs
  rcases List.mem_cons.mp hbm with rfl | hbm
  · exact hxg
  · exact htrans _ _ _ hxg (List.rel_of_pairwise_cons hs hbm)

theorem batches_sorted (htrans : ∀ a b c, R a b → R b c → R a c) :
    ∀ {xs : List α}, Grouped R group xs →
      (batches group xs).Pairwise fun b c => R b.1 c.1 := by
  intro xs
  induction xs with
  | nil => intro _; exact List.Pairwise.nil
  | cons x rest ih =>
      intro h
      have hrest := ih h.of_cons
      rw [batches]
      cases hb : batches group rest with
      | nil => exact List.pairwise_singleton _ _
      | cons b bs =>
          obtain ⟨g, ys⟩ := b
          by_cases hg : group x = g
          · rw [hb] at hrest
            simp only [hg, if_true]
            exact List.pairwise_cons.mpr (List.pairwise_cons.mp hrest)
          · simp only [if_neg hg]
            have hbefore := before_batches htrans h hb hg hrest
            rw [hb] at hrest hbefore
            exact List.pairwise_cons.mpr ⟨hbefore, hrest⟩

/-- **The batches of sorted records are the groups.** -/
theorem mem_batches (htrans : ∀ a b c, R a b → R b c → R a c) (hirr : ∀ a, ¬ R a a) :
    ∀ {xs : List α}, Grouped R group xs → ∀ b,
      b ∈ batches group xs ↔
        b.1 ∈ xs.map group ∧ b.2 = xs.filter fun x => group x = b.1 := by
  intro xs
  induction xs with
  | nil => intro _ b; simp [batches]
  | cons x rest ih =>
      intro h b
      have ih := ih h.of_cons
      have hsorted := batches_sorted htrans h.of_cons
      rw [batches]
      cases hb : batches group rest with
      | nil =>
          rw [batches_eq_nil hb]
          simp only [List.mem_singleton, List.map_cons, List.map_nil, List.filter_cons,
            List.filter_nil]
          constructor
          · rintro rfl; simp
          · rintro ⟨h1, h2⟩
            rw [if_pos (by simpa using h1.symm)] at h2
            exact Prod.ext h1 h2
      | cons c bs =>
          obtain ⟨g, ys⟩ := c
          by_cases hg : group x = g
          · -- the first record joins the batch that begins the rest
            simp only [hg, if_true]
            rw [hb] at hsorted ih
            have hys : ys = rest.filter fun x => group x = g := ((ih (g, ys)).mp (by simp)).2
            have hbs : ∀ b ∈ bs, b.1 ≠ g := fun b hbm hc =>
              hirr g (by have := List.rel_of_pairwise_cons hsorted hbm; rwa [hc] at this)
            simp only [List.mem_cons, List.map_cons, hg, List.filter_cons]
            constructor
            · rintro (rfl | hbm)
              · exact ⟨Or.inl rfl, by simp [← hys]⟩
              · obtain ⟨h1, h2⟩ := (ih b).mp (by simp [hbm])
                refine ⟨Or.inr h1, ?_⟩
                rw [if_neg (by simpa using (hbs b hbm).symm)]
                exact h2
            · rintro ⟨h1, h2⟩
              by_cases hbg : b.1 = g
              · refine Or.inl (Prod.ext hbg ?_)
                rw [h2, if_pos (by simpa using hbg.symm), hbg, hys]
              · rw [if_neg (by simpa using Ne.symm hbg)] at h2
                have h1' : b.1 ∈ rest.map group := h1.resolve_left hbg
                rcases List.mem_cons.mp ((ih b).mpr ⟨h1', h2⟩) with hc | hc
                · exact absurd (congrArg Prod.fst hc) hbg
                · exact Or.inr hc
          · simp only [if_neg hg]
            have hbefore := before_batches htrans h hb hg hsorted
            -- no later record has the first one's group
            have hnot : group x ∉ rest.map group := by
              intro hc
              exact hirr _ (hbefore (group x, rest.filter fun y => group y = group x)
                ((ih _).mpr ⟨hc, rfl⟩))
            rw [List.mem_cons, ← hb, ih b, List.map_cons, List.mem_cons, List.filter_cons]
            constructor
            · rintro (rfl | ⟨h1, h2⟩)
              · refine ⟨Or.inl rfl, ?_⟩
                rw [if_pos (by simp), eq_comm, List.cons.injEq, List.filter_eq_nil_iff]
                refine ⟨rfl, fun y hy hc => hnot ?_⟩
                rw [List.mem_map]
                exact ⟨y, hy, by simpa using hc⟩
              · refine ⟨Or.inr h1, ?_⟩
                rw [if_neg, h2]
                intro hc
                exact hnot (by rw [show group x = b.1 by simpa using hc]; exact h1)
            · rintro ⟨h1, h2⟩
              by_cases hbx : group x = b.1
              · refine Or.inl (Prod.ext hbx.symm ?_)
                rw [h2, if_pos (by simpa using hbx), List.cons.injEq, List.filter_eq_nil_iff]
                refine ⟨rfl, fun y hy hc => hnot ?_⟩
                rw [List.mem_map]
                exact ⟨y, hy, by rw [hbx]; simpa using hc⟩
              · rw [if_neg (by simpa using hbx)] at h2
                exact Or.inr ⟨h1.resolve_left (Ne.symm hbx), h2⟩

end Sorted

end BatchScan
