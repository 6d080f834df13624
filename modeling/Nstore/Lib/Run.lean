/-
Runs of a machine.

A machine takes one input at a time.  A run is the list of its inputs, and
`Along ok` says that every input of the run is one the state it arrives in allows;
the inputs of an interleaving are the choices of the scheduler.

What one step preserves, a whole run preserves: `Along.invariant`.  When the step
only preserves a fact about where the run began, `Along.relation` carries it.

`record` is what an observer notes down along a run.  An invariant of the state and the
record so far is carried by `Along.invariant_record`, a fact about where the run began and
what was noted down since by `Along.relation_record`; `run_concat` and `record_concat` take
the last step off both.

`outputs_eq` is about two runs that have some of their inputs in common: if the
others do not show in a relation between the states, and the common ones keep the
relation and have the same outputs, then the outputs are the same in both.

`run_simulation` is about two machines: where every step of one is matched by some
steps of the other, every run of the one is matched by a run of the other.
-/
import Mathlib.Data.List.Lex
import Mathlib.Tactic

namespace Machine

variable {σ ι : Type} (step : σ → ι → σ) (ok : σ → ι → Prop)

/-- The state a run ends in. -/
def run (s : σ) (is : List ι) : σ := is.foldl step s

/-- Every input of the run is allowed where it arrives. -/
def Along : σ → List ι → Prop
  | _, [] => True
  | s, i :: is => ok s i ∧ Along (step s i) is

variable {step ok}

theorem run_append (s : σ) (is js : List ι) : run step s (is ++ js) = run step (run step s is) js :=
  List.foldl_append

theorem along_append : ∀ {s : σ} {is js : List ι},
    Along step ok s (is ++ js) ↔ Along step ok s is ∧ Along step ok (run step s is) js := by
  intro s is
  induction is generalizing s with
  | nil => intro js; simp [Along, run]
  | cons i is ih =>
      intro js
      simp only [List.cons_append, Along, ih, and_assoc]
      rfl

theorem along_of_forall (h : ∀ s i, ok s i) : ∀ (is : List ι) (s : σ), Along step ok s is := by
  intro is
  induction is with
  | nil => intro s; exact trivial
  | cons i is ih => intro s; exact ⟨h s i, ih (step s i)⟩

theorem along_of_mem {p : ι → Prop} : ∀ {is : List ι}, (∀ i ∈ is, p i) →
    ∀ s : σ, Along step (fun _ i => p i) s is := by
  intro is
  induction is with
  | nil => intro _ s; exact trivial
  | cons i is ih =>
      intro h s
      exact ⟨h i List.mem_cons_self, ih (fun j hj => h j (List.mem_cons_of_mem i hj)) (step s i)⟩

theorem Along.and {p q : σ → ι → Prop} : ∀ {is : List ι} {s : σ}, Along step p s is →
    Along step q s is → Along step (fun s i => p s i ∧ q s i) s is := by
  intro is
  induction is with
  | nil => intro s _ _; exact trivial
  | cons i is ih => intro s hp hq; exact ⟨⟨hp.1, hq.1⟩, ih hp.2 hq.2⟩

/-- **What a step preserves, a run preserves.** -/
theorem Along.invariant (Inv : σ → Prop) (hstep : ∀ s i, Inv s → ok s i → Inv (step s i)) :
    ∀ {is : List ι} {s : σ}, Inv s → Along step ok s is → Inv (run step s is) := by
  intro is
  induction is with
  | nil => intro s hs _; exact hs
  | cons i is ih =>
      intro s hs h
      exact ih (hstep s i hs h.1) h.2

/-- What a good state allows in either way, a run from a good state is allowed in either way. -/
theorem Along.congr (Inv : σ → Prop)
    (hstep : ∀ s i, Inv s → ok s i → Inv (step s i)) (p q : σ → ι → Prop)
    (hpq : ∀ s i, Inv s → ok s i → (p s i ↔ q s i)) :
    ∀ {is : List ι} {s : σ}, Inv s → Along step ok s is → (Along step p s is ↔ Along step q s is) := by
  intro is
  induction is with
  | nil => intro s _ _; exact Iff.rfl
  | cons i is ih =>
      intro s hs h
      exact and_congr (hpq s i hs h.1) (ih (hstep s i hs h.1) h.2)

/-- A preorder that every step from a good state climbs, the run climbs. -/
theorem Along.relation (Inv : σ → Prop) (rel : σ → σ → Prop) (hrefl : ∀ s, rel s s)
    (htrans : ∀ s t u, rel s t → rel t u → rel s u)
    (hinv : ∀ s i, Inv s → ok s i → Inv (step s i))
    (hstep : ∀ s i, Inv s → ok s i → rel s (step s i)) :
    ∀ {is : List ι} {s : σ}, Inv s → Along step ok s is → rel s (run step s is) := by
  intro is
  induction is with
  | nil => intro s _ _; exact hrefl s
  | cons i is ih =>
      intro s hs h
      exact htrans _ _ _ (hstep s i hs h.1) (ih (hinv s i hs h.1) h.2)

/-! The same where every input is allowed. -/

theorem run_invariant (Inv : σ → Prop) (hstep : ∀ s i, Inv s → Inv (step s i)) (is : List ι)
    {s : σ} (hs : Inv s) : Inv (run step s is) := by
  have h : Along step (fun _ _ => True) s is := along_of_forall (fun _ _ => trivial) is s
  exact h.invariant Inv (fun s i hs _ => hstep s i hs) hs

theorem run_relation (Inv : σ → Prop) (rel : σ → σ → Prop) (hrefl : ∀ s, rel s s)
    (htrans : ∀ s t u, rel s t → rel t u → rel s u) (hinv : ∀ s i, Inv s → Inv (step s i))
    (hstep : ∀ s i, Inv s → rel s (step s i)) (is : List ι) {s : σ} (hs : Inv s) :
    rel s (run step s is) := by
  have h : Along step (fun _ _ => True) s is := along_of_forall (fun _ _ => trivial) is s
  exact h.relation Inv rel hrefl htrans (fun s i hs _ => hinv s i hs)
    (fun s i hs _ => hstep s i hs) hs

/-! ### Records -/

section Record

variable {ρ : Type}

/-- What is noted down along a run, input by input. -/
def record (step : σ → ι → σ) (obs : σ → ι → List ρ) : σ → List ι → List ρ
  | _, [] => []
  | s, i :: is => obs s i ++ record step obs (step s i) is

variable {obs : σ → ι → List ρ}

theorem run_concat (s : σ) (is : List ι) (i : ι) : run step s (is ++ [i]) = step (run step s is) i :=
  run_append s is [i]

theorem record_append : ∀ (is js : List ι) (s : σ),
    record step obs s (is ++ js) = record step obs s is ++ record step obs (run step s is) js := by
  intro is
  induction is with
  | nil => intro js s; rfl
  | cons i is ih =>
      intro js s
      rw [List.cons_append, record, record, ih, List.append_assoc]
      rfl

theorem record_concat (is : List ι) (s : σ) (i : ι) :
    record step obs s (is ++ [i]) = record step obs s is ++ obs (run step s is) i := by
  rw [record_append, record, record, List.append_nil]

theorem record_eq_nil : ∀ {is : List ι}, (∀ i ∈ is, ∀ s, obs s i = []) →
    ∀ s : σ, record step obs s is = [] := by
  intro is
  induction is with
  | nil => intro _ s; rfl
  | cons i is ih =>
      intro h s
      rw [record, h i List.mem_cons_self s, List.nil_append]
      exact ih (fun j hj => h j (List.mem_cons_of_mem i hj)) (step s i)

/-- An invariant may speak of what has been noted down so far. -/
theorem Along.invariant_record (Inv : List ρ → σ → Prop)
    (hstep : ∀ l s i, Inv l s → ok s i → Inv (l ++ obs s i) (step s i)) :
    ∀ {is : List ι} {l : List ρ} {s : σ}, Inv l s → Along step ok s is →
      Inv (l ++ record step obs s is) (run step s is) := by
  intro is
  induction is with
  | nil =>
      intro l s hs _
      rw [record, List.append_nil]
      exact hs
  | cons i is ih =>
      intro l s hs h
      rw [record, ← List.append_assoc]
      exact ih (hstep l s i hs h.1) h.2

theorem run_invariant_record (Inv : List ρ → σ → Prop)
    (hstep : ∀ l s i, Inv l s → Inv (l ++ obs s i) (step s i)) (is : List ι) {l : List ρ} {s : σ}
    (hs : Inv l s) : Inv (l ++ record step obs s is) (run step s is) := by
  have h : Along step (fun _ _ => True) s is := along_of_forall (fun _ _ => trivial) is s
  exact h.invariant_record Inv (fun l s i hs _ => hstep l s i hs) hs

/-- And so may a preorder, of what is noted down in between. -/
theorem Along.relation_record (Inv : σ → Prop) (rel : List ρ → σ → σ → Prop)
    (hrefl : ∀ s, rel [] s s)
    (htrans : ∀ l l' s t u, rel l s t → rel l' t u → rel (l ++ l') s u)
    (hinv : ∀ s i, Inv s → ok s i → Inv (step s i))
    (hstep : ∀ s i, Inv s → ok s i → rel (obs s i) s (step s i)) :
    ∀ {is : List ι} {s : σ}, Inv s → Along step ok s is →
      rel (record step obs s is) s (run step s is) := by
  intro is
  induction is with
  | nil => intro s _ _; exact hrefl s
  | cons i is ih =>
      intro s hs h
      exact htrans _ _ _ _ _ (hstep s i hs h.1) (ih (hinv s i hs h.1) h.2)

theorem run_relation_record (Inv : σ → Prop) (rel : List ρ → σ → σ → Prop)
    (hrefl : ∀ s, rel [] s s)
    (htrans : ∀ l l' s t u, rel l s t → rel l' t u → rel (l ++ l') s u)
    (hinv : ∀ s i, Inv s → Inv (step s i)) (hstep : ∀ s i, Inv s → rel (obs s i) s (step s i))
    (is : List ι) {s : σ} (hs : Inv s) : rel (record step obs s is) s (run step s is) := by
  have h : Along step (fun _ _ => True) s is := along_of_forall (fun _ _ => trivial) is s
  exact h.relation_record Inv rel hrefl htrans (fun s i hs _ => hinv s i hs)
    (fun s i hs _ => hstep s i hs) hs

end Record

/-! ### Two runs -/

section Unwinding

variable {κ ρ : Type}

/-- The outputs of the inputs of one kind. -/
def outputs (step : σ → ι → σ) (out : σ → ι → ρ) (own : ι → Bool) : σ → List ι → List ρ
  | _, [] => []
  | s, i :: is =>
      if own i then out s i :: outputs step out own (step s i) is
      else outputs step out own (step s i) is

variable {out : σ → ι → ρ} {own : ι → Bool}

theorem outputs_of_foreign : ∀ {is : List ι} {s : σ}, is.filter own = [] →
    outputs step out own s is = [] := by
  intro is
  induction is with
  | nil => intro s _; rfl
  | cons i is ih =>
      intro s hown
      have hi : own i = false := by
        by_contra hc
        simp [hc] at hown
      rw [outputs, hi, if_neg (by simp)]
      exact ih (by simpa [hi] using hown)

/-- **Two runs with the same inputs of one kind have the same outputs of it.** -/
theorem outputs_eq (label : ι → κ) (rel : σ → σ → Prop) (hsymm : ∀ s t, rel s t → rel t s)
    (hskip : ∀ s t i, rel s t → ok s i → own i = false → rel (step s i) t)
    (hmatch : ∀ s t i j, rel s t → ok s i → ok t j → own i = true → own j = true →
      label i = label j → out s i = out t j ∧ rel (step s i) (step t j)) :
    ∀ {is js : List ι} {s t : σ}, rel s t → Along step ok s is → Along step ok t js →
      (is.filter own).map label = (js.filter own).map label →
      outputs step out own s is = outputs step out own t js := by
  intro is
  induction is with
  | nil =>
      intro js s t h _ hjs hlabel
      have hnil : js.filter own = [] := by simpa using hlabel.symm
      rw [outputs_of_foreign hnil]
      rfl
  | cons i is ih =>
      intro js
      induction js with
      | nil =>
          intro s t h his _ hlabel
          have hnil : (i :: is).filter own = [] := by simpa using hlabel
          rw [outputs_of_foreign hnil]
          rfl
      | cons j js ihj =>
          intro s t h his hjs hlabel
          -- drop what is foreign in front on either side, else both fronts match
          cases hi : own i with
          | false =>
              rw [outputs, hi, if_neg (by simp)]
              exact ih (hskip s t i h his.1 hi) his.2 hjs (by simpa [hi] using hlabel)
          | true =>
              cases hj : own j with
              | false =>
                  have hrest := ihj (hsymm _ _ (hskip t s j (hsymm s t h) hjs.1 hj)) his hjs.2
                    (by simpa [hj] using hlabel)
                  rw [hrest]
                  conv_rhs => rw [outputs, hj, if_neg (by simp)]
              | true =>
                  simp only [List.filter_cons, hi, hj, if_true, List.map_cons, List.cons.injEq]
                    at hlabel
                  obtain ⟨hout, hrel⟩ := hmatch s t i j h his.1 hjs.1 hi hj hlabel.1
                  rw [outputs, outputs, hi, hj, if_pos rfl, if_pos rfl, hout,
                    ih hrel his.2 hjs.2 hlabel.2]

end Unwinding

/-! ### Two machines -/

section Simulation

variable {τ κ : Type} {astep : τ → κ → τ} {acts : σ → ι → List κ}

/-- **A machine that is matched step by step is matched run by run.** -/
theorem run_simulation (rel : σ → τ → Prop)
    (hstep : ∀ s t i, rel s t → rel (step s i) (run astep t (acts s i))) :
    ∀ (is : List ι) {s : σ} {t : τ}, rel s t →
      rel (run step s is) (run astep t (record step acts s is)) := by
  intro is
  induction is with
  | nil => intro s t hrel; exact hrel
  | cons i is ih =>
      intro s t hrel
      rw [record, run_append]
      exact ih (hstep s t i hrel)

end Simulation

end Machine
