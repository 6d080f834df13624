/-
Handles that have to be given back.

A program acquires handles, uses them and releases them; some must not outlive another,
as a cursor its transaction.  What it does is recorded as a list of events, and `check`
goes through the list with the handles that are held.  It fails at the first event that
the discipline forbids: a use or a release of what is not held, a second acquisition, a
release of what something held still hangs on.  A program is disciplined if nothing
fails and nothing is left.

Programs that record their events are `Traced`, with what they return beside.  The rules
below follow a program step by step: `Leads` says which handles are held after it, and
`Keeps` is the case where they are those from before.
-/
import Mathlib.Control.Monad.Writer
import Mathlib.Tactic

namespace Handles

variable {H α β : Type}

/-! ### Events -/

inductive Event (H : Type) where
  /-- `under` is the handle that must not be released before this one. -/
  | acquire (h : H) (under : Option H)
  | use (h : H)
  | release (h : H)
deriving DecidableEq, Repr

/-- The handles that are held, each with the one it hangs on. -/
abbrev Held (H : Type) := List (H × Option H)

def Held.Has (held : Held H) (h : H) : Prop := ∃ x ∈ held, x.1 = h

instance [DecidableEq H] (held : Held H) (h : H) : Decidable (held.Has h) :=
  inferInstanceAs (Decidable (∃ x ∈ held, x.1 = h))

/-- One event; `none` where it is not allowed. -/
def step [DecidableEq H] (held : Held H) : Event H → Option (Held H)
  | .acquire h under =>
      if held.Has h ∨ ∃ p ∈ under, ¬ held.Has p then none else some ((h, under) :: held)
  | .use h => if held.Has h then some held else none
  | .release h =>
      if held.Has h ∧ ∀ x ∈ held, x.2 ≠ some h then some (held.filter fun x => x.1 ≠ h) else none

/-- Event after event. -/
def check [DecidableEq H] (held : Held H) (es : List (Event H)) : Option (Held H) := es.foldlM step held

/-- Nothing is done that is not allowed, and in the end nothing is held. -/
def Disciplined [DecidableEq H] (es : List (Event H)) : Prop := check [] es = some []

instance [DecidableEq H] (es : List (Event H)) : Decidable (Disciplined es) :=
  inferInstanceAs (Decidable (_ = _))

theorem check_append [DecidableEq H] (held : Held H) (es es' : List (Event H)) :
    check held (es ++ es') = (check held es).bind fun held => check held es' :=
  List.foldlM_append

/-! ### Programs -/

/-- A program that records what it does with its handles. -/
abbrev Traced (H : Type) := Writer (List (Event H))

def Traced.out (x : Traced H α) : α := x.run.1

def Traced.events (x : Traced H α) : List (Event H) := x.run.2

@[simp] theorem out_pure (a : α) : (pure a : Traced H α).out = a := rfl

@[simp] theorem events_pure (a : α) : (pure a : Traced H α).events = [] := rfl

@[simp] theorem out_bind (x : Traced H α) (f : α → Traced H β) : (x >>= f).out = (f x.out).out := rfl

@[simp] theorem events_bind (x : Traced H α) (f : α → Traced H β) :
    (x >>= f).events = x.events ++ (f x.out).events := rfl

@[simp] theorem events_tell (es : List (Event H)) : (tell es : Traced H Unit).events = es := rfl

/-- A program that may give up; what it has done until then is recorded too. -/
abbrev Attempt (H : Type) := OptionT (Traced H)

@[simp] theorem attempt_out_pure (a : α) : (pure a : Attempt H α).run.out = some a := rfl

@[simp] theorem attempt_out_bind (x : Attempt H α) (f : α → Attempt H β) :
    (x >>= f).run.out = x.run.out.bind fun a => (f a).run.out := by
  rw [OptionT.run_bind, Option.elimM, out_bind]
  cases x.run.out with
  | none => rfl
  | some a => rfl

@[simp] theorem attempt_out_lift (x : Traced H α) : (OptionT.lift x).run.out = some x.out := rfl

/-! ### Which handles are held -/

section Rules

variable [DecidableEq H] {held held' held'' : Held H}

/-- A program that may be run with some handles, and leaves some. -/
def Leads (held : Held H) (x : Traced H α) (held' : Held H) : Prop := check held x.events = some held'

theorem leads_pure (held : Held H) (a : α) : Leads held (pure a) held := rfl

theorem Leads.bind {x : Traced H α} {f : α → Traced H β} (hx : Leads held x held')
    (hf : Leads held' (f x.out) held'') : Leads held (x >>= f) held'' := by
  unfold Leads
  rw [events_bind, check_append, hx]
  exact hf

/-- A program that does something that is not allowed. -/
def Breaks (held : Held H) (x : Traced H α) : Prop := check held x.events = none

theorem Leads.breaks {x : Traced H α} {f : α → Traced H β} (hx : Leads held x held')
    (hf : Breaks held' (f x.out)) : Breaks held (x >>= f) := by
  unfold Breaks
  rw [events_bind, check_append, hx]
  exact hf

theorem Breaks.bind {x : Traced H α} {f : α → Traced H β} (hx : Breaks held x) :
    Breaks held (x >>= f) := by
  unfold Breaks
  rw [events_bind, check_append, hx]
  rfl

theorem Breaks.not_disciplined {x : Traced H α} (h : Breaks [] x) : ¬ Disciplined x.events := by
  intro hd
  exact absurd (h.symm.trans hd) (by simp)

/-- A program that leaves the handles that it finds. -/
def Keeps (held : Held H) (x : Traced H α) : Prop := Leads held x held

theorem keeps_pure (held : Held H) (a : α) : Keeps held (pure a) := leads_pure held a

theorem Keeps.bind {x : Traced H α} {f : α → Traced H β} (hx : Keeps held x)
    (hf : ∀ a, Keeps held (f a)) : Keeps held (x >>= f) := Leads.bind hx (hf _)

theorem keeps_use {h : H} (hh : held.Has h) : Keeps held (tell [.use h] : Traced H Unit) := by
  show ([Event.use h].foldlM step held) = _
  simp [step, hh]

/-- What is done with one handle more, between its acquisition and its release. -/
theorem Leads.acquire {h : H} {under : Option H} (hnew : ¬ held.Has h)
    (hunder : ∀ p ∈ under, held.Has p) :
    Leads held (tell [.acquire h under] : Traced H Unit) ((h, under) :: held) := by
  show ([Event.acquire h under].foldlM step held) = _
  have hno : ¬ (held.Has h ∨ ∃ p ∈ under, ¬ held.Has p) := by
    intro hc
    rcases hc with hc | ⟨p, hp, hnot⟩
    · exact hnew hc
    · exact hnot (hunder p hp)
  rw [List.foldlM_cons, step, if_neg hno]
  rfl

theorem Leads.release {h : H} {under : Option H} (hnew : ¬ held.Has h)
    (hfree : ∀ x ∈ held, x.2 ≠ some h) (hself : under ≠ some h) :
    Leads ((h, under) :: held) (tell [.release h] : Traced H Unit) held := by
  show ([Event.release h].foldlM step ((h, under) :: held)) = _
  have hhas : Held.Has ((h, under) :: held) h := ⟨_, List.mem_cons_self, rfl⟩
  have hnone : ∀ x ∈ (h, under) :: held, x.2 ≠ some h := by
    intro x hx
    rcases List.mem_cons.mp hx with rfl | hx
    · exact hself
    · exact hfree x hx
  have hfilter : ((h, under) :: held).filter (fun x => x.1 ≠ h) = held := by
    rw [List.filter_cons_of_neg (by simp)]
    refine List.filter_eq_self.mpr fun x hx => ?_
    simpa using fun hc : x.1 = h => hnew ⟨x, hx, hc⟩
  rw [List.foldlM_cons, step, if_pos ⟨hhas, hnone⟩, hfilter]
  rfl

/-! ### The same for programs that may give up -/

theorem Keeps.attempt {x : Attempt H α} {f : α → Attempt H β} (hx : Keeps held x.run)
    (hf : ∀ a, Keeps held (f a).run) : Keeps held (x >>= f).run := by
  rw [OptionT.run_bind]
  refine Keeps.bind hx fun r => ?_
  cases r with
  | none => exact keeps_pure held none
  | some a => exact hf a

theorem Keeps.lift {x : Traced H α} (hx : Keeps held x) : Keeps held (OptionT.lift x).run :=
  Keeps.bind hx fun a => keeps_pure held (some a)

end Rules

end Handles
