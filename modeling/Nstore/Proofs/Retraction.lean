/-
What a retraction takes away.

A retraction is stored like an assertion, as the last key of its group, and its effect
is found out by the scan.  For an attribute of cardinality many the scan erases the
payload of the retracted value; for any other it has forgotten the whole group by
then, so nothing of it is shown any more, whatever was retracted.  A client that means
to retract one value loses that one only if nothing else was shown of the group, or
nothing with its payload.
-/
import Nstore.Proofs.Latest
import Nstore.Proofs.Tempids

namespace Nstore

open Machine

/-- A key that is no longer shown after a retraction. -/
def Retracts (sha256 : Bytes → Value) (many : List Int) (f : Fact) (x : Entry) : Prop :=
  x.1.e = f.e ∧ x.1.a = f.a ∧ (f.a ∈ many → x.1.v = (encodeFact sha256 f.v).v)

instance (sha256 : Bytes → Value) (many : List Int) (f : Fact) (x : Entry) :
    Decidable (Retracts sha256 many f x) := inferInstanceAs (Decidable (_ ∧ _ ∧ _))

section Retraction

variable {sha256 : Bytes → Value} {q : Oracle} {n : Nat} {tx : Int} {s : Store} {f : Fact}

/-- **What is shown after a retraction.** -/
theorem shown_retraction (h : Adds sha256 n tx s [f]) (hret : f.retract = true) {many : List Int}
    (x : Entry) :
    Shown many s n tx x ↔ Shown many s n (tx - 1) x ∧ ¬ Retracts sha256 many f x := by
  have hnew : factEntry sha256 n f ∈ s := h.last [] f [] rfl (by simp)
  have hgroup := h.inGroup_listed (by simp) hnew
  have ht : (factEntry sha256 n f).1.t = 2 * tx + 1 := by
    show 2 * f.tx + (if f.retract then 1 else 0) = 2 * tx + 1
    rw [(h.facts f (by simp)).1, hret]
    rfl
  have hold : ∀ {e a : Int} {y : Entry}, InGroup s n tx e a y →
      InGroup s n (tx - 1) e a y ∨ y = factEntry sha256 n f := by
    intro e a y hy
    refine (h.inGroup hy).imp id fun hy => ?_
    obtain ⟨g, hg, rfl⟩ := hy
    rw [List.mem_singleton.mp hg]
  constructor
  · intro hx
    have hxold : InGroup s n (tx - 1) x.1.e x.1.a x := by
      refine (hold hx.inGroup).resolve_right fun hc => ?_
      have := hx.even
      rw [hc, ht] at this
      omega
    refine ⟨⟨hxold, hx.even, fun y hy => hx.greatest y hy.mono⟩, fun hr => ?_⟩
    obtain ⟨he, ha, hv⟩ := hr
    -- the retraction is above it
    have hle := hx.greatest _ (by rw [he, ha]; exact hgroup) fun hm => (hv (ha ▸ hm)).symm
    have hxt := hxold.2.2.2.2.2
    rw [CustomKey.tv, CustomKey.tv, ht, ← not_lt, List.cons_lt_cons_iff] at hle
    omega
  · intro h'
    obtain ⟨hx, hr⟩ := h'
    refine ⟨hx.inGroup.mono, hx.even, fun y hy hv => ?_⟩
    rcases hold hy with hy | rfl
    · exact hx.greatest y hy hv
    · obtain ⟨-, -, -, he, ha, -⟩ := hy
      have he : f.e = x.1.e := he
      have ha : f.a = x.1.a := ha
      exact absurd ⟨he.symm, ha.symm, fun hm => (hv (ha ▸ hm)).symm⟩ hr

/-- The keys shown after a retraction, in some order. -/
theorem shownKeys_retraction (h : Adds sha256 n tx s [f]) (hret : f.retract = true)
    (ha : dbInitialId ≤ f.a) :
    (shownKeys q s n tx).Perm ((shownKeys q s n (tx - 1)).filter fun x =>
      ¬ Retracts sha256 (manySet q s n (tx - 1)) f x) := by
  have htx := h.tx_range
  refine (List.perm_ext_iff_of_nodup (shownKeys_nodup h.ok)
    ((shownKeys_nodup h.ok).filter _)).mpr fun x => ?_
  rw [mem_shownKeys_iff h.ok (by omega) (by omega), List.mem_filter,
    mem_shownKeys_iff h.ok (by omega) (by omega), h.manySet_eq (by simpa using ha),
    shown_retraction h hret]
  simp

/--
Nothing but the fact itself is shown of its entity and attribute, or for an attribute of
cardinality many nothing but it with its payload.
-/
def ShownAlone (sha256 : Bytes → Value) (many : List Int) (facts : List Fact) (f : Fact) : Prop :=
  ∀ g ∈ facts, g.e = f.e → g.a = f.a →
    (f.a ∈ many → (encodeFact sha256 g.v).v = (encodeFact sha256 f.v).v) → g.v = f.v

/-- A list of facts without one of them. -/
def without (facts : List Fact) (f : Fact) : List Fact :=
  facts.filter fun g => ¬ (g.e = f.e ∧ g.a = f.a ∧ g.v = f.v)

/-- **A retraction takes away its own fact and no other exactly if that was shown alone.** -/
theorem factsAt_retraction_iff (h : Adds sha256 n tx s [f]) (hret : f.retract = true)
    (ha : dbInitialId ≤ f.a) (hq : q.Faultless) {t t₀ : Int64} (ht : t.toInt = tx)
    (ht₀ : t₀.toInt = tx - 1) :
    (factsAt q s n t).Perm (without (factsAt q s n t₀) f) ↔
      ShownAlone sha256 (manySet q s n (tx - 1)) (factsAt q s n t₀) f := by
  have htx := h.tx_range
  have he := (h.facts f (by simp)).2.1
  have hafter : factsAt q s n t = (shownKeys q s n tx).map factOf := by
    rw [factsAt_eq hq h.inv.toSound h.ns_lt (by omega), ht]
  have hbefore : factsAt q s n t₀ = (shownKeys q s n (tx - 1)).map factOf := by
    rw [factsAt_eq hq h.inv.toSound h.ns_lt (by omega), ht₀]
  have hshown : ∀ {x : Entry}, x ∈ shownKeys q s n (tx - 1) ↔
      Shown (manySet q s n (tx - 1)) s n (tx - 1) x := mem_shownKeys_iff h.ok (by omega) (by omega) _
  have hpay : ∀ x ∈ shownKeys q s n (tx - 1), x.1.e = f.e →
      x.1.v = (encodeFact sha256 (factOf x).v).v := fun x hx hxe =>
    h.payload (hshown.mp hx) (hxe ▸ he)
  have hkeys := shownKeys_retraction h hret ha (q := q)
  rw [hafter, hbefore]
  constructor
  · intro hperm g hg hge hga hgv
    obtain ⟨x, hx, rfl⟩ := List.mem_map.mp hg
    by_contra hne
    -- the fact should still be there, so another key shows it
    have hstays : factOf x ∈ without ((shownKeys q s n (tx - 1)).map factOf) f :=
      List.mem_filter.mpr ⟨hg, by simp [hne]⟩
    obtain ⟨y, hy, hxy⟩ := List.mem_map.mp (hperm.mem_iff.mpr hstays)
    obtain ⟨hy, hnot⟩ := List.mem_filter.mp (hkeys.mem_iff.mp hy)
    have hye : y.1.e = f.e := (congrArg Fact.e hxy).trans hge
    have hya : y.1.a = f.a := (congrArg Fact.a hxy).trans hga
    refine absurd (show Retracts sha256 _ f y from ⟨hye, hya, fun hm => ?_⟩) (by simpa using hnot)
    rw [hpay y hy hye, hxy]
    exact hgv hm
  · intro halone
    have hsame : ∀ x ∈ shownKeys q s n (tx - 1),
        (Retracts sha256 (manySet q s n (tx - 1)) f x ↔
          ((factOf x).e = f.e ∧ (factOf x).a = f.a ∧ (factOf x).v = f.v)) := by
      intro x hx
      constructor
      · intro hr
        obtain ⟨hxe, hxa, hxv⟩ := hr
        refine ⟨hxe, hxa, halone _ (List.mem_map_of_mem hx) hxe hxa fun hm => ?_⟩
        rw [← hpay x hx hxe]
        exact hxv hm
      · intro hr
        obtain ⟨hxe, hxa, hxv⟩ := hr
        refine ⟨hxe, hxa, fun _ => ?_⟩
        rw [hpay x hx hxe, hxv]
    have hfilter : without ((shownKeys q s n (tx - 1)).map factOf) f =
        ((shownKeys q s n (tx - 1)).filter fun x =>
          ¬ Retracts sha256 (manySet q s n (tx - 1)) f x).map factOf := by
      unfold without
      rw [List.filter_map]
      refine congrArg (List.map factOf) (List.filter_congr fun x hx => ?_)
      simp only [Function.comp, decide_eq_decide]
      exact not_congr (hsame x hx).symm
    rw [hfilter]
    exact hkeys.map factOf

end Retraction

end Nstore
