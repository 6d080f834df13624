/-
Replicas fed by the replies.

A client that holds the facts as of one transaction can bring them up to date from the
reply to the next: it enters the listed facts one after the other, each overwriting
what its entity and attribute held, or for an attribute of cardinality many what had
its value.  The store does not go by the order of the list.  Of the assertions of one
transaction it shows the greatest key of a group, or of every payload.  So the two
agree exactly if in every group of cardinality one the last fact listed is the
greatest, and in the others no two values share a payload.
-/
import Nstore.Proofs.Latest
import Nstore.Proofs.Query
import Nstore.Proofs.Tempids

namespace Nstore

open FirstSeen Machine Overwrite

/-! ### The replica -/

/-- A listed fact replaces another in a replica. -/
def Supersedes (many : List Int) (f g : Fact) : Prop :=
  g.e = f.e ∧ g.a = f.a ∧ (f.a ∈ many → g.v = f.v)

instance (many : List Int) (f g : Fact) : Decidable (Supersedes many f g) :=
  inferInstanceAs (Decidable (_ ∧ _ ∧ _))

/-- A replica after the facts of a reply, in the order they are listed. -/
def updateReplica (many : List Int) (replica facts : List Fact) : List Fact :=
  enterAll (Supersedes many) replica facts

/-- When the listed facts say what the store shows. -/
structure InKeyOrder (sha256 : Bytes → Value) (n : Nat) (many : List Int) (before fs : List Fact) :
    Prop where
  /-- Of one value, the last listed is the greatest. -/
  one : ∀ l f r, fs = l ++ f :: r → f.a ∉ many → (∀ g ∈ r, ¬ (g.e = f.e ∧ g.a = f.a)) →
    ∀ g ∈ l, g.e = f.e → g.a = f.a →
      customKeyCompare (factEntry sha256 n g).1 (factEntry sha256 n f).1 ≤ 0
  /-- Of many values, those with one payload are the same. -/
  many : ∀ f ∈ fs, f.a ∈ many → ∀ g ∈ fs ++ before, g.e = f.e → g.a = f.a →
    (encodeFact sha256 g.v).v = (encodeFact sha256 f.v).v → g.v = f.v

/-! ### What is shown after a transaction of assertions -/

/-- A fact is compared with what has a group and a payload. -/
def Rivals (sha256 : Bytes → Value) (many : List Int) (f : Fact) (e a : Int) (v : Value) : Prop :=
  f.e = e ∧ f.a = a ∧ (a ∈ many → (encodeFact sha256 f.v).v = v)

section Assertions

variable {sha256 : Bytes → Value} {q : Oracle} {n : Nat} {tx : Int} {s : Store} {fs : List Fact}
  {many : List Int} {f g : Fact} {x : Entry}

/-- For every listed fact there is a stored one with its key. -/
theorem Adds.stored_listed (h : Adds sha256 n tx s fs) (hf : f ∈ fs) :
    ∃ g ∈ fs, factEntry sha256 n g ∈ s ∧ g.e = f.e ∧ g.a = f.a ∧
      (factEntry sha256 n g).1.tv = (factEntry sha256 n f).1.tv ∧
      (encodeFact sha256 g.v).v = (encodeFact sha256 f.v).v := by
  obtain ⟨x, hxs, hc⟩ := h.stored f hf
  obtain ⟨htx, he, hok⟩ := h.facts f hf
  have hfd := factEntry_isDatom (n := n) hok
  have hxd := isDatom_of_coords_eq (h.ok.keys x hxs) hfd hc
  obtain ⟨hn, hsort, hxe, hxa, htv⟩ := (coords_eq_datom hxd hfd).mp hc
  have ht : x.1.t / 2 = tx := by
    have hxt : x.1.t = 2 * f.tx + (if f.retract then 1 else 0) := (List.cons.inj htv).1
    rw [hxt, htx]
    split <;> omega
  have hv : x.1.v = (encodeFact sha256 f.v).v :=
    (h.inv.written x hxs hxd (by rw [hxe]; exact he)).v_eq hok rfl rfl htv
  obtain ⟨g, hg, rfl⟩ := h.listed x hxs hxd hn hsort ht
  exact ⟨g, hg, hxs, hxe, hxa, htv, hv⟩

theorem factEntry_t (hret : f.retract = false) : (factEntry sha256 n f).1.t = 2 * f.tx := by
  show 2 * f.tx + (if f.retract then 1 else 0) = 2 * f.tx
  simp [hret]

/-- A key of the transaction is beyond the older ones. -/
theorem tv_lt_of_older (h : Adds sha256 n tx s fs) (hf : f ∈ fs) (hret : f.retract = false)
    (hx : InGroup s n (tx - 1) x.1.e x.1.a x) : x.1.tv < (factEntry sha256 n f).1.tv := by
  obtain ⟨-, -, -, -, -, ht⟩ := hx
  rw [CustomKey.tv, CustomKey.tv, factEntry_t hret, (h.facts f hf).1, List.cons_lt_cons_iff]
  omega

/-- An older key stays shown if no listed fact rivals it. -/
theorem shown_older (h : Adds sha256 n tx s fs) (hret : ∀ f ∈ fs, f.retract = false)
    (hx : InGroup s n (tx - 1) x.1.e x.1.a x) :
    Shown many s n tx x ↔ Shown many s n (tx - 1) x ∧
      ∀ f ∈ fs, ¬ Rivals sha256 many f x.1.e x.1.a x.1.v := by
  constructor
  · intro hshown
    refine ⟨⟨hx, hshown.even, fun y hy => hshown.greatest y hy.mono⟩, fun f hf hriv => ?_⟩
    obtain ⟨he, ha, hv⟩ := hriv
    obtain ⟨g, hg, hgs, hge, hga, -, hgv⟩ := h.stored_listed hf
    have hgroup := h.inGroup_listed hg hgs
    rw [hge, hga, he, ha] at hgroup
    have hle := hshown.greatest _ hgroup fun hm => hgv.trans (hv hm)
    exact absurd (tv_lt_of_older h hg (hret g hg) hx) (not_lt.mpr hle)
  · intro h'
    obtain ⟨hshown, hno⟩ := h'
    refine ⟨hx.mono, hshown.even, fun y hy hv => ?_⟩
    rcases h.inGroup hy with hy | ⟨f, hf, rfl⟩
    · exact hshown.greatest y hy hv
    · obtain ⟨-, -, -, he, ha, -⟩ := hy
      exact absurd ⟨he, ha, hv⟩ (hno f hf)

/-- A key of the transaction is shown if it is the greatest of its rivals. -/
theorem shown_listed (h : Adds sha256 n tx s fs) (hret : ∀ f ∈ fs, f.retract = false) (hf : f ∈ fs)
    (hfs : factEntry sha256 n f ∈ s) :
    Shown many s n tx (factEntry sha256 n f) ↔
      ∀ g ∈ fs, Rivals sha256 many g f.e f.a (encodeFact sha256 f.v).v →
        (factEntry sha256 n g).1.tv ≤ (factEntry sha256 n f).1.tv := by
  constructor
  · intro hshown g hg hriv
    obtain ⟨he, ha, hv⟩ := hriv
    obtain ⟨g', hg', hgs, hge, hga, htv, hgv⟩ := h.stored_listed hg
    have hgroup := h.inGroup_listed hg' hgs
    rw [hge, hga, he, ha] at hgroup
    rw [← htv]
    exact hshown.greatest _ hgroup fun hm => hgv.trans (hv hm)
  · intro hmax
    refine ⟨h.inGroup_listed hf hfs, ?_, fun y hy hv => ?_⟩
    · rw [factEntry_t (hret f hf)]
      omega
    · rcases h.inGroup hy with hold | ⟨g, hg, rfl⟩
      · obtain ⟨hys, hyn, hsort, he, ha, ht⟩ := hold
        exact le_of_lt (tv_lt_of_older h hf (hret f hf) ⟨hys, hyn, hsort, rfl, rfl, ht⟩)
      · obtain ⟨-, -, -, he, ha, -⟩ := hy
        exact hmax g hg ⟨he, ha, hv⟩

/-- **The facts as of a transaction of assertions.** -/
theorem mem_factsAt_assertions (h : Adds sha256 n tx s fs)
    (hfs : ∀ f ∈ fs, f.retract = false ∧ dbInitialId ≤ f.a) (hq : q.Faultless) {t t₀ : Int64}
    (ht : t.toInt = tx) (ht₀ : t₀.toInt = tx - 1) :
    f ∈ factsAt q s n t ↔
      (f ∈ factsAt q s n t₀ ∧ ∀ g ∈ fs,
        ¬ Rivals sha256 (manySet q s n (tx - 1)) g f.e f.a (encodeFact sha256 f.v).v) ∨
      (f ∈ fs ∧ factEntry sha256 n f ∈ s ∧ ∀ g ∈ fs,
        Rivals sha256 (manySet q s n (tx - 1)) g f.e f.a (encodeFact sha256 f.v).v →
          (factEntry sha256 n g).1.tv ≤ (factEntry sha256 n f).1.tv) := by
  have htx := h.tx_range
  have hret : ∀ f ∈ fs, f.retract = false := fun f hf => (hfs f hf).1
  rw [mem_factsAt hq h.inv.toSound h.ns_lt (by omega) (by omega),
    mem_factsAt hq h.inv.toSound h.ns_lt (by omega) (by omega), ht, ht₀,
    h.manySet_eq fun f hf => (hfs f hf).2]
  -- a rival of an older fact is one of its key
  have hriv : ∀ {x : Entry}, Shown (manySet q s n (tx - 1)) s n (tx - 1) x → ∀ g ∈ fs,
      (Rivals sha256 (manySet q s n (tx - 1)) g (factOf x).e (factOf x).a
          (encodeFact sha256 (factOf x).v).v ↔
        Rivals sha256 (manySet q s n (tx - 1)) g x.1.e x.1.a x.1.v) := by
    intro x hx g hg
    refine and_congr_right fun he => ?_
    have he : g.e = x.1.e := he
    rw [h.payload hx (he ▸ (h.facts g hg).2.1)]
    rfl
  constructor
  · intro hf
    obtain ⟨x, hx, rfl⟩ := hf
    rcases h.inGroup hx.inGroup with hold | ⟨g, hg, rfl⟩
    · obtain ⟨hx₀, hno⟩ := (shown_older h hret hold).mp hx
      exact Or.inl ⟨⟨x, hx₀, rfl⟩, fun g hg hc => hno g hg ((hriv hx₀ g hg).mp hc)⟩
    · have hgs := hx.inGroup.1
      rw [h.factOf_entry hg (hret g hg)]
      exact Or.inr ⟨hg, hgs, (shown_listed h hret hg hgs).mp hx⟩
  · intro hf
    rcases hf with ⟨⟨x, hx, rfl⟩, hno⟩ | ⟨hf, hs, hmax⟩
    · refine ⟨x, (shown_older h hret hx.inGroup).mpr ⟨hx, fun g hg hc => ?_⟩, rfl⟩
      exact hno g hg ((hriv hx g hg).mpr hc)
    · exact ⟨_, (shown_listed h hret hf hs).mpr hmax, h.factOf_entry hf (hret f hf)⟩

/-- A listed assertion is told by its entity, attribute and value. -/
theorem Adds.listed_ext (h : Adds sha256 n tx s fs) (hret : ∀ f ∈ fs, f.retract = false) (hf : f ∈ fs)
    (hg : g ∈ fs) (he : g.e = f.e) (ha : g.a = f.a) (hv : g.v = f.v) : g = f := by
  have htx : g.tx = f.tx := (h.facts g hg).1.trans (h.facts f hf).1.symm
  have hr : g.retract = f.retract := (hret g hg).trans (hret f hf).symm
  obtain ⟨e, a, v, tx, retract⟩ := f
  obtain ⟨e', a', v', tx', retract'⟩ := g
  simp only at he ha hv htx hr
  rw [he, ha, hv, htx, hr]

/-- A stored one also by its key. -/
theorem Adds.stored_ext (h : Adds sha256 n tx s fs) (hret : ∀ f ∈ fs, f.retract = false) (hf : f ∈ fs)
    (hg : g ∈ fs) (hfs : factEntry sha256 n f ∈ s) (hgs : factEntry sha256 n g ∈ s) (he : g.e = f.e)
    (ha : g.a = f.a) (htv : (factEntry sha256 n g).1.tv = (factEntry sha256 n f).1.tv) : g = f := by
  have hc : (factEntry sha256 n g).1.coords = (factEntry sha256 n f).1.coords :=
    (coords_eq_datom (factEntry_isDatom (h.facts g hg).2.2)
      (factEntry_isDatom (h.facts f hf).2.2)).mpr ⟨rfl, rfl, he, ha, htv⟩
  have hentry := h.ok.unique hgs hfs hc
  rw [← h.factOf_entry hg (hret g hg), ← h.factOf_entry hf (hret f hf), hentry]

/-- In one group the comparator goes by time and value. -/
theorem Adds.compare_le (h : Adds sha256 n tx s fs) (hf : f ∈ fs) (hg : g ∈ fs) (he : g.e = f.e)
    (ha : g.a = f.a) :
    customKeyCompare (factEntry sha256 n g).1 (factEntry sha256 n f).1 ≤ 0 ↔
      (factEntry sha256 n g).1.tv ≤ (factEntry sha256 n f).1.tv := by
  rw [compare_le_iff (h.inRange g hg) (h.inRange f hf),
    coords_le_EATV (factEntry_isDatom (h.facts g hg).2.2) (factEntry_isDatom (h.facts f hf).2.2)
      rfl rfl rfl he ha]

end Assertions

/-! ### When the two agree -/

section Agreement

variable {sha256 : Bytes → Value} {q : Oracle} {n : Nat} {tx : Int} {s : Store}
  {fs before : List Fact} {many : List Int} {f g : Fact}

theorem supersedes_self (many : List Int) (f : Fact) : Supersedes many f f := ⟨rfl, rfl, fun _ => rfl⟩

theorem mem_updateReplica :
    f ∈ updateReplica many before fs ↔
      (∃ l r, fs = l ++ f :: r ∧ ∀ g ∈ r, ¬ Supersedes many g f) ∨
        (f ∈ before ∧ ∀ g ∈ fs, ¬ Supersedes many g f) := mem_enterAll

/-- A fact that replaces another rivals it. -/
theorem Supersedes.rivals (h : Supersedes many g f) :
    Rivals sha256 many g f.e f.a (encodeFact sha256 f.v).v := by
  obtain ⟨he, ha, hv⟩ := h
  refine ⟨he.symm, ha.symm, fun hm => ?_⟩
  rw [hv (ha ▸ hm)]

/-- Where no two values share a payload, it is the other way too. -/
theorem InKeyOrder.supersedes (h : InKeyOrder sha256 n many before fs) (hg : g ∈ fs)
    (hf : f ∈ fs ++ before) (hriv : Rivals sha256 many g f.e f.a (encodeFact sha256 f.v).v) :
    Supersedes many g f := by
  obtain ⟨he, ha, hv⟩ := hriv
  refine ⟨he.symm, ha.symm, fun hm => ?_⟩
  exact h.many g hg hm f hf he.symm ha.symm (hv (ha ▸ hm)).symm

/-- The last listed of what replaces a fact of cardinality many is that fact. -/
theorem Adds.last_many (h : Adds sha256 n tx s fs) (hret : ∀ f ∈ fs, f.retract = false) (hf : f ∈ fs)
    (hm : f.a ∈ many) : ∃ l r, fs = l ++ f :: r ∧ ∀ g ∈ r, ¬ Supersedes many g f := by
  obtain ⟨l, g, r, hsplit, ⟨he, ha, hv⟩, hr⟩ :=
    exists_last (p := fun g => Supersedes many g f) ⟨f, hf, supersedes_self many f⟩
  have hgf : g = f := h.listed_ext hret hf (by rw [hsplit]; simp) he.symm ha.symm
    (hv (ha ▸ hm)).symm
  subst hgf
  exact ⟨l, r, hsplit, hr⟩

/-- What is shown of a transaction in key order is what the replica ends with. -/
theorem InKeyOrder.shown_iff (hk : InKeyOrder sha256 n many before fs) (h : Adds sha256 n tx s fs)
    (hret : ∀ f ∈ fs, f.retract = false) :
    (f ∈ fs ∧ factEntry sha256 n f ∈ s ∧ ∀ g ∈ fs,
        Rivals sha256 many g f.e f.a (encodeFact sha256 f.v).v →
          (factEntry sha256 n g).1.tv ≤ (factEntry sha256 n f).1.tv) ↔
      ∃ l r, fs = l ++ f :: r ∧ ∀ g ∈ r, ¬ Supersedes many g f := by
  by_cases hm : f.a ∈ many
  · constructor
    · intro hf
      exact h.last_many hret hf.1 hm
    · intro hf
      obtain ⟨l, r, hsplit, -⟩ := hf
      have hf : f ∈ fs := by rw [hsplit]; simp
      -- whatever rivals the fact is the fact
      have hone : ∀ g ∈ fs, Rivals sha256 many g f.e f.a (encodeFact sha256 f.v).v → g = f := by
        intro g hg hriv
        obtain ⟨he, ha, hv⟩ := hk.supersedes hg (by simp [hf]) hriv
        exact h.listed_ext hret hf hg he.symm ha.symm (hv (ha ▸ hm)).symm
      obtain ⟨g, hg, hgs, hge, hga, -, hgv⟩ := h.stored_listed hf
      rw [hone g hg ⟨hge, hga, fun _ => hgv⟩] at hgs
      refine ⟨hf, hgs, fun g hg hriv => ?_⟩
      rw [hone g hg hriv]
  · have hgroup : ∀ {g : Fact}, (g.e = f.e ∧ g.a = f.a) →
        Rivals sha256 many g f.e f.a (encodeFact sha256 f.v).v := fun hg =>
      ⟨hg.1, hg.2, fun hc => absurd hc hm⟩
    constructor
    · intro hf
      obtain ⟨hf, hfs, hmax⟩ := hf
      obtain ⟨l, g, r, hsplit, ⟨hge, hga⟩, hr⟩ :=
        exists_last (p := fun g : Fact => g.e = f.e ∧ g.a = f.a) ⟨f, hf, rfl, rfl⟩
      have hg : g ∈ fs := by rw [hsplit]; simp
      have hlast : ∀ g' ∈ r, ¬ (g'.e = g.e ∧ g'.a = g.a) := by
        intro g' hg' hc
        exact hr g' hg' ⟨hc.1.trans hge, hc.2.trans hga⟩
      have hgf : g = f := by
        have hmem := hf
        rw [hsplit, List.mem_append, List.mem_cons] at hmem
        rcases hmem with hl | hfg | hc
        · -- the last one is not below the fact, so it has its key
          have hle := (h.compare_le hg hf hge.symm hga.symm).mp
            (hk.one l g r hsplit (hga ▸ hm) hlast f hl hge.symm hga.symm)
          exact h.stored_ext hret hf hg hfs (h.last l g r hsplit hlast) hge hga
            (le_antisymm (hmax g hg (hgroup ⟨hge, hga⟩)) hle)
        · exact hfg.symm
        · exact absurd ⟨rfl, rfl⟩ (hr f hc)
      subst hgf
      exact ⟨l, r, hsplit, fun g' hg' hc => hlast g' hg' ⟨hc.1.symm, hc.2.1.symm⟩⟩
    · intro hf
      obtain ⟨l, r, hsplit, hr⟩ := hf
      have hf : f ∈ fs := by rw [hsplit]; simp
      have hlast : ∀ g ∈ r, ¬ (g.e = f.e ∧ g.a = f.a) := by
        intro g hg hc
        exact hr g hg ⟨hc.1.symm, hc.2.symm, fun hgm => absurd (hc.2 ▸ hgm) hm⟩
      refine ⟨hf, h.last l f r hsplit hlast, fun g hg hriv => ?_⟩
      obtain ⟨he, ha, -⟩ := hriv
      have hmem := hg
      rw [hsplit, List.mem_append, List.mem_cons] at hmem
      rcases hmem with hl | rfl | hc
      · exact (h.compare_le hf hg he ha).mp (hk.one l f r hsplit hm hlast g hl he ha)
      · exact le_refl _
      · exact absurd ⟨he, ha⟩ (hlast g hc)

/-- **A replica is brought up to date exactly if the list is in key order.** -/
theorem factsAt_replica_iff (h : Adds sha256 n tx s fs)
    (hfs : ∀ f ∈ fs, f.retract = false ∧ dbInitialId ≤ f.a) (hq : q.Faultless) {t t₀ : Int64}
    (ht : t.toInt = tx) (ht₀ : t₀.toInt = tx - 1) :
    (factsAt q s n t).Perm (updateReplica (manySet q s n (tx - 1)) (factsAt q s n t₀) fs) ↔
      InKeyOrder sha256 n (manySet q s n (tx - 1)) (factsAt q s n t₀) fs := by
  have htx := h.tx_range
  have hret : ∀ f ∈ fs, f.retract = false := fun f hf => (hfs f hf).1
  have hmem := fun f : Fact => mem_factsAt_assertions (f := f) h hfs hq ht ht₀
  generalize hmany : manySet q s n (tx - 1) = many at *
  constructor
  · intro hperm
    -- a listed fact that the replica ends with is the greatest of its rivals
    have hkept : ∀ {l r : List Fact} {f : Fact}, fs = l ++ f :: r →
        (∀ g ∈ r, ¬ Supersedes many g f) → factEntry sha256 n f ∈ s ∧ ∀ g ∈ fs,
          Rivals sha256 many g f.e f.a (encodeFact sha256 f.v).v →
            (factEntry sha256 n g).1.tv ≤ (factEntry sha256 n f).1.tv := by
      intro l r f hsplit hr
      have hf : f ∈ fs := by rw [hsplit]; simp
      rcases (hmem _).mp (hperm.mem_iff.mpr (mem_updateReplica.mpr (Or.inl ⟨l, r, hsplit, hr⟩))) with
        ⟨-, hno⟩ | ⟨-, hstored⟩
      · exact absurd (supersedes_self many f).rivals (hno f hf)
      · exact hstored
    have hone : ∀ f ∈ fs, f.a ∈ many → ∀ g ∈ fs, g.e = f.e → g.a = f.a →
        (encodeFact sha256 g.v).v = (encodeFact sha256 f.v).v → g.v = f.v := by
      intro f hf hm g hg he ha hv
      obtain ⟨l, r, hsplit, hr⟩ := h.last_many hret hf hm
      obtain ⟨l', r', hsplit', hr'⟩ := h.last_many hret hg (ha ▸ hm)
      obtain ⟨hfs, hfmax⟩ := hkept hsplit hr
      obtain ⟨hgs, hgmax⟩ := hkept hsplit' hr'
      have htv := le_antisymm (hfmax g hg ⟨he, ha, fun _ => hv⟩)
        (hgmax f hf ⟨he.symm, ha.symm, fun _ => hv.symm⟩)
      rw [h.stored_ext hret hf hg hfs hgs he ha htv]
    refine ⟨fun l f r hsplit hm hlast g hg he ha => ?_, fun f hf hm g hg he ha hv => ?_⟩
    · have hf : f ∈ fs := by rw [hsplit]; simp
      have hgfs : g ∈ fs := by rw [hsplit]; simp [hg]
      refine (h.compare_le hf hgfs he ha).mpr ?_
      refine (hkept hsplit fun g hg hc => hlast g hg ⟨hc.1.symm, hc.2.1.symm⟩).2 g hgfs ⟨he, ha, ?_⟩
      exact fun hc => absurd hc hm
    · rcases List.mem_append.mp hg with hg | hg
      · exact hone f hf hm g hg he ha hv
      · by_cases hsup : ∃ g' ∈ fs, Supersedes many g' g
        · obtain ⟨g', hg', he', ha', hv'⟩ := hsup
          have hgv : g.v = g'.v := hv' (by rw [← ha', ha]; exact hm)
          rw [hgv]
          exact hone f hf hm g' hg' (he'.symm.trans he) (ha'.symm.trans ha) (by rw [← hgv]; exact hv)
        · push Not at hsup
          rcases (hmem _).mp (hperm.mem_iff.mpr (mem_updateReplica.mpr (Or.inr ⟨hg, hsup⟩))) with
            ⟨-, hno⟩ | ⟨hg, -⟩
          · exact absurd ⟨he.symm, ha.symm, fun _ => hv.symm⟩ (hno f hf)
          · exact hone f hf hm g hg he ha hv
  · intro hk
    refine (List.perm_ext_iff_of_nodup (factsAt_nodup hq h.inv h.ns_lt (by omega) (by omega))
      (nodup_enterAll (supersedes_self many)
        (factsAt_nodup hq h.inv h.ns_lt (by omega) (by omega)))).mpr fun f => ?_
    rw [hmem, hk.shown_iff h hret, or_comm]
    refine Iff.trans ?_ mem_updateReplica.symm
    refine or_congr_right (and_congr_right fun hf => ?_)
    constructor
    · intro hno g hg hc
      exact hno g hg hc.rivals
    · intro hno g hg hc
      exact hno g hg (hk.supersedes hg (by simp [hf]) hc)

/-! ### Runs -/

/-- The facts a request asks for, with its tempids resolved. -/
def requestFacts (sha256 : Bytes → Value) (o : Oracle) (s : Store) (n : Nat) (tx id : Int)
    (vs : List Json) : List Fact :=
  (vs.filterMap (Json.mapped sha256 (refSet o s n tx)
    (number id (tempidsOf (refSet o s n tx) vs)))).map (Write.fact tx)

theorem response_facts {i : Input} {id : Int} {vs : List Json} {newIds : List (Int × Int)}
    (hreq : i.2 = .transact n (some (.array vs))) (hid : getMeta s n metaId = some id)
    (hrep : reply sha256 s i = .response tx fs newIds) :
    fs = requestFacts sha256 i.1 s n tx id vs := by
  obtain ⟨vs', harg, htr⟩ := response_transact hreq hrep
  simp only [Option.some.injEq, Json.array.injEq] at harg
  subst harg
  exact (transact_tempids hid htr).facts_eq

end Agreement

/-- A request that asserts two values of one entity and attribute. -/
def assertTwice (e a v w : Int64) : Input :=
  (.calm, .transact 0 (some (.array [.array [.int64 e, .int64 a, .int64 v, .int64 0],
    .array [.int64 e, .int64 a, .int64 w, .int64 0]])))

end Nstore
