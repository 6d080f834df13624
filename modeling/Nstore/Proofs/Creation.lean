/-
Creating a namespace.

`setup` reports through one boolean that a namespace exists, or that a call of it
failed, and `handle_namespace` does not look at it: the request is acknowledged and
committed in every case.  So a request does what it should, and is acknowledged for
what it did, exactly if the namespace is new and `setup` goes through, or if its
transaction cannot begin or commit.
-/
import Nstore.Proofs.Sound

namespace Nstore

open Machine

/-! ### One request -/

/-- The namespace is there, with its counters and all its base facts. -/
structure Created (n : Nat) (s : Store) : Prop where
  tx : getMeta s n metaTx = some 1
  id : getMeta s n metaId = some dbInitialId
  base : ∀ x ∈ setupWrites n, x ∈ s

/--
What a request for a namespace should come to: it creates the namespace, which was not
there, without a failing call, and is acknowledged; or it is refused and changes nothing.
-/
def CreatesOrRefuses (sha256 : Bytes → Value) (n : Nat) (s : Store) (i : Input) : Prop :=
  (reply sha256 s i = .ackOk ∧ nsExists s n = false ∧ i.1.SetupSucceeds n ∧
    Created n (step sha256 s i)) ∨
  (reply sha256 s i = .ackErr ∧ step sha256 s i = s)

/-- The namespace is new and `setup` goes through, or the transaction does not. -/
def MayCreate (n : Nat) (s : Store) (i : Input) : Prop :=
  (nsExists s n = false ∧ i.1.SetupSucceeds n) ∨ i.1.fails .txnBegin = true ∨
    i.1.fails .commit = true

section Requests

variable {sha256 : Bytes → Value} {s : Store} {n : Nat} {i : Input}

theorem setup_created {o : Oracle} (hs : StoreOk s) (hn : n < 2 ^ 31) (hex : nsExists s n = false)
    (ho : o.SetupSucceeds n) : Created n (setup o s n).2 := by
  have hstore : (setup o s n).2 = OrderedMap.puts customKeyCompare s (setupEntries n) := by
    rw [setup_eq_of_succeeds ho, if_neg (by simp [hex])]
  have hmem : ∀ m : Int × Int, m = (metaTx, 1) ∨ m = (metaId, dbInitialId) →
      (metaKey n m.1, .num m.2) ∈ setupEntries n := by
    intro m hm
    refine List.mem_append_left _ (List.mem_map.mpr ⟨m, List.mem_append_right _ ?_, rfl⟩)
    rcases hm with rfl | rfl <;> simp
  rw [hstore]
  refine ⟨?_, ?_, fun x hx => ?_⟩
  · rcases getMeta_puts_setup hs hn (List.Sublist.refl _) (by decide : (0 : Int) ≤ metaTx ∧ metaTx < 5)
      with ⟨-, hnot⟩ | ⟨v, hv, h⟩
    · exact absurd (hmem (metaTx, 1) (Or.inl rfl)) (hnot 1)
    · have hv : v = 1 := (setupMetas_values hv).1 rfl
      exact hv ▸ h
  · rcases getMeta_puts_setup hs hn (List.Sublist.refl _) (by decide : (0 : Int) ≤ metaId ∧ metaId < 5)
      with ⟨-, hnot⟩ | ⟨v, hv, h⟩
    · exact absurd (hmem (metaId, dbInitialId) (Or.inr rfl)) (hnot dbInitialId)
    · have hv : v = dbInitialId := (setupMetas_values hv).2 rfl
      exact hv ▸ h
  · exact OrderedMap.mem_puts_of_mem agrees_inRange (setupEntries_inRange hn)
      (OrderedMap.eq_of_pairwise_ne (setupEntries_distinct n)) (List.mem_append_right _ hx) hs

private theorem creates_cases (h : i.2.creates n = true) :
    ∃ m : Int64, i.2 = .newNamespace (some (.int64 m)) ∧ toNamespace m.toInt = n := by
  obtain ⟨o, q⟩ := i
  cases q with
  | newNamespace arg =>
      cases arg with
      | none => exact absurd h (by simp [Request.creates])
      | some j =>
          cases j with
          | int64 m => exact ⟨m, rfl, by simpa [Request.creates] using h⟩
          | _ => exact absurd h (by simp [Request.creates])
  | transact ns arg => exact absurd h (by simp [Request.creates])
  | facts ns arg => exact absurd h (by simp [Request.creates])

/-- What a request for a namespace is answered with, and the store after it. -/
theorem serve_creates (h : i.2.creates n = true) : serve sha256 i.1 s i.2 =
    if i.1.fails .txnBegin = true ∨ i.1.fails .commit = true then (.ackErr, s)
    else (.ackOk, (setup i.1 s n).2) := by
  obtain ⟨m, hq, hm⟩ := creates_cases h
  rw [hq, serve, handleNamespace, hm]
  by_cases hb : i.1.fails .txnBegin = true
  · rw [if_pos hb, if_pos (Or.inl hb)]
  · rw [if_neg hb]
    by_cases hc : i.1.fails .commit = true
    · rw [if_pos hc, if_pos (Or.inr hc)]
    · rw [if_neg hc, if_neg (by tauto)]

/-- **When a request for a namespace does what it should.** -/
theorem createsOrRefuses_iff (hs : StoreOk s) (hn : n < 2 ^ 31) (hcreates : i.2.creates n = true) :
    CreatesOrRefuses sha256 n s i ↔ MayCreate n s i := by
  have hserve : serve sha256 i.1 s i.2 = _ := serve_creates hcreates
  unfold CreatesOrRefuses MayCreate step reply
  rw [hserve]
  by_cases hfail : i.1.fails .txnBegin = true ∨ i.1.fails .commit = true
  · rw [if_pos hfail]
    exact iff_of_true (Or.inr ⟨rfl, rfl⟩) (Or.inr hfail)
  · rw [if_neg hfail]
    constructor
    · rintro (⟨-, hex, ho, -⟩ | ⟨h, -⟩)
      · exact Or.inl ⟨hex, ho⟩
      · exact absurd h (by simp)
    · rintro (⟨hex, ho⟩ | h)
      · exact Or.inl ⟨rfl, hex, ho, setup_created hs hn hex ho⟩
      · exact absurd h hfail

end Requests

/-! ### Runs -/

section Runs

variable {sha256 : Bytes → Value} {s : Store} {n : Nat}

/-- The requests for a namespace that are acknowledged. -/
def acknowledged (sha256 : Bytes → Value) (n : Nat) (s : Store) (i : Input) : List Input :=
  if i.2.creates n = true ∧ reply sha256 s i = .ackOk then [i] else []

/-- Once the namespace is there, no request for it is acknowledged; before, one at most is. -/
theorem length_acknowledged (hn : n < 2 ^ 31) : ∀ {is : List Input} {s : Store}, Sound s →
    Along (step sha256) (InputBounded sha256) s is →
    Along (step sha256) (fun s i => i.2.creates n = true → CreatesOrRefuses sha256 n s i) s is →
    (record (step sha256) (acknowledged sha256 n) s is).length ≤
      if nsExists s n = true then 0 else 1 := by
  intro is
  induction is with
  | nil => intro s _ _ _; simp [record]
  | cons i is ih =>
      intro s hr hb hall
      have hrest := ih (sound_step hr hb.1) hb.2 hall.2
      rw [record, List.length_append]
      by_cases hack : i.2.creates n = true ∧ reply sha256 s i = .ackOk
      · -- the request that creates it: from here on there is none
        rcases hall.1 hack.1 with ⟨-, hex, -, hcreated⟩ | ⟨herr, -⟩
        · rw [if_pos (by simp [nsExists, hcreated.tx])] at hrest
          rw [acknowledged, if_pos hack, if_neg (by simp [hex]), List.length_singleton]
          omega
        · rw [herr] at hack
          exact absurd hack.2 (by simp)
      · rw [acknowledged, if_neg hack, List.length_nil]
        by_cases hex : nsExists s n = true
        · rw [if_pos (nsExists_step hr hb.1 hn hex)] at hrest
          rw [if_pos hex]
          omega
        · rw [if_neg hex]
          have : (if nsExists (step sha256 s i) n = true then 0 else 1) ≤ 1 := by split <;> omega
          omega

/--
**Creation is acknowledged exactly once.**  In a run in range, whatever fails in it, every
request for the namespace creates it or is refused, and at most one is acknowledged, if and
only if at each of them the namespace is new and `setup` goes through, or its transaction
does not begin or commit.
-/
theorem run_acknowledged_once {o : Oracle} {is : List Input} (hn : n < 2 ^ 31)
    (his : Along (step sha256) (InputBounded sha256) (dbOpen o []) is) :
    (Along (step sha256) (fun s i => i.2.creates n = true → CreatesOrRefuses sha256 n s i)
        (dbOpen o []) is ∧
      (record (step sha256) (acknowledged sha256 n) (dbOpen o []) is).length ≤ 1) ↔
    Along (step sha256) (fun s i => i.2.creates n = true → MayCreate n s i) (dbOpen o []) is := by
  have hiff := Along.congr Sound (fun s i hr hi => sound_step hr hi)
    (fun s i => i.2.creates n = true → CreatesOrRefuses sha256 n s i)
    (fun s i => i.2.creates n = true → MayCreate n s i)
    (fun s i hr _ => ⟨fun h hc => (createsOrRefuses_iff hr.ok hn hc).mp (h hc),
      fun h hc => (createsOrRefuses_iff hr.ok hn hc).mpr (h hc)⟩) (sound_dbOpen o) his
  constructor
  · exact fun h => hiff.mp h.1
  · intro h
    refine ⟨hiff.mpr h, ?_⟩
    have hle := length_acknowledged hn (sound_dbOpen o) his (hiff.mpr h)
    have : (if nsExists (dbOpen o []) n = true then 0 else 1) ≤ 1 := by split <;> omega
    omega

end Runs

/-- A request that creates a namespace, and one that cannot commit. -/
def creationRun : List Input :=
  [(.calm, .newNamespace (some (.int64 777))),
    (⟨fun c => c = .commit, fun _ _ => 0⟩, .newNamespace (some (.int64 777)))]

theorem creationRun_acknowledged_once :
    (record (step .ofBytes) (acknowledged .ofBytes 777) (dbOpen .calm []) creationRun).length ≤ 1 := by
  have hbounded : ∀ (s : Store) (o : Oracle),
      InputBounded .ofBytes s (o, .newNamespace (some (.int64 777))) := by
    intro s o m hm
    cases hm
    show toNamespace 777 < 2 ^ 31
    decide
  have his : Along (step .ofBytes) (InputBounded .ofBytes) (dbOpen .calm []) creationRun :=
    ⟨hbounded _ _, hbounded _ _, trivial⟩
  have hnew : nsExists (dbOpen .calm []) 777 = false := by decide +kernel
  have hmay : Along (step .ofBytes) (fun s i => i.2.creates 777 = true → MayCreate 777 s i)
      (dbOpen .calm []) creationRun :=
    ⟨fun _ => Or.inl ⟨hnew, Oracle.calm_faultless.setup.succeeds 777⟩,
      fun _ => Or.inr (Or.inr rfl), trivial⟩
  exact ((run_acknowledged_once (by norm_num) his).mpr hmay).2

/-- Asked for twice, a namespace is acknowledged twice. -/
theorem namespace_acknowledged_twice :
    let i : Input := (.calm, .newNamespace (some (.int64 777)))
    let s := step .ofBytes (dbOpen .calm []) i
    (record (step .ofBytes) (acknowledged .ofBytes 777) (dbOpen .calm []) [i, i]).length = 2 ∧
      nsExists s 777 = true ∧ reply .ofBytes s i = .ackOk := by
  decide +kernel

end Nstore
