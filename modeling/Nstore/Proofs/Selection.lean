/-
Which arguments select a namespace.

The argument of `handle_namespace` and `handle_select` is a 64-bit integer, and the
namespace a 32-bit one.  A select is acknowledged if the namespace left of its argument
was left of that of an earlier request, or is the one the database starts with; so the
arguments that are congruent modulo 2^32 all name one namespace.

Here the requests of any number of sessions are handled one after the other, as the
service handles them; `run_clients` says that every run of the server is one of these.
-/
import Nstore.Proofs.Service
import Nstore.Proofs.Creation
import Nstore.Proofs.Frame

namespace Nstore

open Machine

/-- The database, and what its sessions have selected. -/
structure Clients where
  store : Store
  /-- The namespace a session has selected. -/
  ns : Nat → Nat
  /-- History, read by no step: the last argument of each session that was acknowledged. -/
  chosen : Nat → Int64

namespace Clients

/-- A database that was opened, and sessions that have selected nothing. -/
def init (o : Oracle) : Clients :=
  { store := dbOpen o [], ns := fun _ => 0, chosen := fun _ => 0 }

/-- The last argument that was acknowledged, after a request. -/
def choose (o : Oracle) (s : Store) (chosen : Int64) : ClientRequest → Int64
  | .select (some (.int64 m)) => if (handleSelect o s (some (.int64 m))).isSome then m else chosen
  | _ => chosen

/-- The request of one session. -/
def step (sha256 : Bytes → Value) (σ : Clients) : Nat × Oracle × ClientRequest → Clients
  | (k, o, ask) =>
      let (_, store, n) := ask.answer sha256 o σ.store (σ.ns k)
      { store := store
        ns := fun i => if i = k then n else σ.ns i
        chosen := fun i => if i = k then choose o σ.store (σ.chosen k) ask else σ.chosen i }

/-- Requests for a namespace in which no call fails, and transactions in range. -/
def Allows (sha256 : Bytes → Value) (σ : Clients) (e : Nat × Oracle × ClientRequest) : Prop :=
  match e with
  | (_, o, .newNamespace (some (.int64 m))) => o.Faultless ∧ NsInRange (toNamespace m.toInt)
  | (k, o, .transact arg) => InputBounded sha256 σ.store (o, .transact (σ.ns k) arg)
  | _ => True

/-- The namespace a request asks for. -/
def asked : ClientRequest → List Int64
  | .newNamespace (some (.int64 m)) => [m]
  | _ => []

/-- The arguments of the requests for a namespace. -/
def requested (es : List (Nat × Oracle × ClientRequest)) : List Int64 :=
  es.flatMap fun e => asked e.2.2

/-- A select is acknowledged. -/
def acknowledges (q : Oracle) (s : Store) (m : Int64) : Bool :=
  (handleSelect q s (some (.int64 m))).isSome

/--
No fact belongs to both sessions, and nothing the one writes changes what is stored for
the other or reported to it.
-/
structure Apart (sha256 : Bytes → Value) (σ : Clients) (k k' : Nat) : Prop where
  shared : ∀ x ∈ σ.store, x.1.IsDatom → x.1.ns = σ.ns k → x.1.ns ≠ σ.ns k'
  written : ∀ o arg, InputBounded sha256 σ.store (o, .transact (σ.ns k) arg) →
    ∀ x : Entry, x.1.ns = σ.ns k' →
      (x ∈ (σ.step sha256 (k, o, .transact arg)).store ↔ x ∈ σ.store)
  reported : ∀ o arg, InputBounded sha256 σ.store (o, .transact (σ.ns k) arg) →
    ∀ q arg', handleFacts q (σ.step sha256 (k, o, .transact arg)).store (σ.ns k') arg' =
      handleFacts q σ.store (σ.ns k') arg'

end Clients

/-! ### Which namespaces exist -/

section Exists

variable {sha256 : Bytes → Value} {s : Store} {n : Nat}

theorem toNamespace_eq_iff (m m' : Int) :
    toNamespace m = toNamespace m' ↔ m % 2 ^ 32 = m' % 2 ^ 32 := by
  unfold toNamespace
  omega

theorem handleSelect_eq_some {q : Oracle} {m : Int64} {ns : Nat} :
    handleSelect q s (some (.int64 m)) = some ns ↔
      q.fails .txnRenew = false ∧ ns = toNamespace m.toInt ∧ nsExists s ns = true := by
  unfold handleSelect
  by_cases hq : q.fails .txnRenew = true
  · simp [hq]
  · rw [Bool.not_eq_true] at hq
    by_cases hex : nsExists s (toNamespace m.toInt) = true
    · simp only [hq, hex, Bool.false_eq_true, if_false, if_true, Option.some.injEq, true_and]
      constructor
      · intro h
        exact ⟨h.symm, h ▸ hex⟩
      · intro h
        exact h.1.symm
    · simp only [hq, hex, Bool.false_eq_true, if_false, true_and]
      constructor
      · intro h
        exact absurd h (by simp)
      · intro h
        exact absurd (h.1 ▸ h.2) hex

/-- No key is found under a namespace that no key has. -/
theorem nsExists_lt (hs : StoreOk s) (hn : n < 2 ^ 32) (hex : nsExists s n = true) : n < 2 ^ 31 := by
  unfold nsExists getMeta at hex
  rw [Option.isSome_map] at hex
  obtain ⟨d, hget⟩ := Option.isSome_iff_exists.mp hex
  obtain ⟨x, hfind, -⟩ := Option.map_eq_some_iff.mp hget
  have hcmp := List.find?_some hfind
  have hlt := (hs.keys x (List.mem_of_find?_eq_some hfind)).ns_lt
  by_contra hge
  have hne : ((n : Int) - x.1.ns) % 2 ^ 32 ≠ 0 := by omega
  have hcut : toInt32 (((n : Int) - x.1.ns) % 2 ^ 32) ≠ 0 := by
    obtain ⟨_, _, q, _⟩ := toInt32_cases (((n : Int) - x.1.ns) % 2 ^ 32)
    omega
  have heq : customKeyCompare (metaKey n metaTx) x.1 = toInt32 (((n : Int) - x.1.ns) % 2 ^ 32) :=
    if_pos hne
  rw [beq_iff_eq, heq] at hcmp
  exact hcut hcmp

theorem step_newNamespace {o : Oracle} (ho : o.Faultless) (m : Int64) :
    step sha256 s (o, .newNamespace (some (.int64 m))) = (setup o s (toNamespace m.toInt)).2 := by
  simp only [step, serve, handleNamespace, ho _, Bool.false_eq_true, if_false]

/-- A request for a namespace adds that one. -/
theorem nsExists_newNamespace (hr : Sound s) {o : Oracle} (ho : o.Faultless) {m : Int64}
    (hm : toNamespace m.toInt < 2 ^ 31) (hn : n < 2 ^ 32) :
    nsExists (step sha256 s (o, .newNamespace (some (.int64 m)))) n = true ↔
      nsExists s n = true ∨ toNamespace m.toInt = n := by
  have hi : InputBounded sha256 s (o, .newNamespace (some (.int64 m))) := by
    intro m' hm'
    cases hm'
    exact hm
  have hr' := sound_step hr hi
  by_cases heq : toNamespace m.toInt = n
  · refine iff_of_true ?_ (Or.inr heq)
    rw [step_newNamespace ho, ← heq]
    by_cases hex : nsExists s (toNamespace m.toInt) = true
    · rw [setup_eq ho.setup, if_pos hex]
      exact hex
    · rw [Bool.not_eq_true] at hex
      rw [nsExists, (setup_created hr.ok hm hex (ho.setup.succeeds _)).tx]
      rfl
  · rw [or_iff_left heq]
    by_cases hlt : n < 2 ^ 31
    · have hon : (Request.newNamespace (some (.int64 m))).on n = false := by
        simp [Request.on, Request.creates, heq]
      rw [nsExists, nsExists, getMeta_step_foreign hr hi hon hlt (by decide)]
    · exact iff_of_false (fun h => hlt (nsExists_lt hr'.ok hn h))
        fun h => hlt (nsExists_lt hr.ok hn h)

/-- With it come its base facts. -/
theorem Created.exists_base (h : Created n s) :
    ∃ x ∈ s, x.1.ns = n ∧ x.1.IsDatom ∧ x.1.sort = sortEATV := by
  obtain ⟨x, hx, hd, hsort⟩ := setupWrites_eatv n
  obtain ⟨y, -, rfl⟩ := mem_setupWrites.mp hx
  exact ⟨_, h.base _ hx, rfl, hd, hsort⟩

private theorem exists_base_newNamespace (hr : Sound s) {o : Oracle} (ho : o.Faultless) {m : Int64}
    (hm : toNamespace m.toInt = n) (hn : n < 2 ^ 31) (hex : nsExists s n = false) :
    ∃ x ∈ step sha256 s (o, .newNamespace (some (.int64 m))),
      x.1.ns = n ∧ x.1.IsDatom ∧ x.1.sort = sortEATV := by
  rw [step_newNamespace ho, hm]
  exact (setup_created hr.ok hn hex (ho.setup.succeeds _)).exists_base

/-- A transaction adds none. -/
theorem nsExists_transact (hr : Sound s) {o : Oracle} {ns : Nat} {arg : Option Json}
    (hi : InputBounded sha256 s (o, .transact ns arg)) (hn : n < 2 ^ 32) :
    nsExists (step sha256 s (o, .transact ns arg)) n = true ↔ nsExists s n = true := by
  have hr' := sound_step hr hi
  by_cases hlt : n < 2 ^ 31
  · refine ⟨fun h => ?_, nsExists_step hr hi hlt⟩
    rcases sound_step_cases hr hi with ⟨heq, -⟩ | ⟨m, -, hon, -, -, hno⟩ | ⟨m, tx, fs, st, hc⟩
    · rw [heq] at h
      exact h
    · -- only a commit changes the store
      rcases handleTransact_cases sha256 o s ns arg with heq | ⟨fs, p, rfl, -, htr, heq⟩
      · have hsame : step sha256 s (o, .transact ns arg) = s := congrArg Prod.snd heq
        rw [hsame] at h
        exact h
      · obtain ⟨tx, id, st, -, -, -, -, hrep⟩ := transact_cases htr
        have hcommit := hno ns
        simp only [isCommit, reply, serve, heq, hrep, decide_true] at hcommit
        exact absurd hcommit (by simp)
    · by_cases hne : n = m
      · rw [hne, nsExists, hc.transacted.exists_before]
        rfl
      · rw [nsExists, hc.transacted.getMeta_foreign hr.ok hlt hne (by decide)] at h
        exact h
  · exact iff_of_false (fun h => hlt (nsExists_lt hr'.ok hn h))
      fun h => hlt (nsExists_lt hr.ok hn h)

end Exists

/-! ### Runs -/

namespace Clients

variable {sha256 : Bytes → Value} {σ : Clients} {ms : List Int64}

/-- A request that leaves what its session has selected. -/
theorem step_of_same {k : Nat} {o : Oracle} {ask : ClientRequest}
    (hns : (ask.answer sha256 o σ.store (σ.ns k)).2.2 = σ.ns k)
    (hchosen : choose o σ.store (σ.chosen k) ask = σ.chosen k) :
    σ.step sha256 (k, o, ask) =
      { σ with store := (ask.answer sha256 o σ.store (σ.ns k)).2.1 } := by
  have hpoint {α : Type} (f : Nat → α) : (fun i => if i = k then f k else f i) = f := by
    funext i
    split
    · rename_i h
      rw [h]
    · rfl
  simp only [Clients.step, hns, hchosen, hpoint]

/-- A request that is refused for its argument, or asks for nothing of this, changes nothing. -/
theorem step_of_idle {k : Nat} {o : Oracle} {ask : ClientRequest}
    (h : (ask.answer sha256 o σ.store (σ.ns k)).2 = (σ.store, σ.ns k))
    (hch : choose o σ.store (σ.chosen k) ask = σ.chosen k) : σ.step sha256 (k, o, ask) = σ := by
  rw [step_of_same (congrArg Prod.snd h) hch, congrArg Prod.fst h]

/-- What holds after the namespaces `ms` were requested. -/
structure After (ms : List Int64) (σ : Clients) : Prop where
  sound : Sound σ.store
  exists_iff : ∀ n < 2 ^ 32, nsExists σ.store n = true ↔ ∃ m ∈ 0 :: ms, toNamespace m.toInt = n
  based : ∀ n < 2 ^ 31, nsExists σ.store n = true →
    ∃ x ∈ σ.store, x.1.ns = n ∧ x.1.IsDatom ∧ x.1.sort = sortEATV
  selected : ∀ k, σ.ns k = toNamespace (σ.chosen k).toInt
  chosen : ∀ k, ∃ m ∈ 0 :: ms, toNamespace m.toInt = σ.ns k

/-- A store that changes as a step does keeps the base facts of the namespaces there were. -/
theorem After.based_step (h : After ms σ) {i : Input} (hi : InputBounded sha256 σ.store i) {n : Nat}
    (hn : n < 2 ^ 31) (hold : nsExists σ.store n = true) :
    ∃ x ∈ Nstore.step sha256 σ.store i, x.1.ns = n ∧ x.1.IsDatom ∧ x.1.sort = sortEATV := by
  obtain ⟨x, hx, hxn, hd, hsort⟩ := h.based n hn hold
  exact ⟨x, mem_step_of_datom h.sound hi hx hd, hxn, hd, hsort⟩

theorem After.newNamespace (h : After ms σ) {k : Nat} {o : Oracle} (ho : o.Faultless) {m : Int64}
    (hm : NsInRange (toNamespace m.toInt)) :
    After (ms ++ [m]) (σ.step sha256 (k, o, .newNamespace (some (.int64 m)))) := by
  have hi : InputBounded sha256 σ.store (o, .newNamespace (some (.int64 m))) := by
    intro m' hm'
    cases hm'
    exact hm
  have hstep : σ.step sha256 (k, o, .newNamespace (some (.int64 m))) =
      { σ with store := Nstore.step sha256 σ.store (o, .newNamespace (some (.int64 m))) } :=
    step_of_same rfl rfl
  rw [hstep]
  refine ⟨sound_step h.sound hi, fun n hn => ?_, fun n hn hex => ?_, h.selected, fun i => ?_⟩
  · rw [nsExists_newNamespace h.sound ho hm hn, h.exists_iff n hn]
    simp only [List.mem_cons, List.mem_append, List.not_mem_nil, or_false]
    constructor
    · intro hex
      rcases hex with ⟨m', hm' | hm', heq⟩ | heq
      · exact ⟨m', Or.inl hm', heq⟩
      · exact ⟨m', Or.inr (Or.inl hm'), heq⟩
      · exact ⟨m, Or.inr (Or.inr rfl), heq⟩
    · intro hex
      obtain ⟨m', hm' | hm' | hm', heq⟩ := hex
      · exact Or.inl ⟨m', Or.inl hm', heq⟩
      · exact Or.inl ⟨m', Or.inr hm', heq⟩
      · exact Or.inr (hm' ▸ heq)
  · by_cases hold : nsExists σ.store n = true
    · exact h.based_step hi hn hold
    · have heq := ((nsExists_newNamespace h.sound ho hm (by omega)).mp hex).resolve_left hold
      rw [Bool.not_eq_true] at hold
      exact exists_base_newNamespace h.sound ho heq hn hold
  · obtain ⟨m', hm', heq⟩ := h.chosen i
    exact ⟨m', List.mem_append_left [m] hm', heq⟩

theorem After.select (h : After ms σ) {k : Nat} {o : Oracle} (m : Int64) :
    After ms (σ.step sha256 (k, o, .select (some (.int64 m)))) := by
  cases hsel : handleSelect o σ.store (some (.int64 m)) with
  | none =>
      have hanswer : (ClientRequest.answer sha256 o σ.store (σ.ns k)
          (.select (some (.int64 m)))).2 = (σ.store, σ.ns k) := by
        simp only [ClientRequest.answer, hsel]
      have hchosen : choose o σ.store (σ.chosen k) (.select (some (.int64 m))) = σ.chosen k := by
        simp [choose, hsel]
      rw [step_of_idle hanswer hchosen]
      exact h
  | some ns =>
      obtain ⟨-, hns, hex⟩ := handleSelect_eq_some.mp hsel
      have hstep : σ.step sha256 (k, o, .select (some (.int64 m))) =
          { σ with
            ns := fun i => if i = k then ns else σ.ns i,
            chosen := fun i => if i = k then m else σ.chosen i } := by
        simp [Clients.step, ClientRequest.answer, choose, hsel]
      rw [hstep]
      refine ⟨h.sound, h.exists_iff, h.based, fun i => ?_, fun i => ?_⟩
      · by_cases hi : i = k
        · simp only [if_pos hi]
          exact hns
        · simp only [if_neg hi]
          exact h.selected i
      · by_cases hi : i = k
        · simp only [if_pos hi]
          exact (h.exists_iff ns (hns ▸ toNamespace_lt m.toInt)).mp hex
        · simp only [if_neg hi]
          exact h.chosen i

theorem After.transact (h : After ms σ) {k : Nat} {o : Oracle} {arg : Option Json}
    (hi : InputBounded sha256 σ.store (o, .transact (σ.ns k) arg)) :
    After ms (σ.step sha256 (k, o, .transact arg)) := by
  have hstep : σ.step sha256 (k, o, .transact arg) =
      { σ with store := Nstore.step sha256 σ.store (o, .transact (σ.ns k) arg) } :=
    step_of_same rfl rfl
  rw [hstep]
  refine ⟨sound_step h.sound hi, fun n hn => ?_, fun n hn hex => ?_, h.selected, h.chosen⟩
  · rw [← h.exists_iff n hn]
    exact nsExists_transact h.sound hi hn
  · exact h.based_step hi hn ((nsExists_transact h.sound hi (by omega)).mp hex)

theorem After.step {e : Nat × Oracle × ClientRequest} (h : After ms σ) (he : Allows sha256 σ e) :
    After (ms ++ asked e.2.2) (σ.step sha256 e) := by
  obtain ⟨k, o, ask⟩ := e
  have hidle (hask : asked ask = []) (hsame : σ.step sha256 (k, o, ask) = σ) :
      After (ms ++ asked ask) (σ.step sha256 (k, o, ask)) := by
    rw [hask, List.append_nil, hsame]
    exact h
  cases ask with
  | newNamespace arg =>
      cases arg with
      | none => exact hidle rfl (step_of_idle rfl rfl)
      | some j =>
          cases j with
          | int64 m => exact h.newNamespace he.1 he.2
          | _ => exact hidle rfl (step_of_idle rfl rfl)
  | select arg =>
      cases arg with
      | none => exact hidle rfl (step_of_idle rfl rfl)
      | some j =>
          cases j with
          | int64 m =>
              show After (ms ++ []) _
              rw [List.append_nil]
              exact h.select m
          | _ => exact hidle rfl (step_of_idle rfl rfl)
  | transact arg =>
      show After (ms ++ []) _
      rw [List.append_nil]
      exact h.transact he
  | ping arg => exact hidle rfl (step_of_idle rfl rfl)
  | facts arg => exact hidle rfl (step_of_idle rfl rfl)
  | unknown => exact hidle rfl (step_of_idle rfl rfl)

theorem After.run : ∀ {es : List (Nat × Oracle × ClientRequest)} {σ : Clients} {ms : List Int64},
    After ms σ → Along (Clients.step sha256) (Allows sha256) σ es →
    After (ms ++ requested es) (Machine.run (Clients.step sha256) σ es) := by
  intro es
  induction es with
  | nil =>
      intro σ ms h _
      show After (ms ++ []) σ
      rw [List.append_nil]
      exact h
  | cons e es ih =>
      intro σ ms h hes
      rw [requested, List.flatMap_cons, ← List.append_assoc]
      exact ih (h.step hes.1) hes.2

theorem after_init {o : Oracle} (ho : o.SetupFaultless) : After [] (init o) := by
  have hcreated : Created 0 (dbOpen o []) :=
    setup_created sound_nil.ok (by norm_num) rfl (ho.succeeds 0)
  have hexists : ∀ n < 2 ^ 32, nsExists (dbOpen o []) n = true ↔ n = 0 := by
    intro n hn
    by_cases h0 : n = 0
    · refine iff_of_true ?_ h0
      rw [h0, nsExists, hcreated.tx]
      rfl
    · refine iff_of_false (fun hex => ?_) h0
      have hlt := nsExists_lt (sound_dbOpen o).ok hn hex
      have hpart : PartlySetUp 0 [] (dbOpen o []) := by
        rcases setup_cases_partly (o := o) sound_nil.ok (by norm_num : 0 < 2 ^ 31)
          with ⟨hex, -⟩ | ⟨-, h⟩
        · exact absurd hex (by decide)
        · exact h
      rw [nsExists, hpart.getMeta_foreign sound_nil.ok hlt h0 (by decide)] at hex
      exact absurd hex (by simp [getMeta, mdbGet, OrderedMap.find?])
  refine ⟨sound_dbOpen o, fun n hn => ?_, fun n hn hex => ?_, fun _ => rfl,
    fun _ => ⟨0, List.mem_cons_self, rfl⟩⟩
  · have hzero : toNamespace (0 : Int64).toInt = 0 := rfl
    simp only [List.mem_singleton, exists_eq_left, hzero]
    rw [eq_comm (a := 0)]
    exact hexists n hn
  · rw [(hexists n (by omega)).mp hex]
    exact hcreated.exists_base

private theorem acknowledges_iff {q : Oracle} (hq : q.fails .txnRenew = false) (h : After ms σ)
    (m : Int64) :
    acknowledges q σ.store m = true ↔ ∃ m' ∈ 0 :: ms, m'.toInt % 2 ^ 32 = m.toInt % 2 ^ 32 := by
  have hex : acknowledges q σ.store m = true ↔ nsExists σ.store (toNamespace m.toInt) = true := by
    unfold acknowledges
    rw [Option.isSome_iff_exists]
    constructor
    · intro hs
      obtain ⟨ns, hs⟩ := hs
      obtain ⟨-, hns, hex⟩ := handleSelect_eq_some.mp hs
      exact hns ▸ hex
    · intro hex
      exact ⟨_, handleSelect_eq_some.mpr ⟨hq, rfl, hex⟩⟩
  rw [hex, h.exists_iff _ (toNamespace_lt _)]
  simp only [toNamespace_eq_iff]

/-- Sessions with different namespaces are apart, and others are not. -/
theorem apart_iff (h : After ms σ) (k k' : Nat) :
    Apart sha256 σ k k' ↔ (σ.chosen k).toInt % 2 ^ 32 ≠ (σ.chosen k').toInt % 2 ^ 32 := by
  rw [ne_eq, ← toNamespace_eq_iff, ← h.selected, ← h.selected]
  have hex : ∀ i, nsExists σ.store (σ.ns i) = true ∧ σ.ns i < 2 ^ 31 := by
    intro i
    have hlt : σ.ns i < 2 ^ 32 := h.selected i ▸ toNamespace_lt _
    have hex := (h.exists_iff _ hlt).mpr (h.chosen i)
    exact ⟨hex, nsExists_lt h.sound.ok hlt hex⟩
  constructor
  · intro hapart heq
    -- the base facts of the namespace belong to both
    obtain ⟨x, hx, hxn, hd, -⟩ := h.based _ (hex k).2 (hex k).1
    exact hapart.shared x hx hd hxn (hxn.trans heq)
  · intro hne
    have hon : ∀ arg, (Request.transact (σ.ns k) arg).on
        (σ.ns k') = false := by
      intro arg
      simp [Request.on, hne]
    refine ⟨fun x _ _ hx hx' => hne (hx.symm.trans hx'), fun o arg hi x hx => ?_,
      fun o arg hi q arg' => ?_⟩
    · exact mem_step_foreign h.sound hi (hon arg) x hx
    · obtain ⟨x, hx, hxn, -, hsort⟩ := h.based _ (hex k').2 (hex k').1
      exact (handleFacts_step_foreign h.sound hi (hon arg) (hex k').2 q arg').2 ⟨x, hx, hxn, hsort⟩

/--
**Which arguments select, and whom they keep apart.**  After any requests in range of any
sessions, a select of `m` is acknowledged as it should be, for 0 and the requested arguments
only, if and only if `m` is one of these or is not congruent to any of them modulo 2^32; and
two sessions that have selected different arguments are kept apart if and only if these are
not congruent modulo 2^32.
-/
theorem run_selection {o q : Oracle} (ho : o.SetupFaultless) (hq : q.fails .txnRenew = false)
    {es : List (Nat × Oracle × ClientRequest)}
    (hes : Along (Clients.step sha256) (Allows sha256) (init o) es) :
    (∀ m : Int64,
      ((acknowledges q (Machine.run (Clients.step sha256) (init o) es).store m = true ↔
          m = 0 ∨ m ∈ requested es) ↔
        (m = 0 ∨ m ∈ requested es ∨
          ∀ m' ∈ 0 :: requested es, m'.toInt % 2 ^ 32 ≠ m.toInt % 2 ^ 32))) ∧
    ∀ k k' : Nat,
      (Machine.run (Clients.step sha256) (init o) es).chosen k ≠
        (Machine.run (Clients.step sha256) (init o) es).chosen k' →
      (Apart sha256 (Machine.run (Clients.step sha256) (init o) es) k k' ↔
        ((Machine.run (Clients.step sha256) (init o) es).chosen k).toInt % 2 ^ 32 ≠
          ((Machine.run (Clients.step sha256) (init o) es).chosen k').toInt % 2 ^ 32) := by
  have hafter : After (requested es) (Machine.run (Clients.step sha256) (init o) es) :=
    (after_init ho).run hes
  refine ⟨fun m => ?_, fun k k' _ => apart_iff hafter k k'⟩
  rw [acknowledges_iff hq hafter]
  by_cases hm : m = 0 ∨ m ∈ requested es
  · have hmem : m ∈ 0 :: requested es := by
      rcases hm with rfl | hm
      · exact List.mem_cons_self
      · exact List.mem_cons_of_mem _ hm
    refine iff_of_true (iff_of_true ⟨m, hmem, rfl⟩ hm) ?_
    rcases hm with hm | hm
    · exact Or.inl hm
    · exact Or.inr (Or.inl hm)
  · push Not at hm
    constructor
    · intro h
      refine Or.inr (Or.inr fun m' hm' heq => ?_)
      rcases h.mp ⟨m', hm', heq⟩ with hc | hc
      · exact hm.1 hc
      · exact hm.2 hc
    · intro h
      rcases h with hc | hc | hnone
      · exact absurd hc hm.1
      · exact absurd hc hm.2
      · refine iff_of_false (fun hex => ?_) (fun hc => hc.elim hm.1 hm.2)
        obtain ⟨m', hm', heq⟩ := hex
        exact hnone m' hm' heq

/-- A namespace is requested and selected. -/
def selectionRun : List (Nat × Oracle × ClientRequest) :=
  [(0, .calm, .newNamespace (some (.int64 5))), (0, .calm, .select (some (.int64 5)))]

/-- An argument congruent to none that was requested is refused, as it should be. -/
theorem selectionRun_selection :
    acknowledges .calm (Machine.run (Clients.step .ofBytes) (init .calm) selectionRun).store 6 = true ↔
      (6 : Int64) = 0 ∨ 6 ∈ requested selectionRun := by
  have hes : Along (Clients.step .ofBytes) (Allows .ofBytes) (init .calm) selectionRun :=
    ⟨⟨Oracle.calm_faultless, by show 5 < 2 ^ 31; norm_num⟩, trivial, trivial⟩
  have hlaw := (run_selection Oracle.calm_faultless.setup (Oracle.calm_faultless .txnRenew) hes).1
  have hnone : ∀ m' ∈ 0 :: requested selectionRun,
      m'.toInt % 2 ^ 32 ≠ (6 : Int64).toInt % 2 ^ 32 := by
    intro m' hm'
    rcases List.mem_cons.mp hm' with rfl | hm'
    · show (0 : Int) % 2 ^ 32 ≠ 6 % 2 ^ 32
      norm_num
    · rw [List.mem_singleton.mp hm']
      show (5 : Int) % 2 ^ 32 ≠ 6 % 2 ^ 32
      norm_num
  exact (hlaw 6).mpr (Or.inr (Or.inr hnone))

/-- A second session selects 2^32 + 5, which was never requested. -/
def aliasRun : List (Nat × Oracle × ClientRequest) :=
  selectionRun ++ [(1, .calm, .select (some (.int64 4294967301)))]

def aliasState : Clients := Machine.run (Clients.step .ofBytes) (init .calm) aliasRun

/-- It is acknowledged, and the two sessions share their facts. -/
theorem selected_alias :
    ¬ (acknowledges .calm aliasState.store 4294967301 = true ↔
      (4294967301 : Int64) = 0 ∨ 4294967301 ∈ requested aliasRun) ∧
    aliasState.chosen 0 ≠ aliasState.chosen 1 ∧ ¬ Apart .ofBytes aliasState 0 1 := by
  -- one evaluation of the run for all that is read off it
  have hstate : acknowledges .calm aliasState.store 4294967301 = true ∧
      aliasState.chosen 0 ≠ aliasState.chosen 1 ∧
      ∃ x ∈ aliasState.store, x.1.IsDatom ∧
        x.1.ns = aliasState.ns 0 ∧ x.1.ns = aliasState.ns 1 := by
    decide +kernel
  obtain ⟨hack, hchosen, hshared⟩ := hstate
  refine ⟨fun h => absurd (h.mp hack) (by decide), hchosen, fun hapart => ?_⟩
  obtain ⟨x, hx, hd, h0, h1⟩ := hshared
  exact hapart.shared x hx hd h0 h1

/-! ### The clients of the server -/

/-- The request that a step of the service answers. -/
def served (S : Service) : Service.Input → List (Nat × Oracle × ClientRequest)
  | .arrives _ _ => []
  | .serves s o => (S.backlog s).head?.toList.map fun ask => (s, o, ask)

/-- The service answers its requests as they are handled here. -/
theorem run_served (sha256 : Bytes → Value) (o : Oracle) (is : List Service.Input) :
    let S := Machine.run (Service.step sha256) (.init (dbOpen o [])) is
    let κ := Machine.run (Clients.step sha256) (init o)
      (record (Service.step sha256) served (.init (dbOpen o [])) is)
    κ.store = S.store ∧ κ.ns = S.ns := by
  refine run_simulation (fun (S : Service) (κ : Clients) => κ.store = S.store ∧ κ.ns = S.ns)
    (fun S κ i h => ?_) is ⟨rfl, rfl⟩
  obtain ⟨hstore, hns⟩ := h
  cases i with
  | arrives s ask => exact ⟨hstore, hns⟩
  | serves s o =>
      cases hq : S.backlog s with
      | nil =>
          simp only [served, hq, Service.step, Service.serve]
          exact ⟨hstore, hns⟩
      | cons ask rest =>
          rw [Service.step, Service.serve_cons hq, ← hstore, ← hns]
          simp only [served, hq]
          exact ⟨rfl, rfl⟩

/--
**Every run of the server is one of these.**  The requests it serves, in the order in which
their handlers run, leave its store, and what each of its sessions has selected, once a
namespace that a reader has found for it is posted.
-/
theorem run_clients (libs : Libs) (o : Oracle) (es : List Server.Event) :
    let σ := Machine.run (Server.step libs) (.init (dbOpen o [])) es
    let acts := record (Server.step libs) (Server.acts libs) (.init (dbOpen o [])) es
    let asks := record (Service.step libs.sha256) served (.init (dbOpen o [])) acts
    let κ := Machine.run (Clients.step libs.sha256) (init o) asks
    κ.store = σ.store ∧
      ∀ s, (∀ n, .selected s n ∉ σ.readers) → κ.ns s = (σ.sessions s).ns := by
  intro σ acts asks κ
  obtain ⟨hstore, hns⟩ := run_served libs.sha256 o acts
  have hserves := Server.run_serves libs (dbOpen o []) es
  refine ⟨hstore.trans hserves.store, fun s hs => ?_⟩
  rw [← hserves.settled s hs]
  exact congrFun hns s

end Clients

end Nstore
