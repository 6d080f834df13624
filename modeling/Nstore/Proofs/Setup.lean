/-
What `setup` leaves in a store.

The base facts of two namespaces differ in their namespace only, so what has to be
known about them is checked on those of namespace 0 and carried over.
-/
import Nstore.Proofs.Scan
import Nstore.Requests

namespace Nstore

/-! ### The entries of a new namespace -/

/-- The counters `setup` writes. -/
def metaEntries (ns : Nat) : List Entry :=
  (setupMetas ns).map fun m => (metaKey ns m.1, .num m.2)

def setupEntries (ns : Nat) : List Entry := metaEntries ns ++ setupWrites ns

/-- The entry of another namespace with the same fields. -/
def setNs (ns : Nat) (x : Entry) : Entry := ({ x.1 with ns := ns }, x.2)

private theorem allBaseWrites_setNs (ns : Nat) :
    ∀ (fs : List BaseFact) (ck : CustomKey),
      allBaseWrites { ck with ns := ns } fs = (allBaseWrites ck fs).map (setNs ns) := by
  intro fs
  induction fs with
  | nil => intro ck; rfl
  | cons f rest ih =>
      intro ck
      have hwrites : (baseWrites { ck with ns := ns } f).1 = (baseWrites ck f).1.map (setNs ns) ∧
          (baseWrites { ck with ns := ns } f).2 = { (baseWrites ck f).2 with ns := ns } := by
        cases f with
        | ident e name indexed => cases indexed <;> exact ⟨rfl, rfl⟩
        | int e a v => exact ⟨rfl, rfl⟩
      rw [allBaseWrites, hwrites.1, hwrites.2, ih, ← List.map_append]
      rfl

theorem setupWrites_eq (ns : Nat) : setupWrites ns = (setupWrites 0).map (setNs ns) :=
  allBaseWrites_setNs ns baseFacts { CustomKey.zeroed with ns := 0 }

/-- Only namespace 0 keeps the version. -/
theorem setupEntries_sublist (ns : Nat) :
    (setupEntries ns).Sublist ((setupEntries 0).map (setNs ns)) := by
  unfold setupEntries
  rw [setupWrites_eq ns, List.map_append]
  refine List.Sublist.append ?_ (List.Sublist.refl _)
  by_cases h : ns = 0
  · subst h
    exact List.Sublist.refl _
  · simp only [metaEntries, setupMetas, if_neg h, if_true]
    rw [List.nil_append, List.map_append, List.map_append]
    exact List.sublist_append_right _ _

private theorem sortCoords_setNs (ns : Nat) (k : CustomKey) :
    ∀ n sorting, ({ k with ns := ns } : CustomKey).sortCoords n sorting = k.sortCoords n sorting := by
  intro n
  induction n with
  | zero => intro sorting; rfl
  | succ n ih =>
      intro sorting
      rw [CustomKey.sortCoords, CustomKey.sortCoords, ih]
      rfl

private theorem coords_setNs (ns : Nat) (k : CustomKey) :
    ({ k with ns := ns } : CustomKey).coords = (ns : Int) :: k.coords.tail := by
  simp only [CustomKey.coords, sortCoords_setNs, List.tail_cons]

/-! ### What holds of them -/

instance (k : CustomKey) : Decidable (InRange k) :=
  decidable_of_iff
    (((k.type = .keyMeta ∧ k.sort = 0) ∨ (k.type = .keyUnique ∧ k.sort = 0) ∨ k.IsDatom) ∧
      k.ns < 2 ^ 31 ∧ (-2 ^ 29 ≤ k.e ∧ k.e < 2 ^ 29) ∧ (-2 ^ 29 ≤ k.a ∧ k.a < 2 ^ 29) ∧
      (0 ≤ k.t ∧ k.t < 2 ^ 30) ∧ (-2 ^ 15 ≤ k.pad ∧ k.pad < 2 ^ 15) ∧
      (k.type = .keyInteger → -2 ^ 29 ≤ k.v.i ∧ k.v.i < 2 ^ 29))
    ⟨fun ⟨h1, h2, h3, h4, h5, h6, h7⟩ => ⟨h1, h2, h3, h4, h5, h6, h7⟩,
      fun ⟨h1, h2, h3, h4, h5, h6, h7⟩ => ⟨h1, h2, h3, h4, h5, h6, h7⟩⟩

theorem InRange.setNs {ns : Nat} {k : CustomKey} (h : InRange k) (hns : ns < 2 ^ 31) :
    InRange { k with ns := ns } :=
  ⟨h.kind, hns, h.e_range, h.a_range, h.t_range, h.pad_range, h.i_range⟩

private theorem setupEntries_zero_inRange : ∀ x ∈ setupEntries 0, InRange x.1 := by decide +kernel

private theorem setupEntries_zero_tails :
    (setupEntries 0).Pairwise fun x y => x.1.coords.tail ≠ y.1.coords.tail := by decide +kernel

theorem setupEntries_inRange {ns : Nat} (hns : ns < 2 ^ 31) : ∀ x ∈ setupEntries ns, InRange x.1 := by
  intro x hx
  obtain ⟨y, hy, rfl⟩ := List.mem_map.mp ((setupEntries_sublist ns).subset hx)
  exact (setupEntries_zero_inRange y hy).setNs hns

theorem setupEntries_distinct (ns : Nat) :
    (setupEntries ns).Pairwise fun x y => x.1.coords ≠ y.1.coords := by
  refine List.Pairwise.sublist (setupEntries_sublist ns) (List.pairwise_map.mpr ?_)
  refine setupEntries_zero_tails.imp fun {x y} h hc => h ?_
  simp only [setNs, coords_setNs, List.cons.injEq, true_and] at hc
  exact hc

theorem setupEntries_ns {ns : Nat} : ∀ x ∈ setupEntries ns, x.1.ns = ns := by
  intro x hx
  obtain ⟨y, -, rfl⟩ := List.mem_map.mp ((setupEntries_sublist ns).subset hx)
  rfl

/-- What has to be known of the base facts, on those of namespace 0. -/
theorem setupWrites_zero :
    (∀ x ∈ setupWrites 0, x.1.sort = sortAETV →
      x.1.a < dbInitialId ∧ ({ x.1 with sort := sortEATV }, x.2) ∈ setupWrites 0) ∧
    (∀ x ∈ setupWrites 0, x.1.sort = sortEATV →
      ({ x.1 with sort := sortAETV }, x.2) ∈ setupWrites 0) ∧
    (∀ x ∈ setupWrites 0, x.1.IsDatom →
      1 ≤ x.1.e ∧ x.1.e < dbInitialId ∧ x.1.t = 0 ∧ x.1.a < dbInitialId) ∧
    (∀ x ∈ setupWrites 0, x.1.type = .keyUnique → ∃ y ∈ setupWrites 0,
      y.1.IsDatom ∧ y.1.sort = sortEATV ∧ y.1.a = x.1.a ∧ y.1.v = x.1.v ∧ x.2 = .num y.1.e) ∧
    (∀ x ∈ setupWrites 0, x.1.type ≠ .keyMeta) ∧
    (∃ x ∈ setupWrites 0, x.1.IsDatom ∧ x.1.sort = sortEATV) := by
  decide +kernel

theorem mem_setupWrites {ns : Nat} {x : Entry} :
    x ∈ setupWrites ns ↔ ∃ y ∈ setupWrites 0, setNs ns y = x := by
  rw [setupWrites_eq, List.mem_map]

theorem setupWrites_copies (ns : Nat) (k : CustomKey) (d : Item) :
    ({ k with sort := sortAETV }, d) ∈ setupWrites ns ↔
      k.a < dbInitialId ∧ ({ k with sort := sortEATV }, d) ∈ setupWrites ns := by
  rw [mem_setupWrites, mem_setupWrites]
  constructor
  · rintro ⟨y, hy, h⟩
    have hsort : y.1.sort = sortAETV := congrArg (fun x : Entry => x.1.sort) h
    have ha : y.1.a = k.a := congrArg (fun x : Entry => x.1.a) h
    obtain ⟨h1, h2⟩ := setupWrites_zero.1 y hy hsort
    refine ⟨ha ▸ h1, _, h2, ?_⟩
    exact congrArg (fun x : Entry => (({ x.1 with sort := sortEATV }, x.2) : Entry)) h
  · rintro ⟨-, y, hy, h⟩
    have hsort : y.1.sort = sortEATV := congrArg (fun x : Entry => x.1.sort) h
    refine ⟨_, setupWrites_zero.2.1 y hy hsort, ?_⟩
    exact congrArg (fun x : Entry => (({ x.1 with sort := sortAETV }, x.2) : Entry)) h

/-- Base facts are about base entities and carry no transaction. -/
theorem setupWrites_datom {ns : Nat} {x : Entry} (hx : x ∈ setupWrites ns) (hd : x.1.IsDatom) :
    1 ≤ x.1.e ∧ x.1.e < dbInitialId ∧ x.1.t = 0 ∧ x.1.a < dbInitialId := by
  obtain ⟨y, hy, rfl⟩ := mem_setupWrites.mp hx
  exact setupWrites_zero.2.2.1 y hy hd

theorem setupWrites_ne_meta {ns : Nat} {x : Entry} (hx : x ∈ setupWrites ns) :
    x.1.type ≠ .keyMeta := by
  obtain ⟨y, hy, rfl⟩ := mem_setupWrites.mp hx
  exact setupWrites_zero.2.2.2.2.1 y hy

theorem setupWrites_eatv (ns : Nat) : ∃ x ∈ setupWrites ns, x.1.IsDatom ∧ x.1.sort = sortEATV := by
  obtain ⟨y, hy, hd, hs⟩ := setupWrites_zero.2.2.2.2.2
  exact ⟨_, mem_setupWrites.mpr ⟨y, hy, rfl⟩, hd, hs⟩

/-- The entries of a new namespace that are no counters. -/
theorem mem_setupEntries {ns : Nat} {x : Entry} (hx : x.1.type ≠ .keyMeta) :
    x ∈ setupEntries ns ↔ x ∈ setupWrites ns := by
  unfold setupEntries
  rw [List.mem_append]
  refine or_iff_right fun hc => hx ?_
  obtain ⟨m, -, rfl⟩ := List.mem_map.mp hc
  rfl

/-! ### The store after `setup` -/

theorem putMetas_eq {o : Oracle} (ns : Nat) :
    ∀ (ms : List (Int × Int)) (i : Nat) (s : Store),
      (∀ j, i ≤ j → j < i + ms.length → o.fails (.setupMeta j) = false) →
      putMetas o ns i ms s = (false, OrderedMap.puts customKeyCompare s
        (ms.map fun m => (metaKey ns m.1, .num m.2))) := by
  intro ms
  induction ms with
  | nil => intro i s _; rfl
  | cons m rest ih =>
      intro i s ho
      rw [List.length_cons] at ho
      rw [putMetas, ho i (le_refl i) (by omega), if_neg (by simp),
        ih (i + 1) _ fun j h1 h2 => ho j (by omega) (by omega)]
      rfl

private theorem putAll_eq {o : Oracle} :
    ∀ (xs : List Entry) (i : Nat) (s : Store),
      (∀ j, i ≤ j → j < i + xs.length → o.fails (.setupPut j) = false) →
      putAll o i xs s = OrderedMap.puts customKeyCompare s xs := by
  intro xs
  induction xs with
  | nil => intro i s _; rfl
  | cons x rest ih =>
      intro i s ho
      rw [List.length_cons] at ho
      rw [putAll, ho i (le_refl i) (by omega), if_neg (by simp),
        ih (i + 1) _ fun j h1 h2 => ho j (by omega) (by omega)]
      rfl

/-- None of the calls that `setup` makes for a namespace fails. -/
def Oracle.SetupSucceeds (o : Oracle) (ns : Nat) : Prop :=
  (∀ i < (setupMetas ns).length, o.fails (.setupMeta i) = false) ∧
    (∀ i < (setupWrites ns).length, o.fails (.setupPut i) = false) ∧ o.fails .cursorOpen = false

theorem Oracle.SetupFaultless.succeeds {o : Oracle} (ho : o.SetupFaultless) (ns : Nat) :
    o.SetupSucceeds ns := ⟨fun i _ => ho.1 i, fun i _ => ho.2.1 i, ho.2.2⟩

/-- A namespace is set up by writing all its entries, once. -/
theorem setup_eq_of_succeeds {o : Oracle} {ns : Nat} (ho : o.SetupSucceeds ns) (s : Store) :
    setup o s ns = if nsExists s ns then (true, s)
      else (false, OrderedMap.puts customKeyCompare s (setupEntries ns)) := by
  unfold setup
  split
  · rfl
  · rw [putMetas_eq ns _ 0 s fun j _ h => ho.1 j (by omega)]
    simp only [ho.2.2, Bool.false_eq_true, if_false]
    rw [putAll_eq _ 0 _ fun j _ h => ho.2.1 j (by omega)]
    rw [setupEntries, metaEntries, OrderedMap.puts, OrderedMap.puts, OrderedMap.puts,
      List.foldl_append]

theorem setup_eq {o : Oracle} (ho : o.SetupFaultless) (s : Store) (ns : Nat) :
    setup o s ns = if nsExists s ns then (true, s)
      else (false, OrderedMap.puts customKeyCompare s (setupEntries ns)) :=
  setup_eq_of_succeeds (ho.succeeds ns) s

section New

variable {o : Oracle} {s : Store} {ns : Nat}

/-- In a store without keys of the namespace, its entries are added and the rest is kept. -/
theorem mem_puts_setup (hs : StoreOk s) (hns : ns < 2 ^ 31) (hnew : ∀ x ∈ s, x.1.ns ≠ ns)
    (x : Entry) :
    x ∈ OrderedMap.puts customKeyCompare s (setupEntries ns) ↔ x ∈ s ∨ x ∈ setupEntries ns := by
  refine OrderedMap.mem_puts agrees_inRange (setupEntries_inRange hns) (setupEntries_distinct ns)
    hs (fun y hy z hz hc => ?_) x
  exact hnew y hy ((coords_family hc).1.trans (setupEntries_ns z hz))

/-- The counters of the new namespace. -/
theorem getMeta_setup (hs : StoreOk s) (hns : ns < 2 ^ 31) (hnew : ∀ x ∈ s, x.1.ns ≠ ns) :
    getMeta (OrderedMap.puts customKeyCompare s (setupEntries ns)) ns metaTx = some 1 ∧
      getMeta (OrderedMap.puts customKeyCompare s (setupEntries ns)) ns metaId =
        some dbInitialId := by
  have hok := OrderedMap.puts_ok agrees_inRange (setupEntries_inRange hns) hs
  have hmem : ∀ m : Int × Int, m = (metaTx, 1) ∨ m = (metaId, dbInitialId) →
      (metaKey ns m.1, .num m.2) ∈ OrderedMap.puts customKeyCompare s (setupEntries ns) := by
    intro m hm
    refine (mem_puts_setup hs hns hnew _).mpr (Or.inr (List.mem_append_left _ ?_))
    refine List.mem_map.mpr ⟨m, List.mem_append_right _ ?_, rfl⟩
    rcases hm with rfl | rfl <;> simp
  exact ⟨(getMeta_eq_some hok hns (by decide)).mpr ⟨_, hmem _ (Or.inl rfl), rfl, rfl, rfl, rfl⟩,
    (getMeta_eq_some hok hns (by decide)).mpr ⟨_, hmem _ (Or.inr rfl), rfl, rfl, rfl, rfl⟩⟩

/-- All that setting up a namespace changes. -/
structure SetUp (ns : Nat) (s s' : Store) : Prop where
  ok : StoreOk s'
  foreign : ∀ x : Entry, x.1.ns ≠ ns → (x ∈ s' ↔ x ∈ s)
  own : ∀ x : Entry, x.1.ns = ns → x.1.type ≠ .keyMeta → (x ∈ s' ↔ x ∈ setupWrites ns)
  tx : getMeta s' ns metaTx = some 1
  id : getMeta s' ns metaId = some dbInitialId

theorem puts_setUp (hs : StoreOk s) (hns : ns < 2 ^ 31) (hnew : ∀ x ∈ s, x.1.ns ≠ ns) :
    SetUp ns s (OrderedMap.puts customKeyCompare s (setupEntries ns)) := by
  have hmem := mem_puts_setup hs hns hnew
  refine ⟨OrderedMap.puts_ok agrees_inRange (setupEntries_inRange hns) hs, fun x hx => ?_,
    fun x hx ht => ?_, (getMeta_setup hs hns hnew).1, (getMeta_setup hs hns hnew).2⟩
  · rw [hmem x]
    exact or_iff_left fun hc => hx (setupEntries_ns x hc)
  · rw [hmem x, mem_setupEntries ht]
    exact or_iff_right fun hc => hnew x hc hx

/-- Other namespaces keep their counters. -/
theorem SetUp.getMeta_foreign {s' : Store} (h : SetUp ns s s') (hs : StoreOk s) {n : Nat}
    (hn : n < 2 ^ 31) (hne : n ≠ ns) {id : Int} (hid : 0 ≤ id ∧ id < 5) :
    getMeta s' n id = getMeta s n id :=
  getMeta_congr hs h.ok hn hid fun x hx _ => h.foreign x (hx ▸ hne)

end New

/-! ### The store after a `setup` in which calls fail -/

section Partly

variable {o : Oracle} {s s' : Store} {ns : Nat}

/-- The counters written are the first ones; where no call fails, all of them. -/
theorem putMetas_puts (o : Oracle) (ns : Nat) :
    ∀ (ms : List (Int × Int)) (i : Nat) (s : Store), ∃ ys, ys <+: ms ∧
      (putMetas o ns i ms s).2 = OrderedMap.puts customKeyCompare s
        (ys.map fun m => (metaKey ns m.1, .num m.2)) ∧
      ((putMetas o ns i ms s).1 = false → ys = ms) := by
  intro ms
  induction ms with
  | nil => intro i s; exact ⟨[], List.prefix_rfl, rfl, fun _ => rfl⟩
  | cons m rest ih =>
      intro i s
      rw [putMetas]
      split
      · exact ⟨[], List.nil_prefix, rfl, fun h => absurd h (by simp)⟩
      · obtain ⟨ys, hpre, hputs, hall⟩ := ih (i + 1) (putMeta s ns m.1 m.2)
        exact ⟨m :: ys, List.cons_prefix_cons.mpr ⟨rfl, hpre⟩, hputs,
          fun h => by rw [hall h]⟩

theorem putAll_puts (o : Oracle) : ∀ (xs : List Entry) (i : Nat) (s : Store),
    ∃ ys, ys.Sublist xs ∧ putAll o i xs s = OrderedMap.puts customKeyCompare s ys := by
  intro xs
  induction xs with
  | nil => intro i s; exact ⟨[], List.Sublist.refl _, rfl⟩
  | cons x rest ih =>
      intro i s
      rw [putAll]
      split
      · obtain ⟨ys, hsub, hputs⟩ := ih (i + 1) s
        exact ⟨ys, hsub.cons x, hputs⟩
      · obtain ⟨ys, hsub, hputs⟩ := ih (i + 1) (mdbPut s x.1 x.2)
        exact ⟨x :: ys, hsub.cons_cons x, hputs⟩

/-- Facts are only written once all counters are. -/
theorem setup_puts (o : Oracle) (s : Store) (ns : Nat) (hex : nsExists s ns = false) :
    ∃ ys, ys.Sublist (setupEntries ns) ∧
      (setup o s ns).2 = OrderedMap.puts customKeyCompare s ys ∧
      (ys <+: metaEntries ns ∨ metaEntries ns <+: ys) := by
  obtain ⟨ms, hpre, hputs, hall⟩ := putMetas_puts o ns (setupMetas ns) 0 s
  have hsub : (ms.map fun m => ((metaKey ns m.1, .num m.2) : Entry)) <+: metaEntries ns :=
    hpre.map _
  have hin : (ms.map fun m => ((metaKey ns m.1, .num m.2) : Entry)).Sublist (setupEntries ns) :=
    hsub.sublist.trans (List.sublist_append_left _ _)
  unfold setup
  rw [if_neg (by simp [hex])]
  split
  · rename_i s₁ h
    rw [h] at hputs
    exact ⟨_, hin, hputs, Or.inl hsub⟩
  · rename_i s₁ h
    rw [h] at hputs hall
    have hputs : s₁ = _ := hputs
    split
    · exact ⟨_, hin, hputs, Or.inl hsub⟩
    · obtain ⟨xs, hxs, hall'⟩ := putAll_puts o (setupWrites ns) 0 s₁
      refine ⟨metaEntries ns ++ xs, hxs.append_left _, ?_, Or.inr (List.prefix_append _ _)⟩
      show putAll o 0 (setupWrites ns) s₁ = _
      rw [hall', hputs, hall rfl]
      unfold OrderedMap.puts metaEntries
      rw [List.foldl_append]

/-- All that setting up a namespace changes, whatever fails. -/
structure PartlySetUp (ns : Nat) (s s' : Store) : Prop where
  ok : StoreOk s'
  foreign : ∀ x : Entry, x.1.ns ≠ ns → (x ∈ s' ↔ x ∈ s)
  added : ∀ x ∈ s', x ∈ s ∨ x ∈ setupEntries ns
  tx : getMeta s' ns metaTx = some 1 ∨
    (getMeta s' ns metaTx = none ∧ ∀ x ∈ s', x.1.type ≠ .keyMeta ∨ ns ≠ 0 → x ∈ s)
  id : getMeta s' ns metaId = getMeta s ns metaId ∨ getMeta s' ns metaId = some dbInitialId

theorem setupMetas_values {m : Int × Int} (hm : m ∈ setupMetas ns) :
    (m.1 = metaTx → m.2 = 1) ∧ (m.1 = metaId → m.2 = dbInitialId) := by
  unfold setupMetas at hm
  split at hm <;> revert m <;> decide

/-- A counter is as it was, or the one that is written. -/
theorem getMeta_puts_setup (hs : StoreOk s) (hns : ns < 2 ^ 31) {ys : List Entry}
    (hys : ys.Sublist (setupEntries ns)) {id : Int} (hid : 0 ≤ id ∧ id < 5) :
    (getMeta (OrderedMap.puts customKeyCompare s ys) ns id = getMeta s ns id ∧
      ∀ v, (metaKey ns id, .num v) ∉ ys) ∨
    ∃ v, (id, v) ∈ setupMetas ns ∧
      getMeta (OrderedMap.puts customKeyCompare s ys) ns id = some v := by
  have hrange : ∀ y ∈ ys, InRange y.1 := fun y hy => setupEntries_inRange hns y (hys.subset hy)
  have hdiff := List.Pairwise.sublist hys (setupEntries_distinct ns)
  have hok := OrderedMap.puts_ok agrees_inRange hrange hs
  by_cases h : ∃ y ∈ ys, y.1.coords = (metaKey ns id).coords
  · obtain ⟨y, hy, hc⟩ := h
    obtain ⟨hyn, hyt, hye⟩ := coords_eq_meta.mp hc
    have hmem : y ∈ metaEntries ns := by
      rcases List.mem_append.mp (hys.subset hy) with h | h
      · exact h
      · exact absurd hyt (setupWrites_ne_meta h)
    obtain ⟨m, hm, rfl⟩ := List.mem_map.mp hmem
    have hm1 : m.1 = id := hye
    refine Or.inr ⟨m.2, hm1 ▸ hm, ?_⟩
    exact (getMeta_eq_some hok hns hid).mpr
      ⟨_, OrderedMap.mem_puts_of_mem agrees_inRange hrange
        (OrderedMap.eq_of_pairwise_ne hdiff) hy hs, rfl, rfl, hye, rfl⟩
  · push Not at h
    refine Or.inl ⟨?_, fun v hv => h _ hv rfl⟩
    refine Option.ext fun n => ?_
    rw [getMeta_eq_some hok hns hid, getMeta_eq_some hs hns hid]
    have hiff : ∀ x : Entry, x.1.ns = ns → x.1.type = .keyMeta → x.1.e = id →
        (x ∈ OrderedMap.puts customKeyCompare s ys ↔ x ∈ s) := by
      intro x h1 h2 h3
      refine OrderedMap.mem_puts_of_ne agrees_inRange hrange (fun y hy hc => h y hy ?_) hs
      rw [← hc]
      exact coords_eq_meta.mpr ⟨h1, h2, h3⟩
    constructor
    · rintro ⟨x, hx, h1, h2, h3, h4⟩
      exact ⟨x, (hiff x h1 h2 h3).mp hx, h1, h2, h3, h4⟩
    · rintro ⟨x, hx, h1, h2, h3, h4⟩
      exact ⟨x, (hiff x h1 h2 h3).mpr hx, h1, h2, h3, h4⟩

theorem setup_partlySetUp (hs : StoreOk s) (hns : ns < 2 ^ 31) (hex : nsExists s ns = false) :
    PartlySetUp ns s (setup o s ns).2 := by
  obtain ⟨ys, hys, hputs, hphase⟩ := setup_puts o s ns hex
  have hrange : ∀ y ∈ ys, InRange y.1 := fun y hy => setupEntries_inRange hns y (hys.subset hy)
  have hadded : ∀ x ∈ OrderedMap.puts customKeyCompare s ys, x ∈ s ∨ x ∈ ys := fun x hx =>
    OrderedMap.mem_of_mem_puts hx
  have hnone : getMeta s ns metaTx = none := by simpa [nsExists] using hex
  rw [hputs]
  refine ⟨OrderedMap.puts_ok agrees_inRange hrange hs, fun x hx => ?_, fun x hx => ?_, ?_, ?_⟩
  · refine OrderedMap.mem_puts_of_ne agrees_inRange hrange (fun y hy hc => hx ?_) hs
    exact (coords_family hc).1.trans (setupEntries_ns y (hys.subset hy))
  · exact (hadded x hx).imp id fun h => hys.subset h
  · rcases getMeta_puts_setup hs hns hys (by decide : (0 : Int) ≤ metaTx ∧ metaTx < 5) with
      ⟨h, hnot⟩ | ⟨v, hv, h⟩
    · refine Or.inr ⟨h.trans hnone, fun x hx ht => ?_⟩
      rcases hadded x hx with hx | hx
      · exact hx
      · rcases hphase with hsub | hpre
        · rcases ht with ht | h0
          · obtain ⟨m, -, rfl⟩ := List.mem_map.mp (hsub.subset hx)
            exact absurd rfl ht
          · -- only namespace 0 has counters before this one
            have hmetas : metaEntries ns = [(metaKey ns metaTx, .num 1),
                (metaKey ns metaId, .num dbInitialId)] := by
              unfold metaEntries setupMetas
              rw [if_neg h0]
              rfl
            rw [hmetas] at hsub
            cases ys with
            | nil => exact absurd hx List.not_mem_nil
            | cons y rest =>
                rw [(List.cons_prefix_cons.mp hsub).1] at hnot
                exact absurd List.mem_cons_self (hnot 1)
        · refine absurd (hpre.subset ?_) (hnot 1)
          exact List.mem_map.mpr ⟨(metaTx, 1), List.mem_append_right _ (by simp), rfl⟩
    · have hv : v = 1 := (setupMetas_values hv).1 rfl
      exact Or.inl (hv ▸ h)
  · rcases getMeta_puts_setup hs hns hys (by decide : (0 : Int) ≤ metaId ∧ metaId < 5) with
      ⟨h, -⟩ | ⟨v, hv, h⟩
    · exact Or.inl h
    · have hv : v = dbInitialId := (setupMetas_values hv).2 rfl
      exact Or.inr (hv ▸ h)

theorem PartlySetUp.getMeta_foreign (h : PartlySetUp ns s s') (hs : StoreOk s) {n : Nat}
    (hn : n < 2 ^ 31) (hne : n ≠ ns) {id : Int} (hid : 0 ≤ id ∧ id < 5) :
    getMeta s' n id = getMeta s n id :=
  getMeta_congr hs h.ok hn hid fun x hx _ => h.foreign x (hx ▸ hne)

end Partly

/-! ### In any store, whatever fails

A namespace that exists keeps its transaction counter, also where other keys are
out of range and puts fail.
-/

theorem getMeta_putAll {o : Oracle} {n : Nat} {id : Int} :
    ∀ {xs : List Entry} {i : Nat} {s : Store}, (∀ x ∈ xs, x.1.type ≠ .keyMeta) →
      getMeta (putAll o i xs s) n id = getMeta s n id := by
  intro xs
  induction xs with
  | nil => intro i s _; rfl
  | cons x rest ih =>
      intro i s h
      rw [putAll, ih fun y hy => h y (List.mem_cons_of_mem _ hy)]
      split
      · rfl
      · exact getMeta_mdbPut_of_type (h x List.mem_cons_self)

private theorem getMeta_putMetas_ne {o : Oracle} {n m : Nat} {id : Int} (hn : n < 2 ^ 32)
    (hm : m < 2 ^ 32) (hne : n ≠ m) (hid : 0 ≤ id ∧ id < 5) :
    ∀ {ms : List (Int × Int)} {i : Nat} {s : Store}, (∀ x ∈ ms, 0 ≤ x.1 ∧ x.1 < 5) →
      getMeta (putMetas o m i ms s).2 n id = getMeta s n id := by
  intro ms
  induction ms with
  | nil => intro i s _; rfl
  | cons x rest ih =>
      intro i s h
      rw [putMetas]
      split
      · rfl
      · rw [ih fun y hy => h y (List.mem_cons_of_mem _ hy)]
        exact getMeta_putMeta_ne hm hn (h x List.mem_cons_self) hid (Or.inl hne)

private theorem setupMetas_range (n : Nat) : ∀ x ∈ setupMetas n, 0 ≤ x.1 ∧ x.1 < 5 := by
  intro x hx
  unfold setupMetas at hx
  split at hx <;> revert x <;> decide

theorem toNamespace_lt (m : Int) : toNamespace m < 2 ^ 32 := by
  unfold toNamespace
  omega

/-- A namespace that exists keeps its counters, whatever namespace is set up. -/
theorem getMeta_setup_of_exists {o : Oracle} {s : Store} {n m : Nat} {id : Int} (hn : n < 2 ^ 32)
    (hm : m < 2 ^ 32) (hid : 0 ≤ id ∧ id < 5) (h : nsExists s n = true) :
    getMeta (setup o s m).2 n id = getMeta s n id := by
  by_cases hne : n = m
  · subst hne
    rw [setup, if_pos h]
  · have hmetas := getMeta_putMetas_ne (o := o) (i := 0) (s := s) hn hm hne hid (setupMetas_range m)
    unfold setup
    split
    · rfl
    · split
      · rename_i s' hp
        rw [hp] at hmetas
        exact hmetas
      · rename_i s' hp
        rw [hp] at hmetas
        split
        · exact hmetas
        · rw [getMeta_putAll fun x hx => setupWrites_ne_meta hx]
          exact hmetas

/-- A request for a namespace sets it up, or leaves the store as it was. -/
theorem step_newNamespace_cases (sha256 : Bytes → Value) (o : Oracle) (s : Store)
    (arg : Option Json) : step sha256 s (o, .newNamespace arg) = s ∨ ∃ m, arg = some (.int64 m) ∧
      step sha256 s (o, .newNamespace arg) = (setup o s (toNamespace m.toInt)).2 := by
  unfold step serve handleNamespace
  simp only
  split
  · rename_i m
    split
    · exact Or.inl rfl
    · split
      · exact Or.inl rfl
      · exact Or.inr ⟨m, rfl, rfl⟩
  · exact Or.inl rfl

end Nstore
