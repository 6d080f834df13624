/-
An ordered map driven by a comparison function.

The map is the list of its entries in key order, and every operation finds its
place by calling the comparison, as a B-tree does.  Nothing here assumes that the
comparison is an order: what is assumed, and only where a result needs it, is that
on the keys in use it agrees with a rank in some linear order.  `Agrees` says so,
and `Ok` says that a map holds such keys, strictly increasing.

On those maps an entry list is determined by its members, `Ok.ext`, so most facts
about an operation follow from what its result contains.
-/
import Mathlib.Data.List.Lex
import Mathlib.Tactic

namespace OrderedMap

variable {K V L : Type}

/-! ### The operations -/

section Ops

variable (cmp : K → K → Int)

/-- The data stored under a key that compares equal. -/
def find? (s : List (K × V)) (k : K) : Option V :=
  (s.find? fun x => cmp k x.1 == 0).map (·.2)

/-- Enter a pair, replacing the one with an equal key. -/
def put (k : K) (v : V) : List (K × V) → List (K × V)
  | [] => [(k, v)]
  | x :: rest =>
      if cmp k x.1 < 0 then (k, v) :: x :: rest
      else if cmp k x.1 = 0 then (k, v) :: rest
      else x :: put k v rest

/-- Remove the pair with an equal key; `none` if there is none. -/
def del (k : K) : List (K × V) → Option (List (K × V))
  | [] => none
  | x :: rest => if cmp k x.1 = 0 then some rest else (del k rest).map (x :: ·)

/-- Enter pair after pair. -/
def puts (s : List (K × V)) (xs : List (K × V)) : List (K × V) :=
  xs.foldl (fun s x => put cmp x.1 x.2 s) s

/-- The entries from the first key not below `k` on. -/
def seek (s : List (K × V)) (k : K) : List (K × V) :=
  s.dropWhile fun x => 0 < cmp k x.1

/-- The entry one step before the one `seek` stops at. -/
def before (s : List (K × V)) (k : K) : Option (K × V) :=
  (s.takeWhile fun x => 0 < cmp k x.1).getLast?

end Ops

/-! ### Reading back what was put

These need no order, only that no key is equal both to the one written and to the
one asked about.  Nor does it take an order to say what a put can add.
-/

section Raw

variable {cmp : K → K → Int} {k k' : K}

theorem find?_put_self (hk : cmp k k = 0) (v : V) :
    ∀ s : List (K × V), find? cmp (put cmp k v s) k = some v := by
  intro s
  induction s with
  | nil => simp [find?, put, hk]
  | cons x rest ih =>
      rw [put]
      split
      · simp [find?, hk]
      · split
        · simp [find?, hk]
        · rename_i hx
          have : find? cmp (x :: put cmp k v rest) k = find? cmp (put cmp k v rest) k := by
            simp [find?, hx]
          rw [this, ih]

theorem find?_put_ne (h : ∀ y, cmp k y = 0 → cmp k' y ≠ 0) (hk : cmp k' k ≠ 0) (v : V) :
    ∀ s : List (K × V), find? cmp (put cmp k v s) k' = find? cmp s k' := by
  intro s
  induction s with
  | nil => simp [find?, put, hk]
  | cons x rest ih =>
      rw [put]
      split
      · simp [find?, hk]
      · split
        · rename_i hx
          simp [find?, hk, h x.1 hx]
        · by_cases hx' : cmp k' x.1 = 0
          · simp [find?, hx']
          · have hl : find? cmp (x :: put cmp k v rest) k' = find? cmp (put cmp k v rest) k' := by
              simp [find?, hx']
            have hr : find? cmp (x :: rest) k' = find? cmp rest k' := by simp [find?, hx']
            rw [hl, hr, ih]

/-- A put adds its own pair and no other. -/
theorem mem_of_mem_put {v : V} {x : K × V} :
    ∀ {s : List (K × V)}, x ∈ put cmp k v s → x = (k, v) ∨ x ∈ s := by
  intro s
  induction s with
  | nil => intro h; exact Or.inl (List.mem_singleton.mp h)
  | cons y rest ih =>
      intro h
      rw [put] at h
      split at h
      · exact List.mem_cons.mp h
      · split at h
        · exact (List.mem_cons.mp h).imp id fun h => List.mem_cons_of_mem y h
        · rcases List.mem_cons.mp h with rfl | h
          · exact Or.inr List.mem_cons_self
          · exact (ih h).imp id fun h => List.mem_cons_of_mem y h

theorem mem_of_mem_puts {x : K × V} :
    ∀ {xs s : List (K × V)}, x ∈ puts cmp s xs → x ∈ s ∨ x ∈ xs := by
  intro xs
  induction xs with
  | nil => intro s h; exact Or.inl h
  | cons y rest ih =>
      intro s h
      rcases ih h with h | h
      · rcases mem_of_mem_put h with rfl | h
        · exact Or.inr List.mem_cons_self
        · exact Or.inl h
      · exact Or.inr (List.mem_cons_of_mem _ h)

/-- A deletion takes out the first entry with an equal key, which is the one that is found. -/
theorem del_cases : ∀ {s s' : List (K × V)}, del cmp k s = some s' →
    ∃ l x r, s = l ++ x :: r ∧ s' = l ++ r ∧ cmp k x.1 = 0 ∧ find? cmp s k = some x.2 := by
  intro s
  induction s with
  | nil => intro s' h; exact absurd h (by simp [del])
  | cons y rest ih =>
      intro s' h
      rw [del] at h
      split at h
      · rename_i hy
        rw [Option.some.injEq] at h
        exact ⟨[], y, rest, rfl, h.symm, hy, by simp [find?, hy]⟩
      · rename_i hy
        obtain ⟨s₁, h1, rfl⟩ := Option.map_eq_some_iff.mp h
        obtain ⟨l, x, r, rfl, rfl, hx, hfind⟩ := ih h1
        refine ⟨y :: l, x, r, rfl, rfl, hx, ?_⟩
        rw [← hfind]
        simp [find?, hy]

/-- A put adds its entry, or replaces the one that is found. -/
theorem put_cases (v : V) : ∀ s : List (K × V),
    ∃ l m r, s = l ++ m ++ r ∧ put cmp k v s = l ++ (k, v) :: r ∧
      (m = [] ∨ ∃ x, m = [x] ∧ cmp k x.1 = 0 ∧ find? cmp s k = some x.2) := by
  intro s
  induction s with
  | nil => exact ⟨[], [], [], rfl, rfl, Or.inl rfl⟩
  | cons y rest ih =>
      rw [put]
      split
      · exact ⟨[], [], y :: rest, rfl, rfl, Or.inl rfl⟩
      · split
        · rename_i hy
          exact ⟨[], [y], rest, rfl, rfl, Or.inr ⟨y, rfl, hy, by simp [find?, hy]⟩⟩
        · rename_i hy
          obtain ⟨l, m, r, hs, hput, hm⟩ := ih
          refine ⟨y :: l, m, r, by rw [hs]; rfl, by rw [hput]; rfl, hm.imp id ?_⟩
          rintro ⟨x, rfl, hx, hfind⟩
          refine ⟨x, rfl, hx, ?_⟩
          rw [← hfind]
          simp [find?, hy]

/-- Two keys that compare alike with every entry are searched for alike. -/
theorem seek_before_congr : ∀ {s : List (K × V)}, (∀ x ∈ s, cmp k x.1 = cmp k' x.1) →
    seek cmp s k = seek cmp s k' ∧ before cmp s k = before cmp s k' := by
  intro s h
  have hlt : ∀ x ∈ s, decide (0 < cmp k x.1) = decide (0 < cmp k' x.1) :=
    fun x hx => by rw [h x hx]
  have hsplit : ∀ {l : List (K × V)} {p q : K × V → Bool}, (∀ x ∈ l, p x = q x) →
      l.dropWhile p = l.dropWhile q ∧ l.takeWhile p = l.takeWhile q := by
    intro l
    induction l with
    | nil => intro p q _; exact ⟨rfl, rfl⟩
    | cons y rest ih =>
        intro p q hpq
        obtain ⟨h1, h2⟩ := ih fun x hx => hpq x (by simp [hx])
        rw [List.dropWhile_cons, List.dropWhile_cons, List.takeWhile_cons, List.takeWhile_cons,
          hpq y (by simp), h1, h2]
        exact ⟨rfl, rfl⟩
  obtain ⟨h1, h2⟩ := hsplit hlt
  exact ⟨h1, congrArg List.getLast? h2⟩

end Raw

/-! ### Maps whose comparison is an order -/

/-- On the keys in `P` the comparison is the order of their ranks. -/
structure Agrees [LinearOrder L] (cmp : K → K → Int) (rank : K → L) (P : K → Prop) : Prop where
  neg_iff : ∀ {x y}, P x → P y → (cmp x y < 0 ↔ rank x < rank y)
  zero_iff : ∀ {x y}, P x → P y → (cmp x y = 0 ↔ rank x = rank y)

/-- All keys are in `P`, and they are strictly increasing. -/
structure Ok [LinearOrder L] (rank : K → L) (P : K → Prop) (s : List (K × V)) : Prop where
  keys : ∀ x ∈ s, P x.1
  sorted : s.Pairwise fun x y => rank x.1 < rank y.1

section Lawful

variable [LinearOrder L] {cmp : K → K → Int} {rank : K → L} {P : K → Prop}

theorem Agrees.pos_iff (h : Agrees cmp rank P) {x y : K} (hx : P x) (hy : P y) :
    0 < cmp x y ↔ rank y < rank x := by
  have h1 := h.neg_iff hx hy
  have h2 := h.zero_iff hx hy
  constructor
  · intro hpos
    rcases lt_trichotomy (rank x) (rank y) with hlt | heq | hgt
    · have := h1.mpr hlt; omega
    · have := h2.mpr heq; omega
    · exact hgt
  · intro hgt
    have n1 : ¬ cmp x y < 0 := fun hc => absurd (h1.mp hc) (not_lt.mpr hgt.le)
    have n2 : cmp x y ≠ 0 := fun hc => absurd (h2.mp hc) (ne_of_gt hgt)
    omega

theorem Ok.nil : Ok rank P ([] : List (K × V)) := ⟨by simp, List.Pairwise.nil⟩

theorem Ok.tail {x : K × V} {s : List (K × V)} (h : Ok rank P (x :: s)) : Ok rank P s :=
  ⟨fun y hy => h.keys y (by simp [hy]), h.sorted.of_cons⟩

theorem Ok.head_lt {x : K × V} {s : List (K × V)} (h : Ok rank P (x :: s)) :
    ∀ y ∈ s, rank x.1 < rank y.1 :=
  fun _ hy => List.rel_of_pairwise_cons h.sorted hy

theorem Ok.filter {s : List (K × V)} (h : Ok rank P s) (p : K × V → Bool) :
    Ok rank P (s.filter p) :=
  ⟨fun x hx => h.keys x (List.mem_filter.mp hx).1, h.sorted.filter p⟩

theorem Ok.nodup {s : List (K × V)} (h : Ok rank P s) : s.Nodup :=
  h.sorted.imp fun hlt heq => absurd (heq ▸ hlt) (lt_irrefl _)

/-- A map is determined by its entries. -/
theorem Ok.ext {s s' : List (K × V)} (h : Ok rank P s) (h' : Ok rank P s')
    (hmem : ∀ x, x ∈ s ↔ x ∈ s') : s = s' := by
  have hperm : s.Perm s' := (List.perm_ext_iff_of_nodup h.nodup h'.nodup).mpr hmem
  refine hperm.eq_of_pairwise ?_ h.sorted h'.sorted
  intro x y _ _ hxy hyx
  exact absurd hxy (not_lt.mpr hyx.le)

/-- Keys of one rank carry one entry. -/
theorem Ok.unique : ∀ {s : List (K × V)}, Ok rank P s → ∀ {x y : K × V}, x ∈ s → y ∈ s →
    rank x.1 = rank y.1 → x = y := by
  intro s
  induction s with
  | nil => intro _ x y hx; simp at hx
  | cons z rest ih =>
      intro hs x y hx hy heq
      have hlt := hs.head_lt
      rcases List.mem_cons.mp hx with hxz | hx' <;> rcases List.mem_cons.mp hy with hyz | hy'
      · rw [hxz, hyz]
      · exact absurd heq (by rw [hxz]; exact ne_of_lt (hlt y hy'))
      · exact absurd heq (by rw [hyz]; exact ne_of_gt (hlt x hx'))
      · exact ih hs.tail hx' hy' heq

theorem mem_put (hcmp : Agrees cmp rank P) {k : K} (hk : P k) {v : V} :
    ∀ {s : List (K × V)}, Ok rank P s →
      ∀ x, x ∈ put cmp k v s ↔ x = (k, v) ∨ (x ∈ s ∧ rank x.1 ≠ rank k) := by
  intro s
  induction s with
  | nil => intro _ x; simp [put]
  | cons y rest ih =>
      intro hs x
      have hy : P y.1 := hs.keys y (by simp)
      have hlt := hs.head_lt
      rw [put]
      split
      · rename_i hneg
        have hky := (hcmp.neg_iff hk hy).mp hneg
        have hrest : ∀ z ∈ y :: rest, rank z.1 ≠ rank k := by
          intro z hz
          rcases List.mem_cons.mp hz with rfl | hz
          · exact ne_of_gt hky
          · exact ne_of_gt (hky.trans (hlt z hz))
        constructor
        · intro hx
          rcases List.mem_cons.mp hx with rfl | hx
          · exact Or.inl rfl
          · exact Or.inr ⟨hx, hrest x hx⟩
        · rintro (rfl | ⟨hx, -⟩)
          · simp
          · exact List.mem_cons_of_mem _ hx
      · split
        · rename_i hzero
          have hky := (hcmp.zero_iff hk hy).mp hzero
          constructor
          · intro hx
            rcases List.mem_cons.mp hx with rfl | hx
            · exact Or.inl rfl
            · exact Or.inr ⟨by simp [hx], by rw [hky]; exact ne_of_gt (hlt x hx)⟩
          · rintro (rfl | ⟨hx, hne⟩)
            · simp
            · rcases List.mem_cons.mp hx with rfl | hx
              · exact absurd hky.symm hne
              · exact List.mem_cons_of_mem _ hx
        · rename_i hnneg hnzero
          have hne : rank y.1 ≠ rank k := fun hc => hnzero ((hcmp.zero_iff hk hy).mpr hc.symm)
          rw [List.mem_cons, ih hs.tail x, List.mem_cons]
          constructor
          · rintro (rfl | rfl | ⟨hx, hxk⟩)
            · exact Or.inr ⟨Or.inl rfl, hne⟩
            · exact Or.inl rfl
            · exact Or.inr ⟨Or.inr hx, hxk⟩
          · rintro (rfl | ⟨rfl | hx, hxk⟩)
            · exact Or.inr (Or.inl rfl)
            · exact Or.inl rfl
            · exact Or.inr (Or.inr ⟨hx, hxk⟩)

theorem put_ok (hcmp : Agrees cmp rank P) {k : K} (hk : P k) {v : V} :
    ∀ {s : List (K × V)}, Ok rank P s → Ok rank P (put cmp k v s) := by
  intro s
  induction s with
  | nil => intro _; exact ⟨by simpa [put] using hk, by simp [put]⟩
  | cons y rest ih =>
      intro hs
      have hy : P y.1 := hs.keys y (by simp)
      refine ⟨?_, ?_⟩
      · intro x hx
        rcases (mem_put hcmp hk hs x).mp hx with rfl | ⟨hx, -⟩
        · exact hk
        · exact hs.keys x hx
      · rw [put]
        split
        · rename_i hneg
          have hky := (hcmp.neg_iff hk hy).mp hneg
          refine List.pairwise_cons.mpr ⟨?_, hs.sorted⟩
          intro z hz
          rcases List.mem_cons.mp hz with rfl | hz
          · exact hky
          · exact hky.trans (hs.head_lt z hz)
        · split
          · rename_i hzero
            have hky := (hcmp.zero_iff hk hy).mp hzero
            refine List.pairwise_cons.mpr ⟨?_, hs.tail.sorted⟩
            intro z hz
            rw [hky]
            exact hs.head_lt z hz
          · rename_i hnneg hnzero
            refine List.pairwise_cons.mpr ⟨?_, (ih hs.tail).sorted⟩
            intro z hz
            rcases (mem_put hcmp hk hs.tail z).mp hz with rfl | ⟨hz, -⟩
            · exact (hcmp.pos_iff hk hy).mp (by omega)
            · exact hs.head_lt z hz

theorem mem_del (hcmp : Agrees cmp rank P) {k : K} (hk : P k) :
    ∀ {s s' : List (K × V)}, Ok rank P s → del cmp k s = some s' →
      ∀ x, x ∈ s' ↔ x ∈ s ∧ rank x.1 ≠ rank k := by
  intro s
  induction s with
  | nil => intro s' _ h; simp [del] at h
  | cons y rest ih =>
      intro s' hs h x
      have hy : P y.1 := hs.keys y (by simp)
      rw [del] at h
      split at h
      · rename_i hzero
        have hky := (hcmp.zero_iff hk hy).mp hzero
        obtain rfl := Option.some.inj h
        constructor
        · intro hx
          exact ⟨by simp [hx], by rw [hky]; exact ne_of_gt (hs.head_lt x hx)⟩
        · rintro ⟨hx, hne⟩
          rcases List.mem_cons.mp hx with rfl | hx
          · exact absurd hky.symm hne
          · exact hx
      · rename_i hnzero
        obtain ⟨r, hr, rfl⟩ := Option.map_eq_some_iff.mp h
        have hne : rank y.1 ≠ rank k := fun hc => hnzero ((hcmp.zero_iff hk hy).mpr hc.symm)
        rw [List.mem_cons, ih hs.tail hr x, List.mem_cons]
        constructor
        · rintro (rfl | ⟨hx, hxk⟩)
          · exact ⟨Or.inl rfl, hne⟩
          · exact ⟨Or.inr hx, hxk⟩
        · rintro ⟨rfl | hx, hxk⟩
          · exact Or.inl rfl
          · exact Or.inr ⟨hx, hxk⟩

/-- Deleting picks a sublist. -/
theorem del_sublist {k : K} : ∀ {s s' : List (K × V)}, del cmp k s = some s' → s'.Sublist s := by
  intro s
  induction s with
  | nil => intro s' h; simp [del] at h
  | cons y rest ih =>
      intro s' h
      rw [del] at h
      split at h
      · obtain rfl := Option.some.inj h
        exact List.sublist_cons_self y rest
      · obtain ⟨r, hr, rfl⟩ := Option.map_eq_some_iff.mp h
        exact (ih hr).cons_cons y

theorem del_ok {k : K} {s s' : List (K × V)} (hs : Ok rank P s) (h : del cmp k s = some s') :
    Ok rank P s' :=
  ⟨fun x hx => hs.keys x ((del_sublist h).subset hx), hs.sorted.sublist (del_sublist h)⟩

theorem del_eq_none_iff (hcmp : Agrees cmp rank P) {k : K} (hk : P k) :
    ∀ {s : List (K × V)}, Ok rank P s →
      (del cmp k s = none ↔ ∀ x ∈ s, rank x.1 ≠ rank k) := by
  intro s
  induction s with
  | nil => intro _; simp [del]
  | cons y rest ih =>
      intro hs
      have hy : P y.1 := hs.keys y (by simp)
      rw [del]
      split
      · rename_i hzero
        have hky := (hcmp.zero_iff hk hy).mp hzero
        simp [hky]
      · rename_i hnzero
        have hne : rank y.1 ≠ rank k := fun hc => hnzero ((hcmp.zero_iff hk hy).mpr hc.symm)
        simp [ih hs.tail, hne]

theorem find?_eq_some_iff (hcmp : Agrees cmp rank P) {k : K} (hk : P k) {v : V}
    {s : List (K × V)} (hs : Ok rank P s) :
    find? cmp s k = some v ↔ ∃ k', (k', v) ∈ s ∧ rank k' = rank k := by
  constructor
  · intro h
    obtain ⟨x, hx, rfl⟩ := Option.map_eq_some_iff.mp h
    have hmem := List.mem_of_find?_eq_some hx
    have hp := List.find?_some hx
    have hzero : cmp k x.1 = 0 := by simpa using hp
    exact ⟨x.1, hmem, ((hcmp.zero_iff hk (hs.keys x hmem)).mp hzero).symm⟩
  · rintro ⟨k', hmem, hrank⟩
    have hzero : cmp k k' = 0 := (hcmp.zero_iff hk (hs.keys _ hmem)).mpr hrank.symm
    have hsome : (s.find? fun x => cmp k x.1 == 0).isSome := by
      rw [List.find?_isSome]
      exact ⟨(k', v), hmem, by simp [hzero]⟩
    obtain ⟨x, hx⟩ := Option.isSome_iff_exists.mp hsome
    have hxmem := List.mem_of_find?_eq_some hx
    have hxz : cmp k x.1 = 0 := by simpa using List.find?_some hx
    have hxr := (hcmp.zero_iff hk (hs.keys x hxmem)).mp hxz
    have : x = (k', v) := hs.unique hxmem hmem (hxr.symm.trans hrank.symm)
    simp [find?, hx, this]

theorem find?_eq_none_iff (hcmp : Agrees cmp rank P) {k : K} (hk : P k)
    {s : List (K × V)} (hs : Ok rank P s) :
    find? cmp s k = none ↔ ∀ x ∈ s, rank x.1 ≠ rank k := by
  constructor
  · intro h x hx hc
    have := (find?_eq_some_iff hcmp hk (v := x.2) hs).mpr ⟨x.1, hx, hc⟩
    rw [h] at this
    simp at this
  · intro h
    cases hf : find? cmp s k with
    | none => rfl
    | some v =>
        obtain ⟨k', hmem, hrank⟩ := (find?_eq_some_iff hcmp hk hs).mp hf
        exact absurd hrank (h _ hmem)

/-! ### Ranges -/

theorem seek_eq_filter (hcmp : Agrees cmp rank P) {k : K} (hk : P k) :
    ∀ {s : List (K × V)}, Ok rank P s →
      seek cmp s k = s.filter fun x => rank k ≤ rank x.1 := by
  intro s
  induction s with
  | nil => intro _; rfl
  | cons y rest ih =>
      intro hs
      have hy : P y.1 := hs.keys y (by simp)
      by_cases hlt : rank y.1 < rank k
      · have hpos := (hcmp.pos_iff hk hy).mpr hlt
        have hseek : seek cmp (y :: rest) k = seek cmp rest k := by simp [seek, hpos]
        rw [hseek, ih hs.tail, List.filter_cons, if_neg (by simpa using hlt)]
      · have hpos : ¬ 0 < cmp k y.1 := fun hc => hlt ((hcmp.pos_iff hk hy).mp hc)
        have hseek : seek cmp (y :: rest) k = y :: rest := by
          simp only [seek, List.dropWhile_cons]
          rw [if_neg (by simpa using hpos)]
        rw [hseek, eq_comm, List.filter_eq_self]
        intro x hx
        rcases List.mem_cons.mp hx with rfl | hx
        · simpa using hlt
        · simpa using (not_lt.mp hlt).trans (hs.head_lt x hx).le

theorem before_eq_getLast? (hcmp : Agrees cmp rank P) {k : K} (hk : P k) :
    ∀ {s : List (K × V)}, Ok rank P s →
      before cmp s k = (s.filter fun x => rank x.1 < rank k).getLast? := by
  intro s hs
  have key : ∀ {s : List (K × V)}, Ok rank P s →
      (s.takeWhile fun x => 0 < cmp k x.1) = s.filter fun x => rank x.1 < rank k := by
    intro s
    induction s with
    | nil => intro _; rfl
    | cons y rest ih =>
        intro hs
        have hy : P y.1 := hs.keys y (by simp)
        by_cases hlt : rank y.1 < rank k
        · have hpos := (hcmp.pos_iff hk hy).mpr hlt
          rw [List.takeWhile_cons, if_pos (by simpa using hpos), List.filter_cons,
            if_pos (by simpa using hlt), ih hs.tail]
        · have hpos : ¬ 0 < cmp k y.1 := fun hc => hlt ((hcmp.pos_iff hk hy).mp hc)
          rw [List.takeWhile_cons, if_neg (by simpa using hpos), eq_comm, List.filter_eq_nil_iff]
          intro x hx
          rcases List.mem_cons.mp hx with rfl | hx
          · simpa using hlt
          · simpa using (not_lt.mp hlt).trans (hs.head_lt x hx).le
  rw [before, key hs]

theorem takeWhile_eq_filter {α : Type} {R : α → α → Prop} {p : α → Bool} :
    ∀ {l : List α}, l.Pairwise R → (∀ x ∈ l, ∀ y ∈ l, R x y → p y = true → p x = true) →
      l.takeWhile p = l.filter p := by
  intro l
  induction l with
  | nil => intro _ _; rfl
  | cons x rest ih =>
      intro hl hdown
      have ih := ih hl.of_cons fun y hy z hz => hdown y (by simp [hy]) z (by simp [hz])
      by_cases hx : p x = true
      · rw [List.takeWhile_cons, if_pos hx, List.filter_cons, if_pos hx, ih]
      · rw [List.takeWhile_cons, if_neg hx, eq_comm, List.filter_eq_nil_iff]
        intro y hy hpy
        rcases List.mem_cons.mp hy with rfl | hy
        · exact hx hpy
        · exact hx (hdown x (by simp) y (by simp [hy]) (List.rel_of_pairwise_cons hl hy) hpy)

/-- A cursor that starts below a region and stops at its end sees exactly the region. -/
theorem takeWhile_seek (hcmp : Agrees cmp rank P) {k : K} (hk : P k) {s : List (K × V)}
    (hs : Ok rank P s) {p : K × V → Bool} (hlow : ∀ x ∈ s, p x = true → rank k ≤ rank x.1)
    (hdown : ∀ x ∈ s, ∀ y ∈ s, rank k ≤ rank x.1 → rank x.1 < rank y.1 → p y = true → p x = true) :
    (seek cmp s k).takeWhile p = s.filter p := by
  rw [seek_eq_filter hcmp hk hs]
  rw [takeWhile_eq_filter (hs.filter _).sorted]
  · rw [List.filter_filter]
    refine List.filter_congr fun x hx => ?_
    by_cases hpx : p x = true
    · simp [hpx, hlow x hx hpx]
    · simp [hpx]
  · intro x hx y hy hlt hpy
    obtain ⟨hxs, hxk⟩ := List.mem_filter.mp hx
    exact hdown x hxs y (List.mem_filter.mp hy).1 (by simpa using hxk) hlt hpy

/-- A put beyond the last key appends. -/
theorem put_eq_append (hcmp : Agrees cmp rank P) {k : K} (hk : P k) {v : V} {s : List (K × V)}
    (hs : Ok rank P s) (hlast : ∀ x ∈ s, rank x.1 < rank k) : put cmp k v s = s ++ [(k, v)] := by
  refine (put_ok hcmp hk hs).ext ⟨?_, ?_⟩ fun x => ?_
  · intro x hx
    rcases List.mem_append.mp hx with hx | hx
    · exact hs.keys x hx
    · rw [List.mem_singleton.mp hx]; exact hk
  · refine List.pairwise_append.mpr ⟨hs.sorted, List.pairwise_singleton _ _, fun x hx y hy => ?_⟩
    rw [List.mem_singleton.mp hy]
    exact hlast x hx
  · rw [mem_put hcmp hk hs, List.mem_append, List.mem_singleton]
    constructor
    · rintro (h | ⟨h, -⟩)
      · exact Or.inr h
      · exact Or.inl h
    · rintro (h | h)
      · exact Or.inr ⟨h, (hlast x h).ne⟩
      · exact Or.inl h

/-- Entering a pair that is there changes nothing. -/
theorem put_eq_self (hcmp : Agrees cmp rank P) {k : K} {v : V} {s : List (K × V)}
    (hs : Ok rank P s) (hmem : (k, v) ∈ s) : put cmp k v s = s := by
  have hk : P k := hs.keys _ hmem
  refine (put_ok hcmp hk hs).ext hs fun x => ?_
  rw [mem_put hcmp hk hs]
  constructor
  · intro hx
    rcases hx with rfl | ⟨hx, -⟩
    · exact hmem
    · exact hx
  · intro hx
    by_cases hrank : rank x.1 = rank k
    · exact Or.inl (hs.unique hx hmem hrank)
    · exact Or.inr ⟨hx, hrank⟩

/-- The last entry of a sorted map is its greatest. -/
theorem Ok.le_getLast {s : List (K × V)} (hs : Ok rank P s) {y : K × V} (hy : s.getLast? = some y) :
    ∀ x ∈ s, rank x.1 ≤ rank y.1 := by
  intro x hx
  obtain ⟨l, rfl⟩ := List.getLast?_eq_some_iff.mp hy
  rcases List.mem_append.mp hx with hx | hx
  · exact ((List.pairwise_append.mp hs.sorted).2.2 x hx y (by simp)).le
  · rw [List.mem_singleton.mp hx]

/-- The last entry with a property is the greatest with it. -/
theorem Ok.getLast?_filter_eq_some {s : List (K × V)} (hs : Ok rank P s) {p : K × V → Bool}
    {x : K × V} : (s.filter p).getLast? = some x ↔
      x ∈ s ∧ p x = true ∧ ∀ y ∈ s, p y = true → rank y.1 ≤ rank x.1 := by
  constructor
  · intro h
    obtain ⟨hxs, hxp⟩ := List.mem_filter.mp (List.mem_of_getLast? h)
    exact ⟨hxs, hxp, fun y hy hyp => (hs.filter p).le_getLast h y (List.mem_filter.mpr ⟨hy, hyp⟩)⟩
  · rintro ⟨hxs, hxp, hmax⟩
    have hxf : x ∈ s.filter p := List.mem_filter.mpr ⟨hxs, hxp⟩
    have hl := List.getLast?_eq_some_getLast (List.ne_nil_of_mem hxf)
    obtain ⟨hys, hyp⟩ := List.mem_filter.mp (List.mem_of_getLast? hl)
    have hle := (hs.filter p).le_getLast hl x hxf
    rw [hl, hs.unique hys hxs (le_antisymm (hmax _ hys hyp) hle)]

/-! ### Many puts -/

theorem puts_ok (hcmp : Agrees cmp rank P) {xs : List (K × V)} (hxs : ∀ x ∈ xs, P x.1) :
    ∀ {s : List (K × V)}, Ok rank P s → Ok rank P (puts cmp s xs) := by
  induction xs with
  | nil => intro s hs; exact hs
  | cons x rest ih =>
      intro s hs
      exact ih (fun y hy => hxs y (by simp [hy])) (put_ok hcmp (hxs x (by simp)) hs)

/-- A key that is none of those put has what it had. -/
theorem mem_puts_of_ne (hcmp : Agrees cmp rank P) {xs : List (K × V)} (hxs : ∀ x ∈ xs, P x.1)
    {x : K × V} (hx : ∀ y ∈ xs, rank x.1 ≠ rank y.1) :
    ∀ {s : List (K × V)}, Ok rank P s → (x ∈ puts cmp s xs ↔ x ∈ s) := by
  induction xs with
  | nil => intro s _; rfl
  | cons y rest ih =>
      intro s hs
      have hy := hxs y (by simp)
      have hrest := ih (fun z hz => hxs z (by simp [hz])) (fun z hz => hx z (by simp [hz]))
        (put_ok (v := y.2) hcmp hy hs)
      show x ∈ puts cmp (put cmp y.1 y.2 s) rest ↔ _
      rw [hrest, mem_put hcmp hy hs]
      have hne : rank x.1 ≠ rank y.1 := hx y (by simp)
      constructor
      · rintro (rfl | ⟨h, -⟩)
        · exact absurd rfl hne
        · exact h
      · exact fun h => Or.inr ⟨h, hne⟩

omit [LinearOrder L] in
theorem eq_of_pairwise_ne {xs : List (K × V)} (h : xs.Pairwise fun x y => rank x.1 ≠ rank y.1) :
    ∀ x ∈ xs, ∀ y ∈ xs, rank x.1 = rank y.1 → x = y := by
  have : Std.Symm fun x y : K × V => rank x.1 ≠ rank y.1 := ⟨fun _ _ h => h.symm⟩
  intro x hx y hy hc
  by_contra hne
  exact h.forall hx hy hne hc

/-- Pairs of which no two have one key and different data are all there afterwards. -/
theorem mem_puts_of_mem (hcmp : Agrees cmp rank P) {xs : List (K × V)} (hxs : ∀ x ∈ xs, P x.1)
    (hone : ∀ x ∈ xs, ∀ y ∈ xs, rank x.1 = rank y.1 → x = y) {x : K × V} (hx : x ∈ xs) :
    ∀ {s : List (K × V)}, Ok rank P s → x ∈ puts cmp s xs := by
  induction xs with
  | nil => exact absurd hx List.not_mem_nil
  | cons y rest ih =>
      intro s hs
      have hy := hxs y (by simp)
      have hrest : ∀ z ∈ rest, P z.1 := fun z hz => hxs z (by simp [hz])
      have hok : Ok rank P (put cmp y.1 y.2 s) := put_ok hcmp hy hs
      show x ∈ puts cmp (put cmp y.1 y.2 s) rest
      by_cases hmem : x ∈ rest
      · refine ih hrest (fun a ha b hb => ?_) hmem hok
        exact hone a (by simp [ha]) b (by simp [hb])
      · -- it is put here, and nothing after it has its key
        have hxy : x = y := (List.mem_cons.mp hx).resolve_right hmem
        subst hxy
        rw [mem_puts_of_ne hcmp hrest (fun z hz hc => hmem ?_) hok, mem_put hcmp hy hs]
        · exact Or.inl rfl
        · rw [hone x (by simp) z (by simp [hz]) hc]
          exact hz

/-- Pairs with new keys, all different, are all there afterwards, and nothing is lost. -/
theorem mem_puts (hcmp : Agrees cmp rank P) {xs : List (K × V)} (hxs : ∀ x ∈ xs, P x.1)
    (hdiff : xs.Pairwise fun x y => rank x.1 ≠ rank y.1) {s : List (K × V)} (hs : Ok rank P s)
    (hnew : ∀ x ∈ s, ∀ y ∈ xs, rank x.1 ≠ rank y.1) (x : K × V) :
    x ∈ puts cmp s xs ↔ x ∈ s ∨ x ∈ xs := by
  refine ⟨mem_of_mem_puts, ?_⟩
  rintro (h | h)
  · exact (mem_puts_of_ne hcmp hxs (hnew x h) hs).mpr h
  · exact mem_puts_of_mem hcmp hxs (eq_of_pairwise_ne hdiff) h hs

/-- **The order of puts does not matter** where no two have one key and different data. -/
theorem puts_perm (hcmp : Agrees cmp rank P) {xs ys : List (K × V)} (hperm : xs.Perm ys)
    (hxs : ∀ x ∈ xs, P x.1) (hone : ∀ x ∈ xs, ∀ y ∈ xs, rank x.1 = rank y.1 → x = y)
    {s : List (K × V)} (hs : Ok rank P s) : puts cmp s xs = puts cmp s ys := by
  have hys : ∀ y ∈ ys, P y.1 := fun y hy => hxs y (hperm.mem_iff.mpr hy)
  refine Ok.ext (puts_ok hcmp hxs hs) (puts_ok hcmp hys hs) fun x => ?_
  by_cases hx : ∃ y ∈ xs, rank x.1 = rank y.1
  · obtain ⟨y, hy, hxy⟩ := hx
    have hone' : ∀ x ∈ ys, ∀ y ∈ ys, rank x.1 = rank y.1 → x = y := fun a ha b hb =>
      hone a (hperm.mem_iff.mpr ha) b (hperm.mem_iff.mpr hb)
    have h1 := mem_puts_of_mem hcmp hxs hone hy hs
    have h2 := mem_puts_of_mem hcmp hys hone' (hperm.mem_iff.mp hy) hs
    constructor
    · intro h
      rw [(puts_ok hcmp hxs hs).unique h h1 hxy]
      exact h2
    · intro h
      rw [(puts_ok hcmp hys hs).unique h h2 hxy]
      exact h1
  · push Not at hx
    rw [mem_puts_of_ne hcmp hxs hx hs,
      mem_puts_of_ne hcmp hys (fun y hy => hx y (hperm.mem_iff.mpr hy)) hs]

end Lawful

end OrderedMap
