/-
What of a stream becomes requests.

A read is done at CR LF, but a line ends at LF.  So every byte that arrives is in a
line that was dispatched, or still in the inbox, and the lines are the stream cut at
every LF; they are the segments of the stream only while no segment has an LF of its
own.  `argument` in turn is a C string, so a segment is only handed over whole if it
has no NUL after the command.

The lines go to the server through its `receive` events, and so each has one reply.
-/
import Nstore.Framing
import Nstore.Proofs.Exchange
import Mathlib.Data.List.TakeWhile

namespace Nstore

open Machine Delimited

/-! ### Buffers -/

theorem hasEol_eq_false {data : Bytes} : hasEol data = false ↔ segments 13 10 data = [] := by
  rw [segments_eq_nil_iff, hasEol, decide_eq_false_iff_not]

/-- A buffer with an LF is its first line, the LF and the rest. -/
theorem getline_split {data : Bytes} (h : 10 ∈ data) :
    data = (getline data).1 ++ 10 :: (getline data).2 ∧ 10 ∉ (getline data).1 := by
  induction data with
  | nil => exact absurd h List.not_mem_nil
  | cons b data ih =>
      by_cases hb : b = 10
      · simp [getline, hb]
      · obtain ⟨hsplit, hline⟩ := ih ((List.mem_cons.mp h).resolve_left fun hc => hb hc.symm)
        have hget : getline (b :: data) = (b :: (getline data).1, (getline data).2) := by
          simp [getline, hb]
        rw [hget]
        refine ⟨?_, ?_⟩
        · rw [List.cons_append, ← hsplit]
        · rw [List.mem_cons, not_or]
          exact ⟨fun hc => hb hc.symm, hline⟩

theorem mem_of_hasEol {data : Bytes} (h : hasEol data = true) : 10 ∈ data := by
  have hinfix : [13, 10] <:+: data := of_decide_eq_true h
  exact hinfix.subset (by simp)

/-! ### Requests of lines and of segments -/

theorem stripCr_concat (bs : Bytes) : stripCr (bs ++ [13]) = bs := by
  simp [stripCr]

/-- A C string is handed over whole if it has no NUL. -/
theorem stripCr_takeWhile_iff (rest : Bytes) :
    stripCr ((rest ++ [13]).takeWhile (· ≠ 0)) = rest ↔ 0 ∉ rest := by
  refine ⟨?_, ?_⟩
  · intro h hnul
    -- what is before the first NUL has none
    have hmem : (0 : UInt8) ∈ stripCr ((rest ++ [13]).takeWhile (· ≠ 0)) := by rwa [h]
    have htake : (0 : UInt8) ∈ (rest ++ [13]).takeWhile (· ≠ 0) := by
      unfold stripCr at hmem
      split at hmem
      · exact List.mem_of_mem_dropLast hmem
      · exact hmem
    exact absurd (List.mem_takeWhile_imp htake) (by simp)
  · intro hnul
    have hall : ∀ x ∈ rest ++ [13], (decide (x ≠ 0)) = true := by
      intro x hx
      rcases List.mem_append.mp hx with hx | hx
      · exact decide_eq_true fun hc => hnul (hc ▸ hx)
      · rw [List.mem_singleton.mp hx]
        rfl
    rw [List.takeWhile_eq_self_iff.mpr hall, stripCr_concat]

theorem Command.withArgument_inj {arg arg' : Bytes} (command : Command) :
    command.withArgument arg = command.withArgument arg' ↔ command = .unknown ∨ arg = arg' := by
  cases command <;> simp [withArgument]

/-- A segment asks for what its line is taken for if its argument has no NUL, or is not looked at. -/
theorem requestOf_concat_iff (seg : Bytes) :
    requestOf (seg ++ [13]) = (Command.ofLine seg).withArgument (seg.drop 1) ↔
      Command.ofLine seg = .unknown ∨ 0 ∉ seg.drop 1 := by
  have hcommand : Command.ofLine (seg ++ [13]) = Command.ofLine seg := by
    cases seg with
    | nil => rfl
    | cons b rest => rfl
  rw [requestOf, hcommand, Session.argument_eq, argumentOf, Command.withArgument_inj]
  cases seg with
  | nil => simp [Command.ofLine]
  | cons b rest =>
      rw [List.cons_append, List.drop_succ_cons, List.drop_succ_cons, List.drop_zero,
        List.drop_zero, stripCr_takeWhile_iff]

/-! ### Events -/

/-- An event that is not the end of the session's socket. -/
def WireEvent.Spares (s : Nat) : WireEvent → Prop
  | .other e => Server.Event.Spares s e
  | _ => True

/-- A step of the server, as opposed to a client or the network. -/
def WireEvent.OfServer : WireEvent → Prop
  | .arrive _ _ => False
  | .other e => Server.Event.OfThread e
  | _ => True

theorem WireEvent.OfServer.spares {s : Nat} {e : WireEvent} (he : e.OfServer) : e.Spares s := by
  cases e with
  | arrive i bs => exact he.elim
  | other e => exact Server.Event.OfThread.spares he
  | _ => trivial

theorem arrived_ofServer {s : Nat} {es ts : List WireEvent} (hts : ∀ t ∈ ts, t.OfServer) :
    arrived s (es ++ ts) = arrived s es := by
  unfold arrived
  rw [List.flatMap_append, List.append_right_eq_self, List.flatMap_eq_nil_iff]
  intro t ht
  cases t with
  | arrive i bs => exact (hts _ ht).elim
  | _ => rfl

namespace Wired

/-- Nothing is left to be read. -/
def AtRest (w : Wired) (s : Nat) : Prop :=
  (w.inbox s).socket = [] ∧ hasEol (w.inbox s).data = false

variable {libs : Libs} {st : Store} {w : Wired} {s : Nat} {es : List WireEvent} {e : WireEvent}

/-! ### The server in a wired server -/

theorem run_server (libs : Libs) (es : List WireEvent) : ∀ w : Wired,
    (run (step libs) w es).server =
      run (Server.step libs) w.server (record (step libs) events w es) := by
  induction es with
  | nil => intro w; rfl
  | cons e es ih =>
      intro w
      rw [record, run_append]
      exact ih (w.step libs e)

theorem completes_iff : w.completes s ↔
    (w.server.sessions s).reads ≠ 0 ∧ hasEol (w.inbox s).data = true := by
  simp [completes]

/-- The lines dispatched for a session in a run. -/
def lines (libs : Libs) (st : Store) (s : Nat) (es : List WireEvent) : List Bytes :=
  record (Server.step libs) (Server.requests s) (.init st) (serverRun libs st es)

/-- The line an event dispatches for a session. -/
def lineNow (w : Wired) (s : Nat) : WireEvent → List Bytes
  | .complete i => if s = i ∧ w.completes s then [(getline (w.inbox s).data).1] else []
  | _ => []

/-- Lines only come from completed reads. -/
theorem requests_events (libs : Libs) :
    record (Server.step libs) (Server.requests s) w.server (w.events e) = w.lineNow s e := by
  cases e with
  | complete i =>
      simp only [events, lineNow]
      by_cases hc : w.completes i
      · have hreads := (completes_iff.mp hc).1
        rw [if_pos hc]
        by_cases hs : s = i
        · subst hs
          simp [record, Server.requests, hreads, hc]
        · simp [record, Server.requests, hs]
      · rw [if_neg hc, if_neg]
        · rfl
        · intro h
          exact hc (h.1 ▸ h.2)
  | other e =>
      cases e with
      | readError i =>
          simp only [events, lineNow]
          split <;> rfl
      | _ => rfl
  | _ => rfl

private theorem lineNow_cases (w : Wired) (s : Nat) (e : WireEvent) : w.lineNow s e = [] ∨
    e = .complete s ∧ hasEol (w.inbox s).data = true ∧
      w.lineNow s e = [(getline (w.inbox s).data).1] := by
  cases e with
  | complete i =>
      by_cases hc : s = i ∧ w.completes s
      · refine Or.inr ⟨by rw [hc.1], (completes_iff.mp hc.2).2, ?_⟩
        simp only [lineNow]
        rw [if_pos hc]
      · refine Or.inl ?_
        simp only [lineNow]
        rw [if_neg hc]
  | _ => exact Or.inl rfl

theorem lines_concat (libs : Libs) (st : Store) (s : Nat) (es : List WireEvent) (e : WireEvent) :
    lines libs st s (es ++ [e]) =
      lines libs st s es ++ (run (step libs) (init st) es).lineNow s e := by
  unfold lines serverRun
  rw [record_concat, record_append]
  congr 1
  have hserver := run_server libs es (init st)
  rw [← requests_events libs, hserver]
  rfl

/-! ### Accounting -/

/-- What a session has received and not read. -/
def pending (w : Wired) (s : Nat) : Bytes := (w.inbox s).data ++ (w.inbox s).socket

/-- No step loses a byte, or makes one up. -/
theorem account_step (libs : Libs) (w : Wired) (s : Nat) (e : WireEvent) :
    (w.lineNow s e).flatMap (· ++ [10]) ++ (w.step libs e).pending s =
        w.pending s ++ e.bytes s ∧
      ∀ line ∈ w.lineNow s e, 10 ∉ line := by
  unfold pending
  cases e with
  | arrive i bs =>
      by_cases hs : s = i
      · simp [lineNow, step, inboxAfter, WireEvent.bytes, hs]
      · simp [lineNow, step, inboxAfter, WireEvent.bytes, hs]
  | readSome i n =>
      simp only [lineNow, step, inboxAfter, WireEvent.bytes]
      by_cases hs : s = i ∧ w.waits s
      · rw [if_pos hs]
        simp
      · rw [if_neg hs]
        simp
  | complete i =>
      by_cases hs : s = i ∧ w.completes s
      · have heol := (completes_iff.mp hs.2).2
        obtain ⟨hsplit, hline⟩ := getline_split (mem_of_hasEol heol)
        simp only [lineNow, step, inboxAfter, WireEvent.bytes, if_pos hs, List.append_nil]
        refine ⟨?_, by simpa using hline⟩
        conv_rhs => rw [hsplit]
        simp
      · simp only [lineNow, step, inboxAfter, WireEvent.bytes, if_neg hs]
        simp
  | other e => simp [lineNow, step, inboxAfter, WireEvent.bytes]

theorem arrived_concat (s : Nat) (es : List WireEvent) (e : WireEvent) :
    arrived s (es ++ [e]) = arrived s es ++ e.bytes s := by
  simp [arrived]

/-- **The lines dispatched, each with its LF, and what is pending are the stream received.** -/
theorem run_account (libs : Libs) (st : Store) (s : Nat) (es : List WireEvent) :
    (lines libs st s es).flatMap (· ++ [10]) ++ (run (step libs) (init st) es).pending s =
        arrived s es ∧
      ∀ line ∈ lines libs st s es, 10 ∉ line := by
  induction es using List.reverseRecOn with
  | nil => exact ⟨rfl, fun line h => absurd h List.not_mem_nil⟩
  | append_singleton es e ih =>
      obtain ⟨hbytes, hlines⟩ := ih
      obtain ⟨hstep, hline⟩ := account_step libs (run (step libs) (init st) es) s e
      rw [lines_concat, arrived_concat, run_concat]
      refine ⟨?_, ?_⟩
      · rw [List.flatMap_append, List.append_assoc, hstep, ← List.append_assoc, hbytes]
      · intro line h
        rcases List.mem_append.mp h with h | h
        · exact hlines line h
        · exact hline line h

/-! ### Streams whose segments are lines -/

theorem flatMap_map_concat (segs : List Bytes) :
    (segs.map (· ++ [13])).flatMap (· ++ [10]) = segs.flatMap (· ++ [13, 10]) := by
  rw [List.flatMap_map]
  congr 1
  funext seg
  simp

/-- A line that ends no segment is in front of the first segment that comes. -/
theorem line_ends {line rest : Bytes} (hline : 10 ∉ line)
    (heol : segments 13 10 (line ++ 10 :: rest) ≠ [])
    (hclean : ∀ seg ∈ segments 13 10 (line ++ 10 :: rest), 10 ∉ seg) :
    line.getLast? = some 13 := by
  by_contra hend
  have hfrom : segments 13 10 (line ++ 10 :: rest) = segmentsFrom 13 10 (line ++ [10]) rest := by
    rw [segments, segmentsFrom_line hline, List.nil_append, if_neg hend]
  obtain ⟨seg, segs, hsegs⟩ := List.exists_cons_of_ne_nil heol
  have hfront : line ++ [10] <+: seg :=
    head_segmentsFrom rest (line ++ [10]) (by simp) (hfrom ▸ hsegs)
  have hmem : (10 : UInt8) ∈ seg := hfront.subset (by simp)
  exact hclean seg (hsegs ▸ List.mem_cons_self) hmem

/-- If a read is done where no segment has an LF, the line it takes is a segment. -/
theorem getline_eq_concat {data socket : Bytes} (heol : hasEol data = true)
    (hclean : ∀ seg ∈ segments 13 10 (data ++ socket), 10 ∉ seg) :
    ∃ seg, (getline data).1 = seg ++ [13] := by
  obtain ⟨hsplit, hline⟩ := getline_split (mem_of_hasEol heol)
  have hall : data ++ socket = (getline data).1 ++ 10 :: ((getline data).2 ++ socket) := by
    conv_lhs => rw [hsplit]
    simp
  apply List.getLast?_eq_some_iff.mp
  apply line_ends hline
  · rw [← hall]
    intro hnil
    have hdata : segments 13 10 data = [] :=
      List.prefix_nil.mp (hnil ▸ segments_append data socket)
    rw [hasEol_eq_false.mpr hdata] at heol
    exact absurd heol (by simp)
  · rwa [← hall]

/-- **While no segment has an LF of its own, the lines are the segments, each with its CR.** -/
theorem run_lines_segments (libs : Libs) (st : Store) (s : Nat) (es : List WireEvent)
    (hclean : ∀ seg ∈ segments 13 10 (arrived s es), 10 ∉ seg) :
    ∃ segs, lines libs st s es = segs.map (· ++ [13]) ∧
      segments 13 10 (arrived s es) =
        segs ++ segments 13 10 ((run (step libs) (init st) es).pending s) := by
  have hfound : ∀ es segs, lines libs st s es = segs.map (· ++ [13]) →
      segments 13 10 (arrived s es) =
        segs ++ segments 13 10 ((run (step libs) (init st) es).pending s) := by
    intro es segs hsegs
    obtain ⟨hbytes, hlines⟩ := run_account libs st s es
    rw [← hbytes, hsegs, flatMap_map_concat]
    apply segments_flatMap
    · intro seg hseg hmem
      exact hlines (seg ++ [13]) (hsegs ▸ List.mem_map_of_mem hseg) (List.mem_append_left _ hmem)
    · decide
  suffices h : ∃ segs : List Bytes, lines libs st s es = segs.map (· ++ [13]) by
    obtain ⟨segs, hsegs⟩ := h
    exact ⟨segs, hsegs, hfound es segs hsegs⟩
  induction es using List.reverseRecOn with
  | nil => exact ⟨[], rfl⟩
  | append_singleton es e ih =>
      have hmono := segments_append (c := 13) (l := 10) (arrived s es) (e.bytes s)
      rw [← arrived_concat] at hmono
      obtain ⟨segs, hsegs⟩ := ih fun seg hseg => hclean seg (hmono.subset hseg)
      rw [lines_concat, hsegs]
      obtain hnow | ⟨rfl, heol, hnow⟩ := lineNow_cases (run (step libs) (init st) es) s e
      · exact ⟨segs, by rw [hnow, List.append_nil]⟩
      · -- a read is done, so what is pending has a segment
        have hpending := hfound es segs hsegs
        obtain ⟨seg, hseg⟩ := getline_eq_concat heol fun seg hseg =>
          hclean seg (hmono.subset (hpending ▸ List.mem_append_right _ hseg))
        exact ⟨segs ++ [seg], by rw [hnow, hseg, List.map_append, List.map_singleton]⟩

/-! ### Reading to the end -/

theorem spares_events (he : e.Spares s) : ∀ t ∈ w.events e, Server.Event.Spares s t := by
  intro t ht
  cases e with
  | arrive i bs => exact absurd ht List.not_mem_nil
  | readSome i n => exact absurd ht List.not_mem_nil
  | complete i =>
      simp only [events] at ht
      split at ht
      · rw [List.mem_singleton.mp ht]
        trivial
      · exact absurd ht List.not_mem_nil
  | other e =>
      cases e with
      | receive i line => exact absurd ht List.not_mem_nil
      | readError i =>
          simp only [events] at ht
          split at ht
          · rw [List.mem_singleton.mp ht]
            exact he
          · exact absurd ht List.not_mem_nil
      | _ =>
          rw [List.mem_singleton.mp ht]
          exact he

private theorem spares_record (libs : Libs) (es : List WireEvent) : ∀ w : Wired,
    (∀ e ∈ es, e.Spares s) → ∀ t ∈ record (step libs) events w es, Server.Event.Spares s t := by
  induction es with
  | nil => intro w _ t ht; exact absurd ht List.not_mem_nil
  | cons e es ih =>
      intro w hes t ht
      rcases List.mem_append.mp ht with ht | ht
      · exact spares_events (hes e List.mem_cons_self) t ht
      · exact ih _ (fun e' he' => hes e' (List.mem_cons_of_mem _ he')) t ht

/-- The lines of a wired server are answered in turn, as those of any server. -/
theorem run_inTurn (libs : Libs) (st : Store) (s : Nat) (es : List WireEvent)
    (hes : ∀ e ∈ es, e.Spares s) :
    Server.InTurn libs (Server.StoreAlong libs st (serverRun libs st es)) s
      (lines libs st s es) (run (step libs) (init st) es).server := by
  rw [run_server]
  exact Server.run_inTurn libs st s (serverRun libs st es) (spares_record libs es (init st) hes)

theorem nextUid_le_run (libs : Libs) (es : List WireEvent) (w : Wired) :
    w.server.nextUid ≤ (run (step libs) w es).server.nextUid := by
  rw [run_server]
  exact Server.nextUid_le_run libs _ _

theorem started_append (libs : Libs) (st : Store) (es ts : List WireEvent)
    (hs : s < (run (step libs) (init st) es).server.nextUid) :
    s < (run (step libs) (init st) (es ++ ts)).server.nextUid := by
  rw [run_append]
  exact hs.trans_le (nextUid_le_run libs ts _)

private theorem run_threads (libs : Libs) : ∀ (ts : List Server.Event) (w : Wired),
    (∀ t ∈ ts, Server.Event.OfThread t) →
    run (step libs) w (ts.map .other) =
      { w with server := run (Server.step libs) w.server ts } := by
  intro ts
  induction ts with
  | nil => intro w _; rfl
  | cons t ts ih =>
      intro w hts
      have hone : w.events (.other t) = [t] := by
        have ht := hts t List.mem_cons_self
        cases t with
        | receive i line => exact ht.elim
        | readError i => exact ht.elim
        | _ => rfl
      have hstep : w.step libs (.other t) = { w with server := w.server.step libs t } := by
        unfold step
        rw [hone]
        rfl
      have hrun := ih (w.step libs (.other t)) fun t' ht' => hts t' (List.mem_cons_of_mem _ ht')
      rw [hstep] at hrun
      exact (congrArg (fun w => run (step libs) w (ts.map .other)) hstep).trans hrun

/-- The threads can be run until every line is answered, and no byte is read meanwhile. -/
theorem exists_idle (libs : Libs) (w : Wired) : ∃ ts, (∀ t ∈ ts, WireEvent.OfServer t) ∧
    (run (step libs) w ts).inbox = w.inbox ∧ (run (step libs) w ts).server.work = 0 := by
  obtain ⟨ts, hts, hidle⟩ := Server.exists_drain libs w.server.work w.server le_rfl
  refine ⟨ts.map .other, ?_, ?_⟩
  · intro t ht
    obtain ⟨t', ht', rfl⟩ := List.mem_map.mp ht
    exact hts t' ht'
  · rw [run_threads libs ts w hts]
    exact ⟨rfl, hidle⟩

/-- What there is to do until nothing is left to be read. -/
def unread (w : Wired) (s : Nat) : Nat := (w.pending s).length + (w.inbox s).socket.length

/-- A read that is armed can go on, or nothing is left to be read. -/
theorem exists_unread_lt (libs : Libs) (hreads : (w.server.sessions s).reads ≠ 0) :
    w.AtRest s ∨ ∃ e, WireEvent.OfServer e ∧ (w.step libs e).unread s < w.unread s := by
  unfold unread pending
  by_cases heol : hasEol (w.inbox s).data = true
  · refine Or.inr ⟨.complete s, trivial, ?_⟩
    obtain ⟨hsplit, -⟩ := getline_split (mem_of_hasEol heol)
    have hinbox : (w.step libs (.complete s)).inbox s =
        { w.inbox s with data := (getline (w.inbox s).data).2 } :=
      if_pos ⟨rfl, completes_iff.mpr ⟨hreads, heol⟩⟩
    have hlen := congrArg List.length hsplit
    rw [hinbox]
    simp only [List.length_append, List.length_cons] at hlen ⊢
    omega
  · by_cases hsocket : (w.inbox s).socket = []
    · exact Or.inl ⟨hsocket, by simpa using heol⟩
    · refine Or.inr ⟨.readSome s (w.inbox s).socket.length, trivial, ?_⟩
      have hinbox : (w.step libs (.readSome s (w.inbox s).socket.length)).inbox s =
          { socket := (w.inbox s).socket.drop (w.inbox s).socket.length,
            data := (w.inbox s).data ++ (w.inbox s).socket.take (w.inbox s).socket.length } :=
        if_pos ⟨rfl, by simp [waits, hreads, heol]⟩
      have hpos := List.length_pos_of_ne_nil hsocket
      rw [hinbox]
      simp only [List.drop_length, List.take_length, List.length_append, List.length_nil]
      omega

theorem spares_append {es ts : List WireEvent} (hes : ∀ e ∈ es, e.Spares s)
    (hts : ∀ t ∈ ts, WireEvent.OfServer t) : ∀ e ∈ es ++ ts, e.Spares s := by
  intro e he
  rcases List.mem_append.mp he with he | he
  · exact hes e he
  · exact (hts e he).spares

/-- **The server can read everything that has arrived, and answer it.** -/
theorem exists_atRest (libs : Libs) (st : Store) (s : Nat) : ∀ (n : Nat) (es : List WireEvent),
    (∀ e ∈ es, e.Spares s) → s < (run (step libs) (init st) es).server.nextUid →
    (run (step libs) (init st) es).unread s = n →
    ∃ ts, (∀ t ∈ ts, WireEvent.OfServer t) ∧
      (run (step libs) (init st) (es ++ ts)).AtRest s ∧
      (run (step libs) (init st) (es ++ ts)).server.work = 0 := by
  intro n
  induction n using Nat.strong_induction_on with
  | _ n ih =>
      intro es hes hs hn
      -- first the threads write what is due, so that a read is armed
      obtain ⟨ts, hts, hinbox, hidle⟩ := exists_idle libs (run (step libs) (init st) es)
      have hstarted := started_append libs st es ts hs
      rw [← run_append] at hinbox hidle
      have hall := spares_append hes hts
      have hturn := run_inTurn libs st s (es ++ ts) hall
      have hreads := (hturn.answered_of_idle hstarted hidle).1
      obtain hrest | ⟨e, he, hlt⟩ := exists_unread_lt (s := s) libs
        (w := run (step libs) (init st) (es ++ ts)) (by omega)
      · exact ⟨ts, hts, hrest, hidle⟩
      · have hunread : (run (step libs) (init st) (es ++ ts)).unread s = n := by
          rw [← hn]
          unfold unread pending
          rw [hinbox]
        have hless : (run (step libs) (init st) (es ++ ts ++ [e])).unread s < n := by
          rw [run_concat, ← hunread]
          exact hlt
        have hone : ∀ t ∈ [e], WireEvent.OfServer t := by
          intro t ht
          rwa [List.mem_singleton.mp ht]
        obtain ⟨us, hus, hrest, hdone⟩ := ih _ hless (es ++ ts ++ [e]) (spares_append hall hone)
          (started_append libs st (es ++ ts) [e] hstarted) rfl
        refine ⟨ts ++ [e] ++ us, ?_, ?_⟩
        · intro t ht
          rcases List.mem_append.mp ht with ht | ht
          · rcases List.mem_append.mp ht with ht | ht
            · exact hts t ht
            · exact hone t ht
          · exact hus t ht
        · simp only [List.append_assoc] at hrest hdone ⊢
          exact ⟨hrest, hdone⟩

/-! ### Framing -/

/-- The requests dispatched for a session in a run. -/
def dispatched (libs : Libs) (st : Store) (s : Nat) (es : List WireEvent) :
    List (Command × Bytes) :=
  (lines libs st s es).map requestOf

/--
The stream is framed at CR LF: however it arrives, the requests dispatched are its
segments, in order and once each, as far as they were read; if nothing is left to be
read, they are all of them; and if the socket of the session works, the server can go
on to where all of them are dispatched and each has its reply.
-/
def FramedExactly (libs : Libs) (st : Store) (s : Nat) (stream : Bytes) : Prop :=
  ∀ es, arrived s es = stream →
    dispatched libs st s es <+: requestsIn stream ∧
    ((run (step libs) (init st) es).AtRest s → dispatched libs st s es = requestsIn stream) ∧
    ((∀ e ∈ es, e.Spares s) → s < (run (step libs) (init st) es).server.nextUid →
      ∃ ts, (∀ t ∈ ts, WireEvent.OfServer t) ∧
        dispatched libs st s (es ++ ts) = requestsIn stream ∧
        ((run (step libs) (init st) (es ++ ts)).server.sessions s).replies.length =
          (requestsIn stream).length)

/-- No segment has an LF of its own, or a NUL in the argument of a command. -/
def Clean (stream : Bytes) : Prop :=
  ∀ seg ∈ segments 13 10 stream, 10 ∉ seg ∧ (Command.ofLine seg = .unknown ∨ 0 ∉ seg.drop 1)

/-- In a clean stream what was dispatched are the segments, up to those still pending. -/
theorem dispatched_of_clean (libs : Libs) (st : Store) (hclean : Clean (arrived s es)) :
    requestsIn (arrived s es) = dispatched libs st s es ++
      requestsIn ((run (step libs) (init st) es).pending s) := by
  obtain ⟨segs, hlines, hsegs⟩ :=
    run_lines_segments libs st s es fun seg hseg => (hclean seg hseg).1
  have hsame : dispatched libs st s es =
      segs.map fun seg => (Command.ofLine seg).withArgument (seg.drop 1) := by
    rw [dispatched, hlines, List.map_map]
    apply List.map_congr_left
    intro seg hseg
    apply (requestOf_concat_iff seg).mpr
    exact (hclean seg (hsegs ▸ List.mem_append_left _ hseg)).2
  rw [hsame, requestsIn, hsegs, List.map_append]
  rfl

theorem AtRest.requestsIn_pending (h : w.AtRest s) : requestsIn (w.pending s) = [] := by
  rw [requestsIn, pending, h.1, List.append_nil, hasEol_eq_false.mp h.2, List.map_nil]

private theorem framedExactly_of_clean {stream : Bytes} (hclean : Clean stream) :
    FramedExactly libs st s stream := by
  intro es hes
  subst hes
  have hsplit := dispatched_of_clean libs st hclean
  refine ⟨?_, ?_, ?_⟩
  · exact ⟨_, hsplit.symm⟩
  · intro hrest
    rw [hsplit, hrest.requestsIn_pending, List.append_nil]
  · intro hspares hs
    obtain ⟨ts, hts, hrest, hidle⟩ := exists_atRest libs st s _ es hspares hs rfl
    have hstream : arrived s (es ++ ts) = arrived s es := arrived_ofServer hts
    have hall := dispatched_of_clean libs st (hstream.symm ▸ hclean)
    rw [hstream, hrest.requestsIn_pending, List.append_nil] at hall
    refine ⟨ts, hts, hall.symm, ?_⟩
    have hstarted := started_append libs st es ts hs
    have hturn := run_inTurn libs st s (es ++ ts) (spares_append hspares hts)
    obtain ⟨-, hreplies⟩ := hturn.answered_of_idle hstarted hidle
    rw [hall, dispatched, List.length_map, hreplies.length_eq]

/-- If there is a segment for every line, every line is a segment with its CR. -/
theorem lines_of_length {ls : List Bytes} {rest : Bytes} (hls : ∀ line ∈ ls, 10 ∉ line)
    (hrest : segments 13 10 rest = [])
    (hlen : ls.length = (segments 13 10 (ls.flatMap (· ++ [10]) ++ rest)).length) :
    ∃ segs, ls = segs.map (· ++ [13]) ∧ (∀ seg ∈ segs, 10 ∉ seg) ∧
      segments 13 10 (ls.flatMap (· ++ [10]) ++ rest) = segs := by
  rw [length_segments_lines (by decide) hls, hrest, List.length_nil, Nat.add_zero] at hlen
  have hends := List.countP_eq_length.mp hlen.symm
  have hsegs : ls = (ls.map List.dropLast).map (· ++ [13]) := by
    rw [List.map_map]
    conv_lhs => rw [← List.map_id ls]
    apply List.map_congr_left
    intro line hline
    obtain ⟨seg, rfl⟩ := List.getLast?_eq_some_iff.mp (of_decide_eq_true (hends line hline))
    simp
  have hfree : ∀ seg ∈ ls.map List.dropLast, 10 ∉ seg := by
    intro seg hseg hmem
    obtain ⟨line, hline, rfl⟩ := List.mem_map.mp hseg
    exact hls line hline (List.mem_of_mem_dropLast hmem)
  refine ⟨ls.map List.dropLast, hsegs, hfree, ?_⟩
  conv_lhs => rw [hsegs, flatMap_map_concat]
  rw [segments_flatMap hfree (by decide), hrest, List.append_nil]

/-- The session is started, and then the stream arrives in one chunk. -/
def oneChunk (s : Nat) (stream : Bytes) : List WireEvent :=
  List.replicate (s + 1) (.other .accept) ++ [.arrive s stream]

private theorem arrived_oneChunk (s : Nat) (stream : Bytes) :
    arrived s (oneChunk s stream) = stream := by
  have hnone : arrived s (List.replicate (s + 1) (.other .accept)) = [] := by
    apply List.flatMap_eq_nil_iff.mpr
    intro e he
    rw [List.eq_of_mem_replicate he]
    rfl
  rw [oneChunk, arrived_concat, hnone]
  exact if_pos rfl

private theorem spares_oneChunk (s : Nat) (stream : Bytes) :
    ∀ e ∈ oneChunk s stream, e.Spares s := by
  intro e he
  rcases List.mem_append.mp he with he | he
  · rw [List.eq_of_mem_replicate he]
    trivial
  · rw [List.mem_singleton.mp he]
    trivial

private theorem started_oneChunk (libs : Libs) (st : Store) (s : Nat) (stream : Bytes) :
    s < (run (step libs) (init st) (oneChunk s stream)).server.nextUid := by
  have haccepts : ∀ n,
      (run (step libs) (init st) (List.replicate n (.other .accept))).server.nextUid = n := by
    intro n
    induction n with
    | zero => rfl
    | succ n ih =>
        rw [List.replicate_succ', run_concat]
        exact congrArg (· + 1) ih
  apply started_append
  rw [haccepts]
  exact Nat.lt_succ_self s

/-- There is a run after which nothing of the stream is left to be read. -/
theorem exists_run_atRest (libs : Libs) (st : Store) (s : Nat) (stream : Bytes) :
    ∃ es, arrived s es = stream ∧ (run (step libs) (init st) es).AtRest s := by
  obtain ⟨ts, hts, hrest, -⟩ := exists_atRest libs st s _ (oneChunk s stream)
    (spares_oneChunk s stream) (started_oneChunk libs st s stream) rfl
  exact ⟨_, (arrived_ofServer hts).trans (arrived_oneChunk s stream), hrest⟩

/--
**A stream is framed at CR LF if, and only if, no segment has an LF of its own, or a NUL
in the argument of a command.**
-/
theorem framedExactly_iff (libs : Libs) (st : Store) (s : Nat) (stream : Bytes) :
    FramedExactly libs st s stream ↔ Clean stream := by
  refine ⟨?_, framedExactly_of_clean⟩
  intro h
  obtain ⟨es, rfl, hrest⟩ := exists_run_atRest libs st s stream
  have hall := (h es rfl).2.1 hrest
  obtain ⟨hbytes, hfree⟩ := run_account libs st s es
  have hpending : segments 13 10 ((run (step libs) (init st) es).pending s) = [] :=
    List.map_eq_nil_iff.mp hrest.requestsIn_pending
  have hlen := congrArg List.length hall
  rw [dispatched, requestsIn, List.length_map, List.length_map, ← hbytes] at hlen
  obtain ⟨segs, hlines, hsegs, hfound⟩ := lines_of_length hfree hpending hlen
  rw [hbytes] at hfound
  rw [dispatched, requestsIn, hlines, hfound, List.map_map] at hall
  intro seg hseg
  rw [hfound] at hseg
  exact ⟨hsegs seg hseg, (requestOf_concat_iff seg).mp (List.map_inj_left.mp hall seg hseg)⟩

/-- A transaction with a bare LF in its argument. -/
def bareLf : Bytes := ascii "t[[60,50,\n7,0]]\r\n"

def bareLfRun : List WireEvent :=
  [.other .accept, .arrive 0 bareLf, .readSome 0 512, .complete 0, .other (.runWriter .calm),
    .other .postWriter, .other .runIo, .complete 0]

/-- The one request is dispatched as two, and gets two replies. -/
theorem bareLf_not_framedExactly :
    dispatched Server.sampleLibs (dbOpen .calm []) 0 bareLfRun =
        [(.transact, ascii "[[60,50,"), (.unknown, [])] ∧
      ((run (step Server.sampleLibs) (init (dbOpen .calm []))
        bareLfRun).server.sessions 0).replies.length = 2 ∧
      requestsIn bareLf = [(.transact, ascii "[[60,50,\n7,0]]")] ∧
      ¬ FramedExactly Server.sampleLibs (dbOpen .calm []) 0 bareLf := by
  have htwo : dispatched Server.sampleLibs (dbOpen .calm []) 0 bareLfRun =
      [(.transact, ascii "[[60,50,"), (.unknown, [])] := by decide +kernel
  have hone : requestsIn bareLf = [(.transact, ascii "[[60,50,\n7,0]]")] := by decide +kernel
  refine ⟨htwo, by decide +kernel, hone, ?_⟩
  intro h
  have hle := (h bareLfRun (by decide +kernel)).1.length_le
  rw [htwo, hone] at hle
  exact absurd hle (by decide)

end Wired

end Nstore
