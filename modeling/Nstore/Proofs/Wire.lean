/-
What goes over the wire, from one end to the other.

A client sends calls: a command, a document as its argument, and CR LF.  However the
bytes arrive, the service gets the requests the calls stand for, and nothing else.  What
the client receives it can cut at CR LF, and the lines are the messages that were written
to it; a line that is a document is read back as the document it was printed from.

Neither end has to know the other's parser: both directions rest on the documents of
`Writer` being read by `Reader`, and on no document having a line break in it.
-/
import Nstore.Proofs.Framing
import Nstore.Proofs.Lifetime
import Nstore.Proofs.Log
import Nstore.Proofs.Numbers
import Nstore.Proofs.Trailing

namespace Nstore

open Machine Delimited

/-! ### Calls -/

theorem Printable.notMem {bs : Bytes} (h : Printable bs) {b : UInt8} (hb : b < 32) : b ∉ bs := by
  intro hmem
  exact absurd (h b hmem) (UInt8.not_le.mpr hb)

mutual

/-- The handlers see the same of a value, whether or not it might have had doubles. -/
theorem GenericValue.toJson_lift : ∀ v : GenericValue Empty,
    (v.lift : GenericValue Double).toJson = v.toJson
  | .null => by rw [lift, toJson, toJson]
  | .bool b => by rw [lift, toJson, toJson]
  | .int i => by rw [lift, toJson, toJson]
  | .string s => by rw [lift, toJson, toJson]
  | .array xs => by rw [lift, toJson, toJson, elementsToJson_lift xs]
  | .object ms => by rw [lift, toJson, toJson]

theorem GenericValue.elementsToJson_lift : ∀ xs : List (GenericValue Empty),
    elementsToJson (liftElements xs : List (GenericValue Double)) = elementsToJson xs
  | [] => by rw [liftElements, elementsToJson, elementsToJson]
  | x :: xs => by
      rw [liftElements, elementsToJson, elementsToJson, toJson_lift x, elementsToJson_lift xs]

end

/-- A request as a client writes it. -/
structure ClientCall where
  command : UInt8
  doc : GenericValue Empty

namespace ClientCall

/-- A call without its CR LF. -/
def segment (c : ClientCall) : Bytes := c.command :: c.doc.text

def Fits (c : ClientCall) : Prop := c.command ≠ 10 ∧ c.doc.Fits

/-- The request it stands for.  The CR is part of the argument, and so of the echo. -/
def request (c : ClientCall) : ClientRequest :=
  match Command.ofLine [c.command] with
  | .ping => .ping (c.doc.text ++ [13])
  | .newNamespace => .newNamespace (some c.doc.toJson)
  | .select => .select (some c.doc.toJson)
  | .facts => .facts (some c.doc.toJson)
  | .transact => .transact (some c.doc.toJson)
  | .unknown => .unknown

variable {c : ClientCall}

theorem Fits.notMem_segment (h : c.Fits) : 10 ∉ c.segment := by
  intro hmem
  rcases List.mem_cons.mp hmem with hmem | hmem
  · exact h.1 hmem.symm
  · exact (GenericValue.printable_text c.doc h.2).notMem (by decide) hmem

/-- **A call is read as the request it stands for.** -/
theorem Fits.ofLine (h : c.Fits) (walk : Walk) (sha256 : Bytes → Value) :
    ClientRequest.ofLine (rapidjsonLibs walk sha256) (c.segment ++ [13]) = c.request := by
  have hcommand : Command.ofLine (c.segment ++ [13]) = Command.ofLine [c.command] := rfl
  have hargument : ({ Session.new with arg := c.segment ++ [13] } : Session).argument =
      c.doc.text ++ [13] := by
    have hall : ∀ b ∈ c.doc.text ++ [13], decide (b ≠ 0) = true := by
      intro b hb
      apply decide_eq_true
      rintro rfl
      rcases List.mem_append.mp hb with hb | hb
      · exact (GenericValue.printable_text c.doc h.2).notMem (by decide) hb
      · exact absurd hb (by decide)
    exact List.takeWhile_eq_self_iff.mpr hall
  have hparse : (rapidjsonLibs walk sha256).parse
      ({ Session.new with arg := c.segment ++ [13] } : Session).argument = some c.doc.toJson := by
    show (Reader.parse _).map GenericValue.toJson = _
    rw [hargument, Reader.parse_append_blank (Reader.blank_of_all rfl), Reader.parse_text h.2,
      Option.map_some, GenericValue.toJson_lift]
  unfold ClientRequest.ofLine request
  rw [hcommand]
  cases Command.ofLine [c.command] with
  | ping => exact congrArg ClientRequest.ping hargument
  | newNamespace => exact congrArg ClientRequest.newNamespace hparse
  | select => exact congrArg ClientRequest.select hparse
  | facts => exact congrArg ClientRequest.facts hparse
  | transact => exact congrArg ClientRequest.transact hparse
  | unknown => rfl

end ClientCall

namespace Wired

/--
**Clients are served what they ask for.**  If what has arrived of a session is the
beginning of some calls, in chunks of any size and whatever else goes on, then the server
does what the service does with the first of their requests: the service has the same
store, and answers as the session is answered, but for one answer at most that is not
written yet.  Once all of it has been read, they are all the requests; once the threads
are idle, every one has been answered.
-/
theorem run_calls_served (walk : Walk) (sha256 : Bytes → Value) (st : Store) (s : Nat)
    (calls : List ClientCall) (hcalls : ∀ c ∈ calls, c.Fits) (es : List WireEvent)
    (harrived : arrived s es <+: calls.flatMap fun c => c.segment ++ [13, 10]) :
    let libs := rapidjsonLibs walk sha256
    let w := run (step libs) (init st) es
    let served := record (Server.step libs) (Server.acts libs) (.init st) (serverRun libs st es)
    let S := run (Service.step sha256) (.init st) served
    S.store = w.server.store ∧
      served.flatMap (Server.arrivals s) <+: calls.map ClientCall.request ∧
      (∃ m, S.replies s = (w.server.sessions s).replies ++ m ∧ m.length ≤ 1) ∧
      (arrived s es = (calls.flatMap fun c => c.segment ++ [13, 10]) → w.AtRest s →
        served.flatMap (Server.arrivals s) = calls.map ClientCall.request) ∧
      (w.server.work = 0 → S.backlog s = [] ∧ S.replies s = (w.server.sessions s).replies) := by
  intro libs w served S
  have hserver : w.server = run (Server.step libs) (.init st) (serverRun libs st es) :=
    run_server libs es (init st)
  have hserves : Server.Serves libs w.server S := by
    rw [hserver]
    exact Server.run_serves libs st (serverRun libs st es)
  have hone := hserves.one s
  have hunderway := Server.underway_length_le (σ := w.server) (s := s)
  -- the segments of the stream are the calls
  have hfree : ∀ seg ∈ calls.map ClientCall.segment, 10 ∉ seg := by
    intro seg hseg
    obtain ⟨c, hc, rfl⟩ := List.mem_map.mp hseg
    exact (hcalls c hc).notMem_segment
  have hwhole : segments 13 10 (calls.flatMap fun c => c.segment ++ [13, 10]) =
      calls.map ClientCall.segment :=
    segments_flatMap_map (fun c hc => (hcalls c hc).notMem_segment) (by decide)
  have hfirst : segments 13 10 (arrived s es) <+: calls.map ClientCall.segment := by
    obtain ⟨rest, hrest⟩ := harrived
    rw [← hwhole, ← hrest]
    exact segments_append _ _
  obtain ⟨segs, hlines, hsegs⟩ :=
    run_lines_segments libs st s es fun seg hseg => hfree seg (hfirst.subset hseg)
  have harrivals : served.flatMap (Server.arrivals s) =
      segs.map fun seg => ClientRequest.ofLine libs (seg ++ [13]) := by
    have h := Server.flatMap_record libs s (serverRun libs st es) (.init st)
    have hlines' : record (Server.step libs) (Server.requests s) (.init st)
        (serverRun libs st es) = segs.map (· ++ [13]) := hlines
    rw [hlines', List.map_map] at h
    exact h
  have hrequests : (calls.map ClientCall.segment).map
      (fun seg => ClientRequest.ofLine libs (seg ++ [13])) = calls.map ClientCall.request := by
    rw [List.map_map]
    apply List.map_congr_left
    intro c hc
    exact (hcalls c hc).ofLine walk sha256
  refine ⟨hserves.store, ?_, ⟨_, hserves.replies s, by omega⟩, ?_, ?_⟩
  · rw [harrivals, ← hrequests]
    apply List.IsPrefix.map
    exact (hsegs ▸ List.prefix_append segs _ : segs <+: segments 13 10 (arrived s es)).trans hfirst
  · intro hall hrest
    have hpending : segments 13 10 (w.pending s) = [] := by
      rw [pending, hrest.1, List.append_nil]
      exact hasEol_eq_false.mp hrest.2
    have hpending' : segments 13 10 ((run (step libs) (init st) es).pending s) = [] := hpending
    rw [hpending', List.append_nil, hall, hwhole] at hsegs
    rw [harrivals, ← hsegs, hrequests]
  · intro hidle
    obtain ⟨hhandlers, hposted⟩ := Server.load_of_idle (s := s) hidle
    have hnone : w.server.underway s = [] := List.eq_nil_of_length_eq_zero (by omega)
    refine ⟨(hserves.backlog s).trans (Server.asked_eq_nil hhandlers), ?_⟩
    rw [hserves.replies, hnone, List.append_nil]

/-- One transaction, on a new entity. -/
def oneFact : ClientCall :=
  { command := 116, doc := .array [.array [.int (-1), .int 50, .int 7, .int 0]] }

private theorem oneFact_fits : oneFact.Fits := by
  refine ⟨by decide, ?_⟩
  simp only [oneFact, GenericValue.Fits, GenericValue.FitElements]
  norm_num

/-- It arrives in two chunks, and is answered. -/
def oneFactRun : List WireEvent :=
  [.other .accept, .arrive 0 (ascii "t[[-1,"), .readSome 0 512, .arrive 0 (ascii "50,7,0]]\r\n"),
    .readSome 0 512, .complete 0, .other (.runWriter .calm), .other .postWriter, .other .runIo,
    .other (.send 0 0 512), .other (.wrote 0 0)]

theorem run_calls_served_oneFact :
    (record (Server.step (rapidjsonLibs .inserted fun _ => .zero))
        (Server.acts (rapidjsonLibs .inserted fun _ => .zero)) (.init (dbOpen .calm []))
        (serverRun (rapidjsonLibs .inserted fun _ => .zero) (dbOpen .calm []) oneFactRun)).flatMap
        (Server.arrivals 0) = [oneFact].map ClientCall.request :=
  (run_calls_served .inserted (fun _ => .zero) (dbOpen .calm []) 0 [oneFact]
    (fun _ hc => List.mem_singleton.mp hc ▸ oneFact_fits) oneFactRun
    (by decide +kernel)).2.2.2.1 (by decide +kernel) ⟨by decide +kernel, by decide +kernel⟩

end Wired

/-! ### Lines -/

namespace Msg

/-- The document a message is printed from; an echo has none. -/
def document (walk : Walk) : Msg → Option (GenericValue Empty)
  | .reply r => some (r.document walk)
  | .event tx facts => some (eventDocument walk tx facts [])
  | .echo _ => none

/-- A message without its `EOL`. -/
def line (walk : Walk) : Msg → Bytes
  | .reply r => (r.document walk).text
  | .event tx facts => (eventDocument walk tx facts []).text
  | .echo arg => arg

/-- What goes out as one line. -/
def Fits : Msg → Prop
  | .reply r => r.IsWide
  | .event tx facts => IsInt64 tx ∧ ∀ f ∈ facts, f.IsWide
  | .echo arg => 10 ∉ arg

variable {m : Msg} {walk : Walk}

theorem line_eq {d : GenericValue Empty} (h : m.document walk = some d) :
    m.line walk = d.text := by
  cases m with
  | reply r => exact congrArg GenericValue.text (Option.some.inj h)
  | event tx facts => exact congrArg GenericValue.text (Option.some.inj h)
  | echo arg => exact absurd h (by simp [document])

theorem Fits.document (h : m.Fits) {d : GenericValue Empty} (hd : m.document walk = some d) :
    d.Fits := by
  cases m with
  | reply r => exact Option.some.inj hd ▸ Reply.IsWide.fits h walk
  | event tx facts => exact Option.some.inj hd ▸ fits_eventDocument walk [] h.1 h.2
  | echo arg => exact absurd hd (by simp [Msg.document])

theorem Fits.notMem_line (h : m.Fits) : 10 ∉ m.line walk := by
  cases hd : m.document walk with
  | none =>
      cases m with
      | echo arg => exact h
      | reply r => exact absurd hd (by simp [Msg.document])
      | event tx facts => exact absurd hd (by simp [Msg.document])
  | some d =>
      rw [line_eq hd]
      exact (GenericValue.printable_text d (h.document hd)).notMem (by decide)

theorem makeResponse_eq {d : GenericValue Empty} (h : d.Fits) :
    makeResponse d = d.text ++ [13, 10] := by
  unfold makeResponse
  rw [Writer.out_accept, (GenericValue.printable_text d h).takeWhile]
  rfl

/-- **A message goes out as its line and CR LF.** -/
theorem Fits.render (h : m.Fits) : Nstore.render walk m = m.line walk ++ [13, 10] := by
  cases m with
  | reply r =>
      have hr : (r.document walk).Fits := h.document rfl
      cases r with
      | ackOk => rfl
      | ackErr => rfl
      | facts tx facts => exact makeResponse_eq hr
      | response tx facts newIds => exact makeResponse_eq hr
  | event tx facts =>
      have he : (eventDocument walk tx facts []).Fits := h.document rfl
      exact makeResponse_eq he
  | echo arg => rfl

end Msg

namespace Server

variable {libs : Libs} {σ : Server} {e : Event}

def fitsTask : IoTask → Prop
  | .answer _ r => r.IsWide
  | .selected _ _ => True
  | .transacted _ _ tx facts newIds => (Reply.response tx facts newIds).IsWide

/-- What is written fits, and so does what is about to be. -/
structure Fitting (σ : Server) : Prop extends Known σ where
  keys : KeysWide σ.store
  counters : CountersWide σ.store
  due : ∀ t ∈ σ.pending, fitsTask t
  log : ∀ s, ∀ m ∈ (σ.sessions s).log, m.Fits

theorem fitting_init {st : Store} (hkeys : KeysWide st) (hcounters : CountersWide st) :
    Fitting (init st) where
  toKnown := known_init st
  keys := hkeys
  counters := hcounters
  due _ h := absurd h List.not_mem_nil
  log _ _ h := absurd h List.not_mem_nil

/-- Where a task that is pending after a step comes from. -/
theorem pending_cases {t : IoTask} (h : t ∈ (σ.step libs e).pending) :
    t ∈ σ.pending ∨
    (∃ o w, inputs libs σ e = [(o, σ.writerRequest libs w)] ∧
      t = (σ.runWriterTask libs o w).2) ∨
    ∃ o r, t = σ.runReaderTask libs o r := by
  obtain hold | ⟨o, w, rfl, -, -⟩ | ⟨o, r, -, -, hr⟩ := mem_pending_step h
  · exact .inl hold
  · -- the task that was run is the first of the queue
    rw [mem_pending, step_ioQueue, step_writer, step_readers] at h
    rcases h with h | h | h
    · exact .inl (mem_pending.mpr (.inl h))
    · cases hw : σ.writer with
      | some t' =>
          simp only [writerAfter, hw] at h
          exact .inl (mem_pending.mpr (.inr (.inl (hw.trans h))))
      | none =>
          cases hq : σ.writerQueue with
          | nil => simp [writerAfter, hw, hq] at h
          | cons w rest =>
              simp only [writerAfter, hw, hq, Option.some.injEq] at h
              exact .inr (.inl ⟨o, w, by simp only [inputs, hw, hq], h.symm⟩)
    · exact .inl (mem_pending.mpr (.inr (.inr h)))
  · exact .inr (.inr ⟨o, r, hr⟩)

private theorem fitsTask_writer {o : Oracle} {w : WriterTask}
    (h : (reply libs.sha256 σ.store (o, σ.writerRequest libs w)).IsWide) :
    fitsTask (σ.runWriterTask libs o w).2 := by
  cases w with
  | newNamespace s => exact h
  | transact s =>
      simp only [writerRequest, reply, serve] at h
      simp only [runWriterTask]
      split
      · rename_i htr
        rw [htr] at h
        exact h
      · rename_i htr
        rw [htr] at h
        exact h

private theorem fitsTask_reader {o : Oracle} {r : ReaderTask} (hkeys : KeysWide σ.store)
    (hcounters : CountersWide σ.store) : fitsTask (σ.runReaderTask libs o r) := by
  cases r with
  | select s =>
      simp only [runReaderTask]
      split <;> exact trivial
  | facts s => exact handleFacts_isWide hkeys hcounters

/-- The line an event brings. -/
def Event.BreaksNoLine : Event → Prop
  | .receive _ line => 10 ∉ line
  | _ => True

private theorem fits_written (h : Fitting σ) (he : e.BreaksNoLine) (s : Nat) :
    ∀ m ∈ written σ s e, m.Fits := by
  intro m hm
  cases e with
  | receive i line =>
      simp only [written] at hm
      split at hm
      · unfold dispatchWrites at hm
        split at hm
        · rw [List.mem_singleton.mp hm]
          intro hmem
          exact he (List.drop_subset 1 line ((List.takeWhile_prefix _).subset hmem))
        · rw [List.mem_singleton.mp hm]
          trivial
        · exact absurd hm List.not_mem_nil
      · exact absurd hm List.not_mem_nil
  | runIo =>
      simp only [written] at hm
      split at hm
      · exact absurd hm List.not_mem_nil
      · rename_i t rest hq
        have ht : fitsTask t := h.due t (mem_pending.mpr (.inl (hq ▸ List.mem_cons_self)))
        cases t with
        | answer i r =>
            simp only [ioWrites] at hm
            split at hm
            · rw [List.mem_singleton.mp hm]
              exact ht
            · exact absurd hm List.not_mem_nil
        | selected i ns =>
            simp only [ioWrites] at hm
            split at hm
            · rw [List.mem_singleton.mp hm]
              trivial
            · exact absurd hm List.not_mem_nil
        | transacted i ns tx facts newIds =>
            simp only [ioWrites] at hm
            split at hm
            · rw [List.mem_singleton.mp hm]
              exact ht
            · split at hm
              · rw [List.mem_singleton.mp hm]
                exact ⟨ht.1, ht.2.1⟩
              · exact absurd hm List.not_mem_nil
  | _ => exact absurd hm List.not_mem_nil

theorem Fitting.step (h : Fitting σ) (he : e.BreaksNoLine)
    (hcounters : CountersWide (σ.step libs e).store) : Fitting (σ.step libs e) := by
  have hstore := store_step libs σ e
  have hrequest : KeysWide (σ.step libs e).store ∧
      ∀ o w, inputs libs σ e = [(o, σ.writerRequest libs w)] →
        (reply libs.sha256 σ.store (o, σ.writerRequest libs w)).IsWide := by
    obtain ⟨hin, -⟩ | ⟨o, w, -, hin, -⟩ := inputs_cases libs σ e
    · rw [hin] at hstore
      refine ⟨hstore ▸ h.keys, fun o w hone => ?_⟩
      rw [hin] at hone
      exact absurd hone (by simp)
    · rw [hin] at hstore
      have hstore : (σ.step libs e).store =
          Nstore.step libs.sha256 σ.store (o, σ.writerRequest libs w) := hstore
      rw [hstore] at hcounters
      obtain ⟨hkeys, hreply⟩ := step_isWide h.keys h.counters hcounters
      refine ⟨hstore ▸ hkeys, fun o' w' hone => ?_⟩
      rw [hin] at hone
      rw [← (List.cons.inj hone).1]
      exact hreply
  constructor
  · exact h.toKnown.step e
  · exact hrequest.1
  · exact hcounters
  · intro t ht
    obtain hold | ⟨o, w, hin, rfl⟩ | ⟨o, r, rfl⟩ := pending_cases ht
    · exact h.due t hold
    · exact fitsTask_writer (hrequest.2 o w hin)
    · exact fitsTask_reader h.keys h.counters
  · intro s m hm
    rw [log_step h.nodup] at hm
    rcases List.mem_append.mp hm with hm | hm
    · exact h.log s m hm
    · exact fits_written h he s m hm

end Server

namespace Wired

variable {libs : Libs} {w : Wired} {e : WireEvent}

/-- An event is one event of the server at most, and the lines it brings have no LF. -/
theorem events_cases (w : Wired) (e : WireEvent) :
    w.events e = [] ∨ ∃ t, w.events e = [t] ∧ Server.Event.BreaksNoLine t := by
  cases e with
  | arrive s bs => exact .inl rfl
  | readSome s n => exact .inl rfl
  | complete s =>
      simp only [events]
      split
      · rename_i hc
        exact .inr ⟨_, rfl, (getline_split (mem_of_hasEol (completes_iff.mp hc).2)).2⟩
      · exact .inl rfl
  | other e =>
      cases e with
      | receive s line => exact .inl rfl
      | readError s =>
          simp only [events]
          split
          · exact .inr ⟨_, rfl, trivial⟩
          · exact .inl rfl
      | _ => exact .inr ⟨_, rfl, trivial⟩

theorem fitting_step (h : Server.Fitting w.server)
    (hcounters : CountersWide (w.step libs e).server.store) :
    Server.Fitting (w.step libs e).server := by
  obtain hnone | ⟨t, hone, ht⟩ := events_cases w e
  · have hserver : (w.step libs e).server = w.server := by
      show run (Server.step libs) w.server (w.events e) = w.server
      rw [hnone]
      rfl
    rw [hserver]
    exact h
  · have hserver : (w.step libs e).server = w.server.step libs t := by
      show run (Server.step libs) w.server (w.events e) = w.server.step libs t
      rw [hone]
      rfl
    rw [hserver] at hcounters ⊢
    exact h.step ht hcounters

/--
**What a client receives is the messages written to it, one a line.**  As long as no
counter overflows, the bytes that have left for a session, cut at CR LF, are the lines of
the first messages written to it, and of all of them once its queue is empty; a message
that has a document is read from its line as that document.
-/
theorem run_sent_lines (walk : Walk) (sha256 : Bytes → Value) {st : Store} (hkeys : KeysWide st)
    (hcounters : CountersWide st) {es : List WireEvent}
    (hrun : Along (step (rapidjsonLibs walk sha256))
      (fun w e => CountersWide (w.step (rapidjsonLibs walk sha256) e).server.store) (init st) es)
    (s : Nat) :
    let x := (run (step (rapidjsonLibs walk sha256)) (init st) es).server.sessions s
    segments 13 10 x.sent <+: x.log.map (Msg.line walk) ∧
      (x.writeQueue = [] → segments 13 10 x.sent = x.log.map (Msg.line walk)) ∧
      ∀ m ∈ x.log, ∀ d, m.document walk = some d → Reader.parse (m.line walk) = some d.lift := by
  intro x
  have hfits : Server.Fitting (run (step (rapidjsonLibs walk sha256)) (init st) es).server :=
    hrun.invariant (fun w => Server.Fitting w.server) (fun _ _ h hc => fitting_step h hc)
      (Server.fitting_init hkeys hcounters)
  have hlog : ∀ m ∈ x.log, m.Fits := hfits.log s
  have hflows : x.Flows (rapidjsonLibs walk sha256) := by
    have h := (Server.run_flows (rapidjsonLibs walk sha256) st
      (serverRun (rapidjsonLibs walk sha256) st es) s).2
    have hserver := run_server (rapidjsonLibs walk sha256) es (init st)
    show Session.Flows _ ((run (step (rapidjsonLibs walk sha256)) (init st) es).server.sessions s)
    rw [hserver]
    exact h
  obtain ⟨hsent, -, hempty⟩ := hflows.sent_of_log
  have hrender : x.log.flatMap (rapidjsonLibs walk sha256).render =
      x.log.flatMap fun m => m.line walk ++ [13, 10] :=
    List.flatMap_congr fun m hm => (hlog m hm).render
  have hwhole : segments 13 10 (x.log.flatMap fun m => m.line walk ++ [13, 10]) =
      x.log.map (Msg.line walk) :=
    segments_flatMap_map (fun m hm => (hlog m hm).notMem_line) (by decide)
  rw [hrender] at hsent hempty
  refine ⟨?_, ?_, ?_⟩
  · obtain ⟨rest, hrest⟩ := hsent
    rw [← hwhole, ← hrest]
    exact segments_append _ _
  · intro hq
    rw [hempty hq, hwhole]
  · intro m hm d hd
    rw [Msg.line_eq hd]
    exact Reader.parse_text ((hlog m hm).document hd)

theorem countersWide_of_items {s : Store} (h : ∀ x ∈ s, -2 ^ 63 ≤ x.2.i64 ∧ x.2.i64 < 2 ^ 63) :
    CountersWide s := by
  intro n id x hx
  obtain ⟨d, hd, rfl⟩ := Option.map_eq_some_iff.mp hx
  obtain ⟨y, hy, rfl⟩ := Option.map_eq_some_iff.mp hd
  exact h y (List.mem_of_find?_eq_some hy)

theorem run_sent_lines_oneFact :
    segments 13 10 (((run (step (rapidjsonLibs .inserted fun _ => .zero)) (init (dbOpen .calm []))
        oneFactRun).server.sessions 0).sent) =
      ((run (step (rapidjsonLibs .inserted fun _ => .zero)) (init (dbOpen .calm []))
        oneFactRun).server.sessions 0).log.map (Msg.line .inserted) := by
  have hkeys : KeysWide (dbOpen .calm []) := setup_keysWide fun q hq => absurd hq List.not_mem_nil
  have hcounters : CountersWide (dbOpen .calm []) := countersWide_of_items (by decide +kernel)
  have hrun : Along (step (rapidjsonLibs .inserted fun _ => .zero))
      (fun w e => CountersWide (w.step (rapidjsonLibs .inserted fun _ => .zero) e).server.store)
      (init (dbOpen .calm [])) oneFactRun := by
    simp only [Along, oneFactRun, and_true]
    refine ⟨?_, ?_, ?_, ?_, ?_, ?_, ?_, ?_, ?_, ?_, ?_⟩ <;>
      exact countersWide_of_items (by decide +kernel)
  exact (run_sent_lines .inserted (fun _ => .zero) hkeys hcounters hrun 0).2.1 (by decide +kernel)

end Wired

end Nstore
