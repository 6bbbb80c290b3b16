import Leenix.Lib.Service
import Leenix.Tests.Runner

/-!
# Sessions (tests/runner.py and tests/testmain.c together)

The two sides and the line between them, seen from the outside, are a service that answers one
command after the other.

- `Matches`: where a session is in a call.
- `sessionStep_matches`: each step is one of the service.
- `session_answers`: what `send_serial` returns, in any session.
- `session_returns`: a call returns.
-/

namespace Leenix

namespace Tests

variable {σ : Type*} {tests : List (TestCase σ)} {s₀ : σ} {s s' : Session σ}
  {a : Service.State σ (List Byte)} {tr : List (Edge (Session σ) SessionAct)} {op : SessionAct}
  {msg p q : List Byte}

/-- The characters of a report: ASCII, and no marker but the last one. -/
def IsReport (reply : List Byte) : Prop :=
  ∃ msg, reply = msg ++ [ascii '*'] ∧ ∀ c ∈ msg, c < 0x80 ∧ c ≠ ascii '*'

theorem IsReport.ne {reply : List Byte} (h : IsReport reply) : reply ≠ [] := by
  obtain ⟨msg, rfl, -⟩ := h
  exact List.append_ne_nil_of_right_ne_nil msg (List.cons_ne_nil _ [])

theorem IsReport.ascii {reply : List Byte} (h : IsReport reply) : ∀ c ∈ reply, c < 0x80 := by
  obtain ⟨msg, rfl, hmsg⟩ := h
  intro c hc
  rcases List.mem_append.mp hc with hc | hc
  · exact (hmsg c hc).1
  · rw [List.mem_singleton.mp hc]
    decide

/-- The part of a report that has arrived ends with the marker when all of it has arrived. -/
theorem IsReport.endsWithMarker_iff (h : IsReport (p ++ q)) : EndsWithMarker p ↔ q = [] := by
  obtain ⟨msg, hreply, hmsg⟩ := h
  constructor
  · intro hends
    rcases List.eq_nil_or_concat q with rfl | ⟨q, c, rfl⟩
    · rfl
    · have hp : p ++ q = msg := by
        rw [List.concat_eq_append, ← List.append_assoc] at hreply
        exact (List.append_inj' hreply rfl).1
      have hmem : Leenix.ascii '*' ∈ msg := hp ▸ List.mem_append_left q (List.mem_of_getLast? hends)
      exact absurd rfl (hmsg _ hmem).2
  · rintro rfl
    rw [List.append_nil] at hreply
    rw [EndsWithMarker, hreply, List.getLast?_concat]

/-- Where a session is in a call: there is none, the kernel is reading the command, or the answer
is on its way. -/
inductive Matches (tests : List (TestCase σ)) : Session σ → Service.State σ (List Byte) → Prop
  | idle (s : σ) : Matches tests (Session.start s) (.idle s)
  | asking {s : σ} {pre rest command : List Byte} (hcommand : Sendable command)
      (hsplit : pre ++ rest = command ++ [0x0A]) (hrest : rest ≠ []) :
      Matches tests ⟨⟨s, .reading (stored pre)⟩, rest, [], some []⟩
        (.busy (answer tests s command).1 (answer tests s command).2)
  | answering {s : σ} {got wire out : List Byte} (hreport : IsReport (got ++ (wire ++ out)))
      (hleft : wire ++ out ≠ []) :
      Matches tests ⟨⟨s, .resume out⟩, [], wire, some got⟩ (.busy s (got ++ (wire ++ out)))

/-- What a step says about the calls, as an event of the service. -/
def Observed (e : Edge (Session σ) SessionAct) (ev : Service.Event (List Byte) (List Byte)) : Prop :=
  ev.request? = called e ∧ ev.reply? = returned e

/-- A step without a timeout, and with a command that can be sent. -/
def Proper (e : Edge (Session σ) SessionAct) : Prop :=
  e.op ≠ .timeout ∧ ∀ command, e.op = .call command → Sendable command

/-- The bytes that are still to be moved: to the kernel, and each byte of the answer twice. -/
def work (s : Session σ) (a : Service.State σ (List Byte)) : Nat :=
  s.toKernel.length +
    (2 * (a.owed.flatten.length - (s.response.getD []).length) - s.toHost.length)

/-- The kernel takes a character of a command, or its end. -/
theorem getc_matches (htests : ∀ t ∈ tests, Reports t) (s : σ) {pre rest command : List Byte}
    {c : Byte} (hcommand : Sendable command) (hsplit : pre ++ c :: rest = command ++ [0x0A]) :
    ∃ k, TestKernel.getc tests ⟨s, .reading (stored pre)⟩ c = some k ∧
      Matches tests ⟨k, rest, [], some []⟩
        (.busy (answer tests s command).1 (answer tests s command).2) := by
  rcases List.eq_nil_or_concat rest with rfl | ⟨rest, d, rfl⟩
  · -- the end of the command
    obtain ⟨rfl, hc⟩ := List.append_inj' hsplit rfl
    obtain rfl := (List.cons.inj hc).1
    have hzero : 0 ∉ pre := fun h => hcommand.plain 0 h (.inl rfl)
    have hreport := answer_reports htests s pre
    refine ⟨_, getc_command (.inr (.inl rfl)) s hcommand.ne hzero, ?_⟩
    exact Matches.answering (hreport : IsReport ([] ++ ([] ++ _))) (IsReport.ne hreport)
  · -- one more character
    rw [List.concat_eq_append] at hsplit ⊢
    have hlast : (pre ++ c :: rest) ++ [d] = command ++ [0x0A] := by
      rw [List.append_assoc]
      exact hsplit
    have hmem : pre ++ c :: rest = command := (List.append_inj' hlast rfl).1
    have hc : ¬EndsCommand c :=
      hcommand.plain c (hmem ▸ List.mem_append_right pre List.mem_cons_self)
    refine ⟨_, getc_char hc s pre, .asking hcommand ?_ ?_⟩
    · rw [List.append_assoc]
      exact hsplit
    · exact List.append_ne_nil_of_right_ne_nil rest (List.cons_ne_nil d [])

/-- Bytes that have arrived are characters. -/
theorem decode_take {got wire out : List Byte} {n : Nat} (hreport : IsReport (got ++ (wire ++ out)))
    (hrange : ¬(n = 0 ∨ 1024 < n ∨ wire.length < n)) :
    wire.take n ≠ [] ∧ decode (wire.take n) = wire.take n := by
  refine ⟨fun h => ?_, List.filter_eq_self.mpr fun c hc => decide_eq_true ?_⟩
  · rcases List.take_eq_nil_iff.mp h with h | h
    · omega
    · rw [h, List.length_nil] at hrange
      omega
  · exact hreport.ascii c (List.mem_append_right got (List.mem_append_left out
      (List.mem_of_mem_take hc)))

theorem sessionStep_recv (k : TestKernel σ) (out wire got : List Byte) (n : Nat) :
    sessionStep tests ⟨k, out, wire, some got⟩ (.recv n) =
      if n = 0 ∨ 1024 < n ∨ wire.length < n then none
      else if decode (wire.take n) = [] ∨ EndsWithMarker (got ++ decode (wire.take n)) then
        some ⟨k, out, wire.drop n, none⟩
      else some ⟨k, out, wire.drop n, some (got ++ decode (wire.take n))⟩ := rfl

/-- **Each step is one of the service**, and one that is not seen outside brings the answer
nearer. -/
theorem sessionStep_matches (htests : ∀ t ∈ tests, Reports t) (hm : Matches tests s a)
    (hstep : sessionStep tests s op = some s') (hok : Proper ⟨s, op, s'⟩) :
    ∃ ev a', Observed ⟨s, op, s'⟩ ev ∧ Service.Step (answer tests) a ev a' ∧
      Matches tests s' a' ∧ (ev = .internal → work s' a' < work s a) := by
  cases op with
  | call command =>
    cases hm with
    | idle k =>
      have hcommand := hok.2 command rfl
      have hascii : ¬∃ c ∈ command, 0x80 ≤ c := by
        rintro ⟨c, hc, hle⟩
        exact absurd (hcommand.ascii c hc) (UInt8.not_lt.mpr hle)
      simp only [sessionStep, Session.start, Option.isSome_none, Bool.false_eq_true, if_false,
        hascii, List.nil_append] at hstep
      obtain rfl := Option.some.inj hstep
      exact ⟨.call command, _, ⟨rfl, rfl⟩, .call k command,
        .asking hcommand (List.nil_append _) (List.append_ne_nil_of_right_ne_nil _ (List.cons_ne_nil _ _)),
        fun h => by cases h⟩
    | asking => cases hstep
    | answering => cases hstep
  | getc =>
    cases hm with
    | idle k => cases hstep
    | @asking k pre rest command hcommand hsplit hrest =>
      obtain ⟨c, rest, rfl⟩ := List.exists_cons_of_ne_nil hrest
      obtain ⟨k', hk', hm'⟩ := getc_matches htests k hcommand hsplit
      simp only [sessionStep, hk'] at hstep
      obtain rfl := Option.some.inj hstep
      exact ⟨.internal, _, ⟨rfl, rfl⟩, .internal _, hm', fun _ =>
        Nat.add_lt_add_right (Nat.lt_succ_self rest.length) _⟩
    | answering => cases hstep
  | putc =>
    cases hm with
    | idle k => cases hstep
    | asking => cases hstep
    | @answering k got wire out hreport hleft =>
      cases out with
      | nil => cases hstep
      | cons c out =>
        obtain rfl := Option.some.inj hstep
        have hmove : wire ++ c :: out = (wire ++ [c]) ++ out := by
          rw [List.append_assoc, List.singleton_append]
        rw [hmove] at hreport hleft ⊢
        refine ⟨.internal, _, ⟨rfl, rfl⟩, .internal _, .answering hreport hleft, fun _ => ?_⟩
        simp only [work, Service.State.owed, List.flatten_singleton, Option.getD_some,
          List.length_append, List.length_singleton]
        omega
  | recv n =>
    cases hm with
    | idle k => cases hstep
    | asking =>
      -- nothing has arrived yet
      rw [sessionStep_recv, if_pos (by rw [List.length_nil]; omega)] at hstep
      cases hstep
    | @answering k got wire out hreport hleft =>
      by_cases hrange : n = 0 ∨ 1024 < n ∨ wire.length < n
      · rw [sessionStep_recv, if_pos hrange] at hstep
        cases hstep
      · obtain ⟨hdata, hdecode⟩ := decode_take hreport hrange
        have hmove : got ++ (wire ++ out) = (got ++ wire.take n) ++ (wire.drop n ++ out) := by
          rw [List.append_assoc, ← List.append_assoc (wire.take n), List.take_append_drop]
        have hends := IsReport.endsWithMarker_iff (hmove ▸ hreport)
        rw [sessionStep_recv, if_neg hrange, hdecode] at hstep
        by_cases hnil : wire.drop n ++ out = []
        · rw [if_pos (.inr (hends.mpr hnil))] at hstep
          obtain rfl := Option.some.inj hstep
          obtain ⟨hwire, rfl⟩ := List.append_eq_nil_iff.mp hnil
          refine ⟨.answer (got ++ (wire ++ [])), _, ⟨rfl, ?_⟩, .answer k _, ?_, fun h => by cases h⟩
          · rw [hmove, hnil, List.append_nil]
            simp only [returned, hdecode, hdata, hends.mpr hnil, ne_eq, not_false_eq_true, and_self,
              if_true, Service.Event.reply?]
          · rw [hwire]
            exact .idle k
        · rw [if_neg (not_or.mpr ⟨hdata, mt hends.mp hnil⟩)] at hstep
          obtain rfl := Option.some.inj hstep
          refine ⟨.internal, _, ⟨rfl, ?_⟩, .internal _, ?_, fun _ => ?_⟩
          · simp only [returned, hdecode, mt hends.mp hnil, and_false, if_false,
              Service.Event.reply?]
          · rw [hmove] at hreport ⊢
            exact .answering hreport hnil
          · simp only [work, Service.State.owed, List.flatten_singleton, Option.getD_some,
              List.length_append, List.length_take, List.length_drop]
            omega
  | timeout => exact absurd rfl hok.1

/-- A session up to some step, as events of the service. -/
theorem session_matches (htests : ∀ t ∈ tests, Reports t)
    (hrun : Run (sessionStep tests) (Session.start s₀) tr s) (hok : ∀ e ∈ tr, Proper e) :
    ∃ a, Matches tests s a ∧
      tr.filterMap returned ++ a.owed = Service.replies (answer tests) s₀ (tr.filterMap called) := by
  have hevents : ∃ evs a, List.Forall₂ Observed tr evs ∧
      Events (Service.Step (answer tests)) (.idle s₀) evs a ∧ Matches tests s a :=
    hrun.simulates hok (.idle s₀) fun m op m' a hm hstep hok => by
      obtain ⟨ev, a', hobs, hserves, hm', -⟩ := sessionStep_matches htests hm hstep hok
      exact ⟨ev, a', hobs, hserves, hm'⟩
  obtain ⟨evs, a, hobs, hevents, hm⟩ := hevents
  have hcalls : tr.filterMap called = evs.filterMap Service.Event.request? := by
    clear hevents hrun hok
    induction hobs with
    | nil => rfl
    | cons h _ ih => rw [List.filterMap_cons, List.filterMap_cons, ih, h.1]
  have hreplies : tr.filterMap returned = evs.filterMap Service.Event.reply? := by
    clear hevents hrun hok hcalls
    induction hobs with
    | nil => rfl
    | cons h _ ih => rw [List.filterMap_cons, List.filterMap_cons, ih, h.2]
  rw [hcalls, hreplies]
  exact ⟨a, hm, (Service.events_replies hevents).2⟩

/-- An answer is owed while the host waits. -/
theorem Matches.owed (hm : Matches tests s a) :
    if s.response.isSome then ∃ reply, a.owed = [reply] else a.owed = [] := by
  cases hm with
  | idle => rfl
  | asking => exact ⟨_, rfl⟩
  | answering => exact ⟨_, rfl⟩

/-- **What `send_serial` returns.** In a session without timeouts, however the bytes of both sides
are interleaved and cut into pieces, the responses are the answers to the commands, in the order
of the calls and each once. Only a call that has not returned has no answer yet. -/
theorem session_answers (htests : ∀ t ∈ tests, Reports t)
    (hrun : Run (sessionStep tests) (Session.start s₀) tr s) (hok : ∀ e ∈ tr, Proper e) :
    ∃ owed, tr.filterMap returned ++ owed =
        Service.replies (answer tests) s₀ (tr.filterMap called) ∧
      if s.response.isSome then ∃ reply, owed = [reply] else owed = [] := by
  obtain ⟨a, hm, hreplies⟩ := session_matches htests hrun hok
  exact ⟨a.owed, hreplies, hm.owed⟩

/-- While an answer is owed, there is something to do other than to give up. -/
theorem Matches.enabled (htests : ∀ t ∈ tests, Reports t) (hm : Matches tests s a)
    (hwaiting : a.owed ≠ []) : ∃ op s', op ≠ .timeout ∧ sessionStep tests s op = some s' := by
  cases hm with
  | idle => exact absurd rfl hwaiting
  | @asking k pre rest command hcommand hsplit hrest =>
    obtain ⟨c, rest, rfl⟩ := List.exists_cons_of_ne_nil hrest
    obtain ⟨k', hk', -⟩ := getc_matches htests k hcommand hsplit
    exact ⟨.getc, ⟨k', rest, [], some []⟩, by decide,
      by simp only [sessionStep, hk', Option.map_some]⟩
  | @answering k got wire out hreport hleft =>
    cases wire with
    | nil =>
      obtain ⟨c, out, rfl⟩ := List.exists_cons_of_ne_nil hleft
      exact ⟨.putc, _, by decide, rfl⟩
    | cons c wire =>
      have hrange : ¬(1 = 0 ∨ 1024 < 1 ∨ (c :: wire).length < 1) := by
        rw [List.length_cons]
        omega
      by_cases hends : decode ((c :: wire).take 1) = [] ∨
          EndsWithMarker (got ++ decode ((c :: wire).take 1))
      · exact ⟨.recv 1, _, by decide, by rw [sessionStep_recv, if_neg hrange, if_pos hends]⟩
      · exact ⟨.recv 1, _, by decide, by rw [sessionStep_recv, if_neg hrange, if_neg hends]⟩

/-- While an answer is owed, there is work left. -/
theorem Matches.work_pos (hm : Matches tests s a) (hwaiting : a.owed ≠ []) : 0 < work s a := by
  cases hm with
  | idle => exact absurd rfl hwaiting
  | asking hcommand hsplit hrest => exact Nat.add_pos_left (List.length_pos_iff.mpr hrest) _
  | @answering k got wire out hreport hleft =>
    have hpos := List.length_pos_iff.mpr hleft
    simp only [work, Service.State.owed, List.flatten_singleton, Option.getD_some,
      List.length_append, List.length_nil] at hpos ⊢
    omega

/-- **A call returns.** While the host waits for an answer, a step other than a timeout is possible,
and whatever steps are taken, the call has returned its answer when each byte of the command has
been taken, and each byte of the answer sent and received. -/
theorem session_returns (htests : ∀ t ∈ tests, Reports t)
    (hrun : Run (sessionStep tests) (Session.start s₀) tr s) (hok : ∀ e ∈ tr, Proper e)
    {reply : List Byte} (howed : tr.filterMap returned ++ [reply] =
      Service.replies (answer tests) s₀ (tr.filterMap called)) :
    (∃ op s', op ≠ .timeout ∧ sessionStep tests s op = some s') ∧
      ∀ {tr' s'}, Run (sessionStep tests) s tr' s' → (∀ e ∈ tr', Proper e) →
        s.toKernel.length + 2 * reply.length ≤ tr'.length → ∃ e ∈ tr', returned e = some reply := by
  obtain ⟨a, hm, hreplies⟩ := session_matches htests hrun hok
  have ha : a.owed = [reply] := List.append_cancel_left (hreplies.trans howed.symm)
  refine ⟨hm.enabled htests (by rw [ha]; exact List.cons_ne_nil _ _),
    fun {tr' s'} hrun' hok' hlong => ?_⟩
  have hticks : work s a ≤ tr'.countP fun _ => true := by
    rw [List.countP_true, work, ha, List.flatten_singleton]
    omega
  refine hrun'.response (a := (s, a)) (R := fun m p => p.1 = m)
    (fun p => Matches tests p.1 p.2 ∧ p.2.owed = [reply]) (fun p => work p.1 p.2) hok' rfl ⟨hm, ha⟩
    ?_ ?_ hticks
  · rintro p ⟨hmatches, howes⟩
    exact hmatches.work_pos (by rw [howes]; exact List.cons_ne_nil _ _)
  · rintro m op m' ⟨n, b⟩ rfl hstep hproper ⟨hmatches, howes⟩
    obtain ⟨ev, b', hobs, hserves, hm', hless⟩ := sessionStep_matches htests hmatches hstep hproper
    cases hserves with
    | call k req => cases howes
    | answer k reply' =>
      obtain rfl := (List.cons.inj howes).1
      exact .inl hobs.2.symm
    | internal => exact .inr ⟨(m', b), rfl, ⟨hm', howes⟩, hless rfl⟩

/-! ## A session with two calls -/

/-- One test, which reports `a` the first time and then `b`. -/
def countTests : List (TestCase Nat) :=
  [⟨⟨[0x78], by decide⟩, fun n => (n + 1, sendMsg (if n = 0 then [ascii 'a'] else [ascii 'b']))⟩]

theorem countTests_report : ∀ t ∈ countTests, Reports t := by
  intro t ht n
  rw [List.mem_singleton.mp ht]
  refine reports_sendMsg fun c hc => ?_
  split at hc <;> rw [List.mem_singleton.mp hc] <;> decide

/-- The test is run, and its report is received in one piece. -/
def firstExchange : List SessionAct := [.call [0x78], .getc, .getc, .putc, .putc, .recv 2]

/-- It is run again, and the report is received byte by byte. -/
def secondExchange : List SessionAct := [.call [0x78], .getc, .getc, .putc, .recv 1, .putc, .recv 1]

theorem exchanges_proper {ops : List SessionAct} (hops : ops ⊆ firstExchange ++ secondExchange)
    (s : Session Nat) : ∀ e ∈ Run.replay (sessionStep countTests) s ops, Proper e := by
  intro e he
  have hsendable : Sendable [0x78] := by
    refine ⟨by decide, fun c hc => ?_, fun c hc => ?_⟩ <;> rw [List.mem_singleton.mp hc] <;> decide
  have hop := hops (Run.op_mem_of_mem_replay he)
  refine ⟨fun h => absurd (h ▸ hop) (by decide), fun command h => ?_⟩
  have hcall : ∀ op ∈ firstExchange ++ secondExchange, ∀ command, op = .call command →
      command = [0x78] := by
    simp [firstExchange, secondExchange]
  exact hcall _ hop command h ▸ hsendable

/-- Both calls return their own report. -/
theorem session_answers_twice : (Run.replay (sessionStep countTests) (Session.start 0)
    (firstExchange ++ secondExchange)).filterMap returned =
      [[ascii 'a', ascii '*'], [ascii 'b', ascii '*']] := by
  obtain ⟨owed, hreplies, howed⟩ := session_answers countTests_report
    (Run.of_defined (s := Session.start 0) (firstExchange ++ secondExchange) (by decide))
    (exchanges_proper (List.Subset.refl _) _)
  rw [if_neg (by decide)] at howed
  rw [howed, List.append_nil] at hreplies
  exact hreplies.trans (by decide)

/-- The second report comes in the rest of the session. -/
theorem session_returns_second : ∃ e ∈ Run.replay (sessionStep countTests)
    ((firstExchange ++ secondExchange.take 1).foldl (Run.next (sessionStep countTests))
      (Session.start 0)) (secondExchange.drop 1), returned e = some [ascii 'b', ascii '*'] := by
  have hbegin : firstExchange ++ secondExchange.take 1 ⊆ firstExchange ++ secondExchange := by
    decide
  have hrest : secondExchange.drop 1 ⊆ firstExchange ++ secondExchange := by decide
  exact (session_returns countTests_report
    (Run.of_defined (firstExchange ++ secondExchange.take 1) (by decide))
    (exchanges_proper hbegin _) (by decide)).2 (Run.of_defined (secondExchange.drop 1) (by decide))
    (exchanges_proper hrest _) (by decide)

end Tests

end Leenix
