import Leenix.Tests.Sessions

/-!
# Sessions with timeouts (tests/runner.py and tests/testmain.c together)

After a timeout the answer to a command may arrive in a later call, and an empty command has no
answer at all. What the host receives is still the stream of the answers.

- `Streams`: how the bytes on the line and the bytes received belong together.
- `sessionStep_streams`: every step keeps this.
- `session_stream`: what has been received, in any session.
-/

namespace Leenix

namespace Tests

variable {σ : Type*} {tests : List (TestCase σ)} {s₀ : σ} {s s' : Session σ}
  {tr : List (Edge (Session σ) SessionAct)} {op : SessionAct}

/-- The bytes that a step takes from the line. -/
def taken (e : Edge (Session σ) SessionAct) : List Byte :=
  match e.op with
  | .recv n => e.pre.toHost.take n
  | _ => []

/-- What is sent for some commands. -/
def lines (commands : List (List Byte)) : List Byte := commands.flatMap (· ++ [0x0A])

/-- The commands that are answered. -/
def answered (commands : List (List Byte)) : List (List Byte) := commands.filter (· ≠ [])

/-- The commands called are those the kernel is done with and those that are on the way, the first
of them perhaps in part in its buffer; the bytes received, those on the line and those to be sent
are the answers to the former. -/
def Streams (tests : List (TestCase σ)) (s₀ : σ) (s : Session σ) (calls : List (List Byte))
    (received : List Byte) : Prop :=
  ∃ done todo pre out, calls = done ++ todo ∧
    s.kernel.state = Service.after (answer tests) s₀ (answered done) ∧
    (s.kernel.mode = .reading (stored pre) ∧ out = [] ∨ s.kernel.mode = .sending out ∧ pre = []) ∧
    pre ++ s.toKernel = lines todo ∧ (∀ c ∈ pre, ¬EndsCommand c) ∧
    (∀ command ∈ todo, ∀ c ∈ command, ¬EndsCommand c) ∧
    received ++ (s.toHost ++ out) = (Service.replies (answer tests) s₀ (answered done)).flatten

/-- A call with a command that is a line of ASCII characters, or another step. -/
def Plain (e : Edge (Session σ) SessionAct) : Prop :=
  ∀ command, e.op = .call command → ∀ c ∈ command, c < 0x80 ∧ ¬EndsCommand c

/-- The first end of a line is found in one place only. -/
theorem append_cons_inj {α : Type*} {P : α → Prop} {xs ys xs' ys' : List α} {x y : α}
    (hxs : ∀ a ∈ xs, ¬P a) (hys : ∀ a ∈ ys, ¬P a) (hx : P x) (hy : P y)
    (h : xs ++ x :: xs' = ys ++ y :: ys') : xs = ys ∧ x = y ∧ xs' = ys' := by
  induction xs generalizing ys with
  | nil =>
    cases ys with
    | nil => exact ⟨rfl, List.cons.inj h⟩
    | cons b ys => exact absurd ((List.cons.inj h).1 ▸ hx) (hys b List.mem_cons_self)
  | cons a xs ih =>
    cases ys with
    | nil => exact absurd ((List.cons.inj h).1 ▸ hy) (hxs a List.mem_cons_self)
    | cons b ys =>
      obtain ⟨rfl, hrest⟩ := List.cons.inj h
      obtain ⟨rfl, hmore⟩ := ih (fun c hc => hxs c (List.mem_cons_of_mem a hc))
        (fun c hc => hys c (List.mem_cons_of_mem a hc)) hrest
      exact ⟨rfl, hmore⟩

theorem resume_cases (out : List Byte) : Mode.resume out = .reading (stored []) ∧ out = [] ∨
    Mode.resume out = .sending out := by
  unfold Mode.resume
  by_cases h : out = []
  · exact .inl ⟨if_pos h, h⟩
  · exact .inr (if_neg h)

theorem answered_append (commands : List (List Byte)) (command : List Byte) :
    answered (commands ++ [command]) =
      answered commands ++ if command = [] then [] else [command] := by
  rw [answered, List.filter_append, ← answered]
  by_cases h : command = []
  · simp [h]
  · simp [h]

/-- A byte that the kernel takes. -/
theorem getc_streams {k : TestKernel σ} {c : Byte} {rest : List Byte} {toHost : List Byte}
    {response response' : Option (List Byte)} {calls : List (List Byte)} {received : List Byte}
    (hs : Streams tests s₀ ⟨k, c :: rest, toHost, response⟩ calls received) {k' : TestKernel σ}
    (hk : k.getc tests c = some k') :
    Streams tests s₀ ⟨k', rest, toHost, response'⟩ calls received := by
  obtain ⟨done, todo, pre, out, hcalls, hstate, hmode, htoKernel, hpre, htodo, hbytes⟩ := hs
  obtain ⟨state, mode⟩ := k
  simp only at hstate hmode htoKernel hbytes
  rcases hmode with ⟨rfl, rfl⟩ | ⟨rfl, rfl⟩
  swap
  · cases hk
  by_cases hc : EndsCommand c
  · -- the end of the first command on the way
    obtain ⟨line, todo, rfl⟩ : ∃ line todo', todo = line :: todo' := by
      cases todo with
      | nil => cases pre <;> cases htoKernel
      | cons line todo => exact ⟨line, todo, rfl⟩
    have hsplit : pre ++ c :: rest = line ++ 0x0A :: lines todo := by
      rw [htoKernel, lines, List.flatMap_cons, ← lines, List.append_assoc, List.singleton_append]
    obtain ⟨rfl, rfl, rfl⟩ := append_cons_inj hpre (htodo line List.mem_cons_self) hc
      (.inr (.inl rfl)) hsplit
    have hrest := fun command h => htodo command (List.mem_cons_of_mem pre h)
    rw [List.append_cons] at hcalls
    by_cases hempty : pre = []
    · subst hempty
      obtain rfl := Option.some.inj (hk.symm.trans (getc_empty hc state))
      refine ⟨done ++ [[]], todo, [], [], hcalls, ?_, .inl ⟨rfl, rfl⟩, rfl,
        fun c hc => absurd hc List.not_mem_nil, hrest, ?_⟩ <;>
        rw [answered_append, if_pos rfl, List.append_nil (answered done)]
      · exact hstate
      · exact hbytes
    · have hzero : 0 ∉ pre := fun h => hpre 0 h (.inl rfl)
      obtain rfl := Option.some.inj (hk.symm.trans (getc_command hc state hempty hzero))
      refine ⟨done ++ [pre], todo, [], (answer tests state pre).2, hcalls, ?_, ?_, rfl,
        fun c hc => absurd hc List.not_mem_nil, hrest, ?_⟩
      · rw [answered_append, if_neg hempty, Service.after_append, ← hstate]
        rfl
      · exact (resume_cases _).imp_right fun h => ⟨h, rfl⟩
      · rw [answered_append, if_neg hempty, Service.replies_append, ← hstate, List.flatten_append,
          ← hbytes, List.append_nil, List.append_assoc]
        exact congrArg (fun out => received ++ (toHost ++ out)) (List.append_nil _).symm
  · obtain rfl := Option.some.inj (hk.symm.trans (getc_char hc state pre))
    refine ⟨done, todo, pre ++ [c], [], hcalls, hstate, .inl ⟨rfl, rfl⟩, ?_, ?_, htodo, hbytes⟩
    · rw [List.append_assoc]
      exact htoKernel
    · intro d hd
      rcases List.mem_append.mp hd with hd | hd
      · exact hpre d hd
      · exact List.mem_singleton.mp hd ▸ hc

/-- **Every step keeps the streams.** -/
theorem sessionStep_streams {calls : List (List Byte)} {received : List Byte}
    (hs : Streams tests s₀ s calls received) (hstep : sessionStep tests s op = some s')
    (hok : Plain ⟨s, op, s'⟩) :
    Streams tests s₀ s' (calls ++ (called ⟨s, op, s'⟩).toList)
      (received ++ taken ⟨s, op, s'⟩) := by
  obtain ⟨⟨k, mode⟩, toKernel, toHost, response⟩ := s
  cases op with
  | call command =>
    obtain ⟨done, todo, pre, out, hcalls, hstate, hmode, htoKernel, hpre, htodo, hbytes⟩ := hs
    have hascii : ¬∃ c ∈ command, 0x80 ≤ c := by
      rintro ⟨c, hc, hle⟩
      exact absurd (hok command rfl c hc).1 (UInt8.not_lt.mpr hle)
    cases response with
    | some response => cases hstep
    | none =>
      simp only [sessionStep, Option.isSome_none, Bool.false_eq_true, if_false, hascii] at hstep
      obtain rfl := Option.some.inj hstep
      refine ⟨done, todo ++ [command], pre, out, ?_, hstate, hmode, ?_, hpre, ?_, ?_⟩
      · rw [hcalls, List.append_assoc]
        rfl
      · rw [← List.append_assoc, htoKernel, lines, lines, List.flatMap_append,
          List.flatMap_singleton]
      · intro line hline
        rcases List.mem_append.mp hline with hline | hline
        · exact htodo line hline
        · rw [List.mem_singleton.mp hline]
          exact fun c hc => (hok command rfl c hc).2
      · rw [← hbytes]
        exact congrArg (· ++ _) (List.append_nil received)
  | getc =>
    cases toKernel with
    | nil => cases hstep
    | cons c rest =>
      obtain ⟨k', hk', rfl⟩ := Option.map_eq_some_iff.mp hstep
      rw [show (called _).toList = [] from rfl, show taken _ = [] from rfl, List.append_nil,
        List.append_nil]
      exact getc_streams hs hk'
  | putc =>
    obtain ⟨done, todo, pre, out, hcalls, hstate, hmode, htoKernel, hpre, htodo, hbytes⟩ := hs
    rcases hmode with ⟨rfl, -⟩ | ⟨rfl, rfl⟩
    · cases hstep
    · cases out with
      | nil => cases hstep
      | cons c out =>
        obtain rfl := Option.some.inj hstep
        refine ⟨done, todo, [], out, ?_, hstate, ?_, htoKernel, hpre, htodo, ?_⟩
        · rw [← hcalls]
          exact List.append_nil calls
        · exact (resume_cases out).imp_right fun h => ⟨h, rfl⟩
        · rw [← hbytes, List.append_assoc toHost]
          exact congrArg (· ++ _) (List.append_nil received)
  | recv n =>
    obtain ⟨done, todo, pre, out, hcalls, hstate, hmode, htoKernel, hpre, htodo, hbytes⟩ := hs
    cases response with
    | none => cases hstep
    | some got =>
      obtain ⟨response', rfl⟩ : ∃ response', s' = ⟨⟨k, mode⟩, toKernel, toHost.drop n, response'⟩ := by
        rw [sessionStep_recv] at hstep
        split at hstep
        · cases hstep
        · split at hstep
          · exact ⟨_, (Option.some.inj hstep).symm⟩
          · exact ⟨_, (Option.some.inj hstep).symm⟩
      refine ⟨done, todo, pre, out, ?_, hstate, hmode, htoKernel, hpre, htodo, ?_⟩
      · rw [← hcalls]
        exact List.append_nil calls
      · rw [← hbytes, taken, List.append_assoc, ← List.append_assoc (toHost.take n),
          List.take_append_drop]
  | timeout =>
    cases response with
    | none => cases hstep
    | some got =>
      obtain rfl := Option.some.inj hstep
      rw [show (called _).toList = [] from rfl, show taken _ = [] from rfl, List.append_nil,
        List.append_nil]
      exact hs

/-- So does a whole session. -/
theorem run_streams (hrun : Run (sessionStep tests) (Session.start s₀) tr s)
    (hok : ∀ e ∈ tr, Plain e) :
    Streams tests s₀ s (tr.filterMap called) (tr.flatMap taken) := by
  induction hrun with
  | nil =>
    exact ⟨[], [], [], [], rfl, rfl, .inl ⟨rfl, rfl⟩, rfl, fun c hc => absurd hc List.not_mem_nil,
      fun c hc => absurd hc List.not_mem_nil, rfl⟩
  | @snoc tr m s' op _ hlast ih =>
    have hs := sessionStep_streams (ih fun e he => hok e (List.mem_append_left _ he)) hlast
      (hok _ (List.mem_append_right _ (List.mem_singleton_self _)))
    have hcalled : [Edge.mk m op s'].filterMap called = (called ⟨m, op, s'⟩).toList := by
      cases h : called ⟨m, op, s'⟩ <;> simp [h]
    rw [List.filterMap_append, List.flatMap_append, List.flatMap_singleton, hcalled]
    exact hs

/-- The host gives up on the first command, and receives the report in the call of an empty one;
of the second report one byte has come. -/
def lateExchange : List SessionAct :=
  [.call [0x78], .getc, .timeout, .call [], .getc, .putc, .recv 1, .putc, .recv 1, .getc] ++
    [.call [0x78], .getc, .getc, .putc, .putc, .recv 1]

end Tests

end Leenix
