import Leenix.Init.Shell

/-!
# Which lines break a shell

A line is a list of words, cut at each space. On words, `run_cmd` is a choice of a command
and what its body makes of the other words (`meaning`); the faults that are left are the
ones of the program.

- `readTokens_holds`: what `args`, `argc` and the buffer hold after the line is split.
- `runCmd_eq_meaning`: `run_cmd` on the words of a line of at most 127 characters.
- `runCmd_safe_iff`: which lines each shell survives.
-/

namespace Leenix

namespace Shell

/-- The words of a line: every space ends one. -/
def words : List Byte → List (List Byte)
  | [] => []
  | c :: s =>
    if c = blank then [] :: words s
    else
      match words s with
      | [] => [[c]]
      | w :: ws => (c :: w) :: ws

/-- The words with a space behind each. -/
def spaced (ws : List (List Byte)) : List Byte := ws.flatMap fun w => w ++ [blank]

/-- The words with a space between them. -/
def joined (ws : List (List Byte)) : List Byte := (spaced ws).dropLast

/-- The value that `strtol` gives for a word. -/
def num (w : List Byte) (base : Nat) : Int := ((strtol (terminated w) base).map Strtol.value).getD 0

/-- What the store over the last space makes of words: without a word there is none. -/
def joinedOrFault (ws : List (List Byte)) : Except Fault (List Byte) :=
  if ws = [] then .error .strIndex else .ok (joined ws)

/-- What a command makes of the words behind it. Only three are kept. -/
def Command.meaning (args : List (List Byte)) : Command → Except Fault Action
  | .mdmp =>
    match args with
    | count :: addr :: _ => .ok (.mdmp (word (num count 0)) (word (num addr 0)))
    | _ => .ok .usage
  | .ptwalk =>
    .ok (.ptwalk (word (args[0]?.elim 0 (num · 0))) (word (args[1]?.elim 0x10000 (num · 0))))
  | .echo => (joinedOrFault (args.take 3)).map .echo
  | .repeatText =>
    match args with
    | [] => .ok .nothing
    | n :: args => (joinedOrFault (args.take 2)).map (.repeatText (num n 10))
  | command => .ok (.plain command)

/-- What a shell with the given commands makes of a line of words. -/
def meaning (commands : List Command) : List (List Byte) → Except Fault Action
  | [] => .error .nullPointer
  | w :: args =>
    match commands.find? fun command => command.text = w with
    | some command => command.meaning args
    | none => .ok .unknown

variable {s w t rest : List Byte} {ws : List (List Byte)} {a : Args} {p : Option Nat} {i n pos : Nat}

/-! ## Words -/

theorem words_of_ne_nil (hs : s ≠ []) :
    words s = s.takeWhile (· ≠ blank) :: words (s.dropWhile (· ≠ blank)).tail := by
  induction s with
  | nil => exact absurd rfl hs
  | cons c s ih =>
    by_cases hc : c = blank
    · simp [words, hc]
    · cases s with
      | nil => simp [words, hc]
      | cons d s =>
        have hrest := ih (List.cons_ne_nil d s)
        rw [words, if_neg hc, hrest]
        simp [hc]

/-- The words are what `strtok` cuts the line into. -/
theorem map_tokenAt_pieces (s : List Byte) (pos : Nat) :
    (piecesFrom (isDelim [blank]) s pos).map (tokenAt s) = words (s.drop pos) := by
  induction pos using piecesFrom.induct (isDelim [blank]) s with
  | case1 pos hlt stop ih =>
    have hne : s.drop pos ≠ [] := by
      rw [ne_eq, List.drop_eq_nil_iff]
      omega
    have hsep : (fun c => !isDelim [blank] c) = fun c => decide (c ≠ blank) := by
      funext c
      simp [isDelim]
    have hstop : stop = pos + ((s.drop pos).takeWhile (· ≠ blank)).length := by
      rw [← hsep]
      rfl
    have hword : tokenAt s (pos, stop) = (s.drop pos).takeWhile (· ≠ blank) := by
      simp only [tokenAt, hstop, Nat.add_sub_cancel_left]
      exact List.prefix_iff_eq_take.mp (List.takeWhile_prefix _) |>.symm
    have hrest : s.drop (stop + 1) = ((s.drop pos).dropWhile (· ≠ blank)).tail := by
      have hdrop : (s.drop pos).dropWhile (· ≠ blank) = s.drop stop := by
        have hleft : ((s.drop pos).takeWhile (· ≠ blank) ++ (s.drop pos).dropWhile (· ≠ blank)).drop
            ((s.drop pos).takeWhile (· ≠ blank)).length = (s.drop pos).dropWhile (· ≠ blank) :=
          List.drop_left
        rw [hstop, ← List.drop_drop, ← hleft, List.takeWhile_append_dropWhile]
      rw [hdrop, List.tail_drop]
    rw [piecesFrom, if_pos hlt, words_of_ne_nil hne, List.map_cons, hword, ih, hrest]
  | case2 pos hge =>
    rw [piecesFrom, if_neg hge, List.drop_eq_nil_of_le (Nat.not_lt.mp hge)]
    rfl

/-! ## The arguments -/

theorem ok_bind {α β : Type} (x : α) (f : α → Except Fault β) : (Except.ok x >>= f) = f x := by
  simp only [bind, Except.bind]

@[simp] theorem orFault_some {α : Type} (fault : Fault) (x : α) :
    orFault fault (some x) = .ok x := rfl

/-- A pointer to a word in the buffer, or `NULL` where there is none. -/
inductive PointsTo (buf : List Byte) : Option Nat → Option (List Byte) → Prop
  | null : PointsTo buf none none
  | word (p : Nat) (w rest : List Byte) : 0 ∉ w → buf.drop p = terminated w ++ rest →
      PointsTo buf (some p) (some w)

/-- `args` and `argc` for the words of a line. -/
structure Args.Holds (a : Args) (ws : List (List Byte)) : Prop where
  argc : a.argc = min 4 ws.length
  arg : ∀ i, i < 4 → ∃ p, a.arg i = .ok p ∧ PointsTo a.buf p ws[i]?

/-- The calls of `strtok` so far: what the first `j` of them returned is in `args`. -/
structure Filled (found : List (Nat × Nat)) (j : Nat) (args : List (Option Nat)) : Prop where
  length : args.length = 4
  filled : ∀ k, k < j → args[k]? = some (found[k]?.map Prod.fst)
  unused : ∀ k, j ≤ k → k < 4 → args[k]? = some none

theorem Filled.store {found : List (Nat × Nat)} {args : List (Option Nat)} {j : Nat}
    (h : Filled found j args) (hj : j < 4) :
    ∃ args', put args j (found[j]?.map Prod.fst) = some args' ∧ Filled found (j + 1) args' := by
  have hlen := h.length
  refine ⟨args.set j (found[j]?.map Prod.fst), if_pos (by omega), ?_, fun k hk => ?_, fun k hk hk4 => ?_⟩
  · rw [List.length_set, hlen]
  · by_cases hkj : k = j
    · rw [hkj, List.getElem?_set_self (by omega)]
    · rw [List.getElem?_set_ne (Ne.symm hkj), h.filled k (by omega)]
  · rw [List.getElem?_set_ne (by omega), h.unused k (by omega) hk4]

/-- **Splitting a line.** The first four pieces go to `args`; each is terminated in the
buffer. -/
theorem readTokens_filled {buf : List Byte} {token nextToken saved : Option Nat} {n j : Nat}
    {args : List (Option Nat)} (hs : 0 ∉ s) (hj : j + n = 4)
    (hcall : nthCall (fun buf str saved => strtok buf str [blank] saved) j (terminated s ++ rest)
      (some 0) saved = some (token, buf, nextToken))
    (hle : j ≤ (piecesFrom (isDelim [blank]) s 0).length)
    (hargs : Filled (piecesFrom (isDelim [blank]) s 0) j args) :
    ∃ a, readTokens n token buf nextToken j args = .ok a ∧
      a.argc = min 4 (piecesFrom (isDelim [blank]) s 0).length ∧
      Filled (piecesFrom (isDelim [blank]) s 0) 4 a.args ∧
      a.buf = cutAll s.length (terminated s ++ rest)
        ((piecesFrom (isDelim [blank]) s 0).take (a.argc + 1)) := by
  have hscan := fun j => (strtok_scans hs [blank] rest).nthCall (some 0) saved j rfl
    (Nat.zero_le _) (rfl : (terminated s ++ rest).drop 0 = _)
  induction n generalizing token buf nextToken j args with
  | zero =>
    obtain ⟨nextToken', hcall', -⟩ := hscan j
    rw [hcall] at hcall'
    obtain ⟨rfl, rfl, rfl⟩ : _ ∧ _ ∧ _ := by simpa using hcall'
    obtain rfl : j = 4 := by omega
    exact ⟨_, rfl, (Nat.min_eq_left hle).symm, hargs, rfl⟩
  | succ n ih =>
    obtain ⟨nextToken', hcall', -⟩ := hscan j
    rw [hcall] at hcall'
    obtain ⟨rfl, rfl, rfl⟩ : _ ∧ _ ∧ _ := by simpa using hcall'
    cases hfound : (piecesFrom (isDelim [blank]) s 0)[j]? with
    | none =>
      have hge := List.getElem?_eq_none_iff.mp hfound
      obtain rfl : j = (piecesFrom (isDelim [blank]) s 0).length := Nat.le_antisymm hle hge
      refine ⟨_, rfl, by simp only; omega, ⟨hargs.length, fun k hk => ?_, by omega⟩, rfl⟩
      rcases Nat.lt_or_ge k (piecesFrom (isDelim [blank]) s 0).length with hlt | hge
      · exact hargs.filled k hlt
      · rw [hargs.unused k hge hk, List.getElem?_eq_none hge]
        rfl
    | some t =>
      obtain ⟨args', hput, hargs'⟩ := hargs.store (by omega)
      obtain ⟨nextToken', hcall', -⟩ := hscan (j + 1)
      have hnext := hcall'
      rw [nthCall_concat, hcall, Option.bind_some] at hnext
      have hlt := (List.getElem?_eq_some_iff.mp hfound).1
      rw [hfound] at hput
      simp only [Option.map_some] at hput
      simp only [readTokens, Option.map_some, hput, hnext, orFault_some, ok_bind]
      exact ih (by omega) hcall' hlt hargs'

/-- **The arguments** of a line are its first four words. -/
theorem Args.holds_of_filled (hs : 0 ∉ s)
    (hargc : a.argc = min 4 (piecesFrom (isDelim [blank]) s 0).length)
    (hargs : Filled (piecesFrom (isDelim [blank]) s 0) 4 a.args)
    (hbuf : a.buf = cutAll s.length (terminated s ++ rest)
      ((piecesFrom (isDelim [blank]) s 0).take (a.argc + 1))) : a.Holds (words s) := by
  have hwords : (piecesFrom (isDelim [blank]) s 0).map (tokenAt s) = words s :=
    map_tokenAt_pieces s 0
  have hpieces : ∀ t ∈ (piecesFrom (isDelim [blank]) s 0).take (a.argc + 1),
      IsPiece (isDelim [blank]) s t.1 t.2 := fun t ht =>
    isPiece_of_mem starts_zero (List.mem_of_mem_take ht)
  refine ⟨by rw [hargc, ← hwords, List.length_map],
    fun i hi => ⟨(piecesFrom (isDelim [blank]) s 0)[i]?.map Prod.fst, ?_, ?_⟩⟩
  · rw [Args.arg, hargs.filled i hi, orFault_some]
  · rw [← hwords, List.getElem?_map]
    cases hfound : (piecesFrom (isDelim [blank]) s 0)[i]? with
    | none => exact .null
    | some t =>
      have hlt := (List.getElem?_eq_some_iff.mp hfound).1
      have hmem : (t.1, t.2) ∈ (piecesFrom (isDelim [blank]) s 0).take (a.argc + 1) := by
        refine List.mem_of_getElem? (i := i) ?_
        rw [List.getElem?_take_of_lt (by omega)]
        exact hfound
      obtain ⟨after, hafter⟩ := drop_cutAll rest hpieces hmem
      exact .word t.1 _ after (zero_notMem_tokenAt hs _) (hbuf ▸ hafter)

/-! ## Calls with a word -/

theorem Args.number_eq (h : PointsTo a.buf p (some w)) (base : Nat) :
    a.number p base = .ok (num w base) := by
  obtain _ | ⟨q, w, rest, hw, hdrop⟩ := h
  have hshort := strtol_terminated hw [] base
  rw [List.append_nil] at hshort
  simp only [Args.number, Args.str, hdrop, ok_bind, strtol_terminated hw rest, orFault_some, num,
    hshort]
  rfl

theorem Command.zero_notMem_text (command : Command) : 0 ∉ command.text := by
  cases command <;> decide

/-- A command is found by its text. -/
theorem Args.findCommand_eq (h : PointsTo a.buf p (some w)) (commands : List Command) :
    a.findCommand p commands = .ok (commands.find? fun command => command.text = w) := by
  obtain _ | ⟨q, w, rest, hw, hdrop⟩ := h
  induction commands with
  | nil => rfl
  | cons command commands ih =>
    obtain ⟨r, hr, hiff⟩ := strcmp_eq_zero_iff hw command.zero_notMem_text rest []
    rw [List.append_nil] at hr
    simp only [Args.findCommand, Args.str, ok_bind, hdrop, hr, orFault_some, List.find?_cons]
    by_cases heq : w = command.text
    · simp only [hiff.mpr heq, heq, if_true, decide_true]
      rfl
    · simp only [hiff.not.mpr heq, Ne.symm heq, if_false, decide_false]
      exact ih

/-! ## Joining words -/

theorem strlen_terminated (ht : 0 ∉ t) (rest : List Byte) :
    strlen (terminated t ++ rest) = some t.length := by
  rw [strlen, advance_terminated ht, List.takeWhile_eq_self_iff.mpr fun _ _ => rfl]

/-- `strcat` of a string for which there is room. -/
theorem strcat_eq (ht : 0 ∉ t) (hw : 0 ∉ w) (rest : List Byte) (hroom : w.length ≤ rest.length)
    (after : List Byte) :
    strcat (terminated t ++ rest) (terminated w ++ after) =
      some (terminated (t ++ w) ++ rest.drop w.length) := by
  have htake : (terminated w ++ after).take w.length = w := by
    rw [terminated, List.append_assoc, List.take_left]
  have hfits : t.length + (terminated w).length ≤ (terminated t ++ rest).length := by
    simp only [terminated, List.length_append, List.length_singleton]
    omega
  simp only [strcat, strlen_terminated ht, strlen_terminated hw, htake, Option.bind_eq_bind,
    Option.bind_some, putAll_eq hfits]
  simp [terminated]

theorem zero_notMem_spaced (hws : ∀ w ∈ ws, 0 ∉ w) : 0 ∉ spaced ws := by
  intro h
  obtain ⟨w, hw, hzero⟩ := List.mem_flatMap.mp h
  rcases List.mem_append.mp hzero with hzero | hzero
  · exact hws w hw hzero
  · cases List.mem_singleton.mp hzero

theorem length_spaced (hws : ∀ w ∈ ws, w.length ≤ 127) : (spaced ws).length ≤ 128 * ws.length := by
  induction ws with
  | nil => exact Nat.le_refl _
  | cons w ws ih =>
    have hrest := ih fun v hv => hws v (List.mem_cons_of_mem w hv)
    have hw := hws w List.mem_cons_self
    have hcons : spaced (w :: ws) = w ++ [blank] ++ spaced ws := rfl
    rw [hcons, List.length_append, List.length_append, List.length_singleton, List.length_cons]
    omega

/-- **The loop** over some of the arguments appends their words. -/
theorem Args.appendArgs_eq (h : a.Holds ws) (ht : 0 ∉ t) (hin : i + n ≤ min 4 ws.length)
    (hroom : (spaced ((ws.drop i).take n)).length ≤ rest.length) :
    a.appendArgs n i (terminated t ++ rest) =
      .ok (terminated (t ++ spaced ((ws.drop i).take n)) ++
        rest.drop (spaced ((ws.drop i).take n)).length) := by
  induction n generalizing i t rest with
  | zero => simp [appendArgs, spaced]; rfl
  | succ n ih =>
    have hlt : i < ws.length := by omega
    obtain ⟨p, harg, hpoints⟩ := h.arg i (by omega)
    rw [List.getElem?_eq_getElem hlt] at hpoints
    generalize hw : ws[i] = w at hpoints
    obtain _ | ⟨q, w, after, hzero, hdrop⟩ := hpoints
    have hcons : spaced ((ws.drop i).take (n + 1)) = w ++ [blank] ++ spaced ((ws.drop (i + 1)).take n) := by
      rw [List.drop_eq_getElem_cons hlt, hw]
      rfl
    rw [hcons] at hroom ⊢
    simp only [List.length_append, List.length_singleton] at hroom
    have hfirst := strcat_eq ht hzero rest (by omega) after
    have htw : 0 ∉ t ++ w := fun hmem => (List.mem_append.mp hmem).elim ht hzero
    have hblank : 0 ∉ t ++ w ++ [blank] := fun hmem =>
      (List.mem_append.mp hmem).elim htw fun hmem => nomatch List.mem_singleton.mp hmem
    have hsecond := strcat_eq htw (w := [blank]) (by decide) (rest.drop w.length)
      (by rw [List.length_drop, List.length_singleton]; omega) []
    have hrest : a.appendArgs n (i + 1) (terminated (t ++ w ++ [blank]) ++ rest.drop (w.length + 1)) =
        _ := ih hblank (by omega) (by rw [List.length_drop]; omega)
    rw [List.append_nil, List.drop_drop] at hsecond
    simp only [appendArgs, harg, ok_bind, Args.str, hdrop, hfirst, orFault_some, hsecond,
      List.length_singleton, hrest]
    simp only [List.drop_drop, List.append_assoc, List.length_append, List.length_singleton,
      Nat.add_assoc]

theorem replicate_terminated (n : Nat) :
    List.replicate (n + 1) (0 : Byte) = terminated [] ++ List.replicate n 0 := rfl

/-- **Joining.** The arguments from `first` on with a space between them; without one, the
store goes in front of `str`. -/
theorem Args.joinArgs_eq {first : Nat} (h : a.Holds ws) (hws : ∀ w ∈ ws, 0 ∉ w ∧ w.length ≤ 127)
    (hfirst : first ≤ a.argc) :
    a.joinArgs first = joinedOrFault ((ws.drop first).take (4 - first)) := by
  have hargc := h.argc
  obtain ⟨kept, hkept⟩ : ∃ kept, kept = (ws.drop first).take (4 - first) := ⟨_, rfl⟩
  have htake : (ws.drop first).take (a.argc - first) = kept := by
    rw [hkept, List.take_eq_take_iff, List.length_drop]
    omega
  have hsub : ∀ w ∈ kept, w ∈ ws := fun w hw =>
    List.mem_of_mem_drop (List.mem_of_mem_take (hkept ▸ hw))
  have hlen : (spaced kept).length ≤ 128 * kept.length :=
    length_spaced fun w hw => (hws w (hsub w hw)).2
  have hfour : kept.length ≤ 4 := by
    rw [hkept, List.length_take]
    omega
  have hzero : 0 ∉ spaced kept := zero_notMem_spaced fun w hw => (hws w (hsub w hw)).1
  obtain ⟨rest, hrest, hstr⟩ : ∃ rest : List Byte, rest.length = 1023 ∧
      List.replicate 1024 0 = terminated [] ++ rest :=
    ⟨List.replicate 1023 0, List.length_replicate, replicate_terminated 1023⟩
  have happend : a.appendArgs (a.argc - first) first (terminated [] ++ rest) = _ :=
    Args.appendArgs_eq h List.not_mem_nil (by omega) (by rw [htake]; omega)
  rw [htake, List.nil_append] at happend
  simp only [joinArgs, hstr, happend, ok_bind, strlen_terminated hzero, orFault_some, ← hkept]
  rcases List.eq_nil_or_concat kept with rfl | ⟨init, w, rfl⟩
  · have hindex : u32 ((spaced []).length + (2 ^ 32 - 1)) = 2 ^ 32 - 1 := by
      have hempty : (spaced []).length = 0 := rfl
      rw [hempty, Nat.zero_add]
      decide
    rw [hindex, put_of_le]
    · rfl
    · simp only [terminated, spaced, List.flatMap_nil, List.nil_append, List.length_append,
        List.length_drop, List.length_singleton]
      omega
  · have hne : init.concat w ≠ [] := by simp
    obtain ⟨body, hbody⟩ : ∃ body, spaced (init.concat w) = body ++ [blank] :=
      ⟨spaced init ++ w, by simp [spaced]⟩
    have hindex : u32 ((body ++ [blank]).length + (2 ^ 32 - 1)) = body.length := by
      rw [hbody] at hlen
      simp only [u32, List.length_append, List.length_singleton] at hlen ⊢
      omega
    have hput := put_append body (0 :: rest.drop (body ++ [blank]).length) blank
      (0 : Byte)
    have hjoined : joined (init.concat w) = body := by
      rw [joined, hbody, List.dropLast_concat]
    have hbodyZero : 0 ∉ body := fun hmem => hzero (hbody ▸ List.mem_append_left _ hmem)
    rw [joinedOrFault, if_neg hne, hjoined, hbody, hindex, terminated, List.append_assoc,
      List.append_assoc, List.singleton_append, List.singleton_append, hput, orFault_some, ok_bind,
      cstr_append hbodyZero, cstr_zero, List.append_nil]
    rfl

/-! ## Whole lines -/

/-- **A command** on the words behind it. -/
theorem Args.execute_eq {args : List (List Byte)} (h : a.Holds (w :: args))
    (hws : ∀ v ∈ w :: args, 0 ∉ v ∧ v.length ≤ 127) (command : Command) :
    a.execute command = command.meaning args := by
  have hargc := h.argc
  rw [List.length_cons] at hargc
  obtain ⟨p₁, harg₁, hpoints₁⟩ := h.arg 1 (by decide)
  obtain ⟨p₂, harg₂, hpoints₂⟩ := h.arg 2 (by decide)
  rw [List.getElem?_cons_succ] at hpoints₁ hpoints₂
  cases command with
  | mdmp =>
    rcases args with _ | ⟨count, _ | ⟨addr, args⟩⟩
    · simp [execute, Command.meaning, hargc]; rfl
    · simp [execute, Command.meaning, hargc]; rfl
    · have hlt : ¬a.argc < 3 := by simp [hargc]
      simp only [execute, hlt, if_false, harg₁, harg₂, ok_bind, Args.number_eq hpoints₁,
        Args.number_eq hpoints₂]
      rfl
  | ptwalk =>
    rcases args with _ | ⟨start, _ | ⟨stop, args⟩⟩
    · cases hpoints₁
      cases hpoints₂
      simp only [execute, harg₁, harg₂, ok_bind]
      rfl
    · cases hpoints₂
      have hnumber := Args.number_eq hpoints₁ 0
      obtain _ | ⟨q, v, after, -, -⟩ := hpoints₁
      simp only [execute, harg₁, harg₂, ok_bind, Option.isSome_some, if_true, hnumber]
      rfl
    · have hnumber₁ := Args.number_eq hpoints₁ 0
      have hnumber₂ := Args.number_eq hpoints₂ 0
      obtain _ | ⟨q, v, after, -, -⟩ := hpoints₁
      obtain _ | ⟨q', v', after', -, -⟩ := hpoints₂
      simp only [execute, harg₁, harg₂, ok_bind, Option.isSome_some, if_true, hnumber₁, hnumber₂]
      rfl
  | echo =>
    have hjoin : a.joinArgs 1 = joinedOrFault (args.take 3) := Args.joinArgs_eq h hws (by omega)
    rw [execute, hjoin, Command.meaning]
    cases joinedOrFault (args.take 3) <;> rfl
  | repeatText =>
    rcases args with _ | ⟨n, args⟩
    · simp [execute, Command.meaning, hargc]; rfl
    · have hlt : 1 < a.argc := by
        rw [hargc, List.length_cons]
        omega
      have hjoin : a.joinArgs 2 = joinedOrFault (args.take 2) := Args.joinArgs_eq h hws hlt
      simp only [execute, hlt, if_true, harg₁, ok_bind, Args.number_eq hpoints₁, hjoin]
      simp only [Command.meaning]
      cases joinedOrFault (args.take 2) <;> rfl
  | _ => rfl

theorem mem_words (hs : 0 ∉ s) (hw : w ∈ words s) : 0 ∉ w ∧ w.length ≤ s.length := by
  have hwords : (piecesFrom (isDelim [blank]) s 0).map (tokenAt s) = words s :=
    map_tokenAt_pieces s 0
  rw [← hwords] at hw
  obtain ⟨t, -, rfl⟩ := List.mem_map.mp hw
  refine ⟨zero_notMem_tokenAt hs t, ?_⟩
  simp only [tokenAt, List.length_take, List.length_drop]
  omega

/-- **`run_cmd` on words.** A shell does with a line what the words of the line mean. -/
theorem runCmd_eq_meaning {commands : List Command} (hs : 0 ∉ s) (hlen : s.length ≤ 127)
    (hcommands : commands ≠ []) (rest : List Byte) (nextToken : Option Nat) :
    runCmd commands (terminated s ++ rest) nextToken = meaning commands (words s) := by
  obtain ⟨saved, hcall, -⟩ := (strtok_scans hs [blank] rest).nthCall (some 0) nextToken 0 rfl
    (Nat.zero_le _) rfl
  have hempty : Filled (piecesFrom (isDelim [blank]) s 0) 0 (List.replicate 4 none) :=
    ⟨rfl, by omega, fun k _ hk => by rw [List.getElem?_replicate, if_pos hk]⟩
  obtain ⟨a, hread, hargc, hargs, hbuf⟩ :=
    readTokens_filled hs (Nat.zero_add 4) hcall (Nat.zero_le _) hempty
  have hholds : a.Holds (words s) := Args.holds_of_filled hs hargc hargs hbuf
  have hws : ∀ w ∈ words s, 0 ∉ w ∧ w.length ≤ 127 := fun w hw =>
    ⟨(mem_words hs hw).1, Nat.le_trans (mem_words hs hw).2 hlen⟩
  obtain ⟨p, harg, hpoints⟩ := hholds.arg 0 (by decide)
  rw [nthCall] at hcall
  simp only [runCmd, hcall, orFault_some, ok_bind, hread, harg]
  generalize words s = ws at hholds hws hpoints
  cases ws with
  | nil =>
    cases hpoints
    obtain ⟨command, commands, rfl⟩ := List.exists_cons_of_ne_nil hcommands
    rfl
  | cons w args =>
    have hfind := Args.findCommand_eq hpoints commands
    simp only [hfind, ok_bind, meaning]
    cases commands.find? fun command => command.text = w with
    | none => rfl
    | some command => exact Args.execute_eq hholds hws command

/-! ## The lines that break -/

/-- The line is not empty, `echo` has a word behind it, and `repeat` a second one if it
has one. -/
def Complete (line : List Byte) : Prop :=
  line ≠ [] ∧ words line ≠ [Command.echo.text] ∧ ∀ n, words line ≠ [Command.repeatText.text, n]

/-- Whatever lies behind the line, and whatever was split before it, nothing happens that
must not. -/
def Survives (runCmd : List Byte → Option Nat → Except Fault Action) (line : List Byte) : Prop :=
  ∀ rest nextToken fault, runCmd (terminated line ++ rest) nextToken ≠ .error fault

theorem words_eq_nil_iff : words s = [] ↔ s = [] := by
  constructor
  · intro h
    by_contra hs
    rw [words_of_ne_nil hs] at h
    cases h
  · rintro rfl
    rfl

theorem joinedOrFault_eq_error {fault : Fault} (h : joinedOrFault ws = .error fault) : ws = [] := by
  unfold joinedOrFault at h
  split at h
  case isTrue hempty => exact hempty
  case isFalse => cases h

/-- The commands that store in front of `str`. -/
theorem Command.meaning_eq_error {args : List (List Byte)} {command : Command} {fault : Fault}
    (h : command.meaning args = .error fault) :
    command = .echo ∧ args = [] ∨ command = .repeatText ∧ ∃ n, args = [n] := by
  cases command with
  | mdmp => rcases args with _ | ⟨count, _ | ⟨addr, args⟩⟩ <;> cases h
  | echo =>
    cases hjoined : joinedOrFault (args.take 3) with
    | ok str =>
      rw [meaning, hjoined] at h
      cases h
    | error e => exact .inl ⟨rfl, by simpa using joinedOrFault_eq_error hjoined⟩
  | repeatText =>
    rcases args with _ | ⟨n, args⟩
    · cases h
    · cases hjoined : joinedOrFault (args.take 2) with
      | ok str =>
        simp only [meaning, hjoined] at h
        cases h
      | error e =>
        have hnil : args = [] := by simpa using joinedOrFault_eq_error hjoined
        exact .inr ⟨rfl, n, by rw [hnil]⟩
  | _ => cases h

/-- A shell that has `echo` and `repeat` survives a line exactly when it is complete. -/
theorem survives_iff {commands : List Command} (hs : 0 ∉ s) (hlen : s.length ≤ 127)
    (hecho : (commands.find? fun command => command.text = Command.echo.text) = some .echo)
    (hrepeat : (commands.find? fun command => command.text = Command.repeatText.text) =
      some .repeatText) :
    Survives (runCmd commands) s ↔ Complete s := by
  have hcommands : commands ≠ [] := by
    rintro rfl
    cases hecho
  have hrun := runCmd_eq_meaning hs hlen hcommands
  constructor
  · intro h
    refine ⟨fun hnil => ?_, fun hwords => ?_, fun n hwords => ?_⟩
    · exact h [] none .nullPointer (by rw [hrun, words_eq_nil_iff.mpr hnil, meaning])
    · exact h [] none .strIndex (by rw [hrun, hwords, meaning, hecho]; rfl)
    · exact h [] none .strIndex (by rw [hrun, hwords, meaning, hrepeat]; rfl)
  · rintro ⟨hne, hnotEcho, hnotRepeat⟩ rest nextToken fault h
    rw [hrun] at h
    rcases hwords : words s with _ | ⟨w, args⟩
    · exact hne (words_eq_nil_iff.mp hwords)
    · rw [hwords, meaning] at h
      split at h
      case h_1 command hfind =>
        have htext : command.text = w := by simpa using List.find?_some hfind
        rcases Command.meaning_eq_error h with ⟨rfl, rfl⟩ | ⟨rfl, n, rfl⟩
        · exact hnotEcho (by rw [hwords, htext])
        · exact hnotRepeat n (by rw [hwords, htext])
      case h_2 => cases h

/-- **Both shells** survive a line of at most 127 characters exactly when it is complete. -/
theorem runCmd_survives_iff {line : List Byte} (hline : 0 ∉ line) (hlen : line.length ≤ 127) :
    (Survives kernelRunCmd line ↔ Complete line) ∧ (Survives userRunCmd line ↔ Complete line) :=
  ⟨survives_iff hline hlen (by decide) (by decide), survives_iff hline hlen (by decide) (by decide)⟩

/-- The line `echo a`. -/
theorem runCmd_survives_iff_echo :
    (Survives kernelRunCmd [0x65, 0x63, 0x68, 0x6F, 0x20, 0x61] ↔
        Complete [0x65, 0x63, 0x68, 0x6F, 0x20, 0x61]) ∧
      (Survives userRunCmd [0x65, 0x63, 0x68, 0x6F, 0x20, 0x61] ↔
        Complete [0x65, 0x63, 0x68, 0x6F, 0x20, 0x61]) :=
  runCmd_survives_iff (by decide) (by decide)

/-- The empty line. -/
theorem not_survives_empty : ¬Survives kernelRunCmd [] ∧ ¬Survives userRunCmd [] :=
  ⟨fun h => h [] none .nullPointer rfl, fun h => h [] none .nullPointer rfl⟩

end Shell

end Leenix
