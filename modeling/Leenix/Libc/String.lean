import Leenix.Machine

/-!
# Strings in memory (libc/string.c)

The string functions that path lookup goes through, on memory given as the list
of bytes from a pointer on. A string there is its bytes up to the first zero. A
function that runs off the end of the list has no value.

- `strcmp_eq_zero_iff`: two terminated strings compare equal exactly when they are;
  `memcmp_eq_zero_iff`: the same for blocks of bytes.
- `strtokR_first`: the first token of a path, and where the rest starts.
- `strtokR_keeps_iff`: which strings the first call leaves as they are.
-/

namespace Leenix

/-- The string behind a pointer. -/
def cstr (mem : List Byte) : List Byte := mem.takeWhile (· ≠ 0)

/-- The bytes of a terminated string. -/
def terminated (s : List Byte) : List Byte := s ++ [0]

/-- A string without its terminator. -/
abbrev CString := { s : List Byte // 0 ∉ s }

/-- `strcmp` (string.c:27–35). -/
def strcmp : List Byte → List Byte → Option Int
  | a :: str1, b :: str2 =>
    if a ≠ 0 ∧ a = b then strcmp str1 str2 else some ((a.toNat : Int) - b.toNat)
  | _, _ => none

/-- `memcmp` (string.c:47–59). -/
def memcmp : List Byte → List Byte → Nat → Option Int
  | _, _, 0 => some 0
  | a :: s1, b :: s2, n + 1 =>
    if a ≠ b then some ((a.toNat : Int) - b.toNat) else memcmp s1 s2 n
  | _, _, _ + 1 => none

/-- `while (*str != '\0' && p) str++`: the number of steps. -/
def advance (p : Byte → Bool) : List Byte → Option Nat
  | [] => none
  | c :: str => if c ≠ 0 ∧ p c then (advance p str).map (· + 1) else some 0

/-- `strtok_r` (string.c:186–260) on a buffer, with positions for pointers: the
token, the buffer after, and `*saveptr` after. -/
def strtokR (buf : List Byte) (str : Option Nat) (delim : List Byte) (saveptr : Option Nat) :
    Option (Option Nat × List Byte × Option Nat) :=
  match str.or saveptr with
  | none => some (none, buf, none)
  | some str => do
    let skipped ← advance (fun c => c ∈ delim) (buf.drop str)
    let tokenStart := str + skipped
    if buf[tokenStart]? = some 0 then return (none, buf, none)
    else
      let length ← advance (fun c => c ∉ delim) (buf.drop tokenStart)
      let stop := tokenStart + length
      if buf[stop]? = some 0 then return (some tokenStart, buf, none)
      else return (some tokenStart, buf.set stop 0, some (stop + 1))

variable {s t rest : List Byte} {n : Nat}

theorem cstr_append (hs : 0 ∉ s) (rest : List Byte) : cstr (s ++ rest) = s ++ cstr rest := by
  unfold cstr
  rw [List.takeWhile_append_of_pos]
  intro c hc
  simp only [ne_eq, decide_eq_true_eq]
  rintro rfl
  exact hs hc

@[simp] theorem cstr_zero (rest : List Byte) : cstr (0 :: rest) = [] := by simp [cstr]

/-- A terminated string is read back. -/
theorem cstr_terminated (hs : 0 ∉ s) (rest : List Byte) : cstr (terminated s ++ rest) = s := by
  rw [terminated, List.append_assoc, cstr_append hs]
  simp

theorem zero_notMem_cstr (mem : List Byte) : 0 ∉ cstr mem := by
  intro h
  simpa using List.all_eq_true.mp List.all_takeWhile 0 h

/-- Memory with a zero in it holds a terminated string. -/
theorem exists_cstr_append {mem : List Byte} (h : 0 ∈ mem) :
    ∃ rest, mem = terminated (cstr mem) ++ rest := by
  induction mem with
  | nil => cases h
  | cons c mem ih =>
    by_cases hc : c = 0
    · subst hc
      exact ⟨mem, by simp [terminated]⟩
    · obtain ⟨rest, hrest⟩ := ih ((List.mem_cons.mp h).resolve_left (Ne.symm hc))
      refine ⟨rest, ?_⟩
      have hcons : cstr (c :: mem) = c :: cstr mem := by simp [cstr, hc]
      rw [hcons, terminated, List.cons_append, List.cons_append, ← terminated, ← hrest]

/-- Two terminated strings compare equal exactly when they are. -/
theorem strcmp_eq_zero_iff (hs : 0 ∉ s) (ht : 0 ∉ t) (rest rest' : List Byte) :
    ∃ r, strcmp (terminated s ++ rest) (terminated t ++ rest') = some r ∧ (r = 0 ↔ s = t) := by
  induction s generalizing t with
  | nil =>
    cases t with
    | nil => exact ⟨0, by simp [strcmp, terminated], by simp⟩
    | cons b t =>
      have hb : b ≠ 0 := fun hb => ht (hb ▸ List.mem_cons_self)
      refine ⟨_, by simp [strcmp, terminated]; rfl, ?_⟩
      have : b.toNat ≠ 0 := fun h => hb (UInt8.toNat_inj.mp h)
      simp only [reduceCtorEq, iff_false]
      omega
  | cons a s ih =>
    have ha : a ≠ 0 := fun ha => hs (ha ▸ List.mem_cons_self)
    cases t with
    | nil =>
      refine ⟨_, by simp [strcmp, terminated, ha]; rfl, ?_⟩
      have : a.toNat ≠ 0 := fun h => ha (UInt8.toNat_inj.mp h)
      simp only [reduceCtorEq, iff_false]
      omega
    | cons b t =>
      by_cases hab : a = b
      · subst hab
        obtain ⟨r, hr, hiff⟩ := ih (fun h => hs (List.mem_cons_of_mem a h))
          (fun h => ht (List.mem_cons_of_mem a h))
        refine ⟨r, ?_, by simpa using hiff⟩
        rw [← hr]
        simp [strcmp, terminated, ha]
      · refine ⟨_, by simp [strcmp, terminated, hab]; rfl, ?_⟩
        have : a.toNat ≠ b.toNat := fun h => hab (UInt8.toNat_inj.mp h)
        simp only [List.cons.injEq, hab, false_and, iff_false]
        omega

/-- Two blocks compare equal exactly when their first bytes are. -/
theorem memcmp_eq_zero_iff (hs : n ≤ s.length) (ht : n ≤ t.length) :
    memcmp s t n = some 0 ↔ s.take n = t.take n := by
  induction n generalizing s t with
  | zero => simp [memcmp]
  | succ n ih =>
    rcases s with _ | ⟨a, s⟩
    · cases hs
    rcases t with _ | ⟨b, t⟩
    · cases ht
    have hrest := ih (Nat.le_of_succ_le_succ hs) (Nat.le_of_succ_le_succ ht)
    by_cases hab : a = b
    · simp [memcmp, hab, hrest]
    · have hne : a.toNat ≠ b.toNat := fun h => hab (UInt8.toNat_inj.mp h)
      have hdiff : ¬((a.toNat : Int) - b.toNat = 0) := by omega
      simp [memcmp, hab, hdiff]

/-- Characters that are not the stop character, and then the stop or nothing. -/
theorem takeWhile_ne {c : Byte} (hs : c ∉ s) (hrest : rest = [] ∨ rest.head? = some c) :
    (s ++ rest).takeWhile (· ≠ c) = s := by
  rw [List.takeWhile_append_of_pos fun b hb => by
    simpa using fun h : b = c => hs (h ▸ hb)]
  rcases hrest with rfl | hhead
  · rw [List.takeWhile_nil, List.append_nil]
  · obtain ⟨tail, rfl⟩ := List.head?_eq_some_iff.mp hhead
    simp

/-- A scan stops behind the bytes it may skip. -/
theorem advance_append {p : Byte → Bool} {c : Byte} (hs : 0 ∉ s) (hp : ∀ b ∈ s, p b = true)
    (hstop : c = 0 ∨ p c = false) : advance p (s ++ c :: rest) = some s.length := by
  induction s with
  | nil => rcases hstop with rfl | hstop <;> simp [advance, *]
  | cons b s ih =>
    have hb : b ≠ 0 := fun hb => hs (hb ▸ List.mem_cons_self)
    have hrest := ih (fun h => hs (List.mem_cons_of_mem b h))
      (fun x hx => hp x (List.mem_cons_of_mem b hx))
    simp [advance, hb, hp b List.mem_cons_self, hrest]

/-- A token with a delimiter behind it. -/
theorem strtokR_of_token {buf delim : List Byte} {saveptr : Option Nat} {str skipped length : Nat}
    (hskip : advance (fun c => c ∈ delim) (buf.drop str) = some skipped)
    (hstart : buf[str + skipped]? ≠ some 0)
    (htoken : advance (fun c => c ∉ delim) (buf.drop (str + skipped)) = some length)
    (hstop : buf[str + skipped + length]? ≠ some 0) :
    strtokR buf (some str) delim saveptr =
      some (some (str + skipped), buf.set (str + skipped + length) 0,
        some (str + skipped + length + 1)) := by
  unfold strtokR
  rw [Option.some_or]
  simp only [hskip, htoken, Option.bind_eq_bind, Option.bind_some, if_neg hstart, if_neg hstop]
  rfl

/-- **First token.** Of `sep ++ s ++ sep ++ t` it is `s`, and the rest starts
at `t`. The second separator is overwritten. -/
theorem strtokR_first {sep : Byte} (hsep : sep ≠ 0) (hne : s ≠ []) (hs : 0 ∉ s) (hfree : sep ∉ s)
    (t : List Byte) (saveptr : Option Nat) :
    strtokR (sep :: s ++ sep :: t) (some 0) [sep] saveptr =
      some (some 1, sep :: s ++ 0 :: t, some (s.length + 2)) := by
  obtain ⟨c, s', rfl⟩ := List.exists_cons_of_ne_nil hne
  have hc : c ≠ 0 := fun hc => hs (hc ▸ List.mem_cons_self)
  have hcsep : c ≠ sep := fun hc => hfree (hc ▸ List.mem_cons_self)
  have hskip : advance (fun c => c ∈ [sep]) (sep :: (c :: s') ++ sep :: t) = some 1 := by
    refine advance_append (s := [sep]) ?_ ?_ (.inr ?_)
    · simpa using hsep.symm
    · simp
    · simpa using hcsep
  have htoken : advance (fun c => c ∉ [sep]) ((c :: s') ++ sep :: t) = some (c :: s').length := by
    refine advance_append hs (fun b hb => ?_) (.inr (by simp))
    simp only [List.mem_singleton, decide_eq_true_eq]
    rintro rfl
    exact hfree hb
  have hstop : (sep :: (c :: s') ++ sep :: t)[1 + (c :: s').length]? = some sep := by
    rw [Nat.add_comm]
    simp
  have hset : (sep :: (c :: s') ++ sep :: t).set (1 + (c :: s').length) 0 =
      sep :: (c :: s') ++ 0 :: t := by
    rw [Nat.add_comm]
    simp
  have htoken' : advance (fun c => c ∉ [sep]) ((sep :: (c :: s') ++ sep :: t).drop (0 + 1)) =
      some (c :: s').length := htoken
  have hfound : (sep :: (c :: s') ++ sep :: t)[0 + 1 + (c :: s').length]? ≠ some 0 := by
    rw [Nat.zero_add, hstop]
    simpa using hsep
  rw [strtokR_of_token hskip (by simpa using hc) htoken' hfound]
  rw [Nat.zero_add, hset, Nat.add_comm 1]

/-- A string of separators has no token. -/
theorem strtokR_of_separators {sep : Byte} (hsep : sep ≠ 0) (hs : ∀ c ∈ s, c = sep)
    (rest : List Byte) (saveptr : Option Nat) :
    strtokR (terminated s ++ rest) (some 0) [sep] saveptr =
      some (none, terminated s ++ rest, none) := by
  have hskip : advance (fun c => c ∈ [sep]) (s ++ 0 :: rest) = some s.length := by
    refine advance_append (fun h => hsep (hs 0 h).symm) (fun c hc => ?_) (.inl rfl)
    simpa using hs c hc
  have hend : (s ++ 0 :: rest)[s.length]? = some 0 := by simp
  have hbuf : terminated s ++ rest = s ++ 0 :: rest := by simp [terminated]
  simp only [strtokR, hbuf, Option.some_or, List.drop_zero, hskip, Option.bind_eq_bind,
    Option.bind_some, Nat.zero_add, hend, if_true, Option.pure_def]

/-- A token behind separators, and what the call does to the byte behind the token. -/
theorem strtokR_behind {sep c : Byte} {lead token : List Byte} (after : List Byte) (hsep : sep ≠ 0)
    (hlead : ∀ b ∈ lead, b = sep) (hcsep : c ≠ sep) (hzero : 0 ∉ c :: token)
    (hfree : sep ∉ token) (hafter : after.head? = some 0 ∨ after.head? = some sep)
    (saveptr : Option Nat) :
    (strtokR (lead ++ c :: token ++ after) (some 0) [sep] saveptr).map (fun r => r.2.1) =
      some (lead ++ c :: token ++ if after.head? = some 0 then after else 0 :: after.tail) := by
  obtain ⟨d, after, rfl⟩ : ∃ d after', after = d :: after' := by
    cases after with
    | nil => simp at hafter
    | cons d after => exact ⟨d, after, rfl⟩
  simp only [List.head?_cons, Option.some.injEq] at hafter
  have hc : c ≠ 0 := fun hc => hzero (hc ▸ List.mem_cons_self)
  have hskip : advance (fun c => c ∈ [sep]) (lead ++ c :: token ++ d :: after) =
      some lead.length := by
    rw [List.append_assoc]
    refine advance_append (fun h => hsep (hlead 0 h).symm) (fun b hb => ?_) (.inr ?_)
    · simpa using hlead b hb
    · simpa using hcsep
  have hstart : (lead ++ c :: token ++ d :: after)[lead.length]? = some c := by simp
  have htoken : advance (fun c => c ∉ [sep]) ((lead ++ c :: token ++ d :: after).drop lead.length) =
      some (c :: token).length := by
    rw [List.append_assoc, List.drop_left]
    refine advance_append hzero (fun b hb => ?_) ?_
    · simp only [List.mem_singleton, decide_eq_true_eq]
      rintro rfl
      rcases List.mem_cons.mp hb with hb | hb
      · exact hcsep hb.symm
      · exact hfree hb
    · rcases hafter with hd | hd
      · exact .inl hd
      · exact .inr (by simp [hd])
  have hstop : (lead ++ c :: token ++ d :: after)[lead.length + (c :: token).length]? = some d := by
    rw [← List.length_append]
    simp
  simp only [strtokR, Option.some_or, List.drop_zero, hskip, Option.bind_eq_bind, Option.bind_some,
    Nat.zero_add, hstart, Option.some.injEq, hc, if_false, htoken, hstop, List.head?_cons,
    List.tail_cons]
  by_cases hd : d = 0
  · simp [hd]
  · have hset : (lead ++ c :: token ++ d :: after).set (lead.length + (c :: token).length) 0 =
        lead ++ c :: token ++ 0 :: after := by
      rw [← List.length_append]
      simp
    simp only [hd, if_false, hset]
    rfl

/-- **Separators behind a token.** The first call leaves the string as it was exactly
when no separator follows the first token. -/
theorem strtokR_keeps_iff {sep : Byte} (hsep : sep ≠ 0) (hs : 0 ∉ s) (rest : List Byte)
    (saveptr : Option Nat) :
    (strtokR (terminated s ++ rest) (some 0) [sep] saveptr).map (fun r => r.2.1) =
        some (terminated s ++ rest) ↔
      sep ∉ s.dropWhile (· = sep) := by
  obtain ⟨lead, body, rfl, hlead, hbody⟩ : ∃ lead body, s = lead ++ body ∧
      (∀ b ∈ lead, b = sep) ∧ s.dropWhile (· = sep) = body :=
    ⟨s.takeWhile (· = sep), s.dropWhile (· = sep), (List.takeWhile_append_dropWhile).symm,
      fun b hb => by simpa using List.all_eq_true.mp List.all_takeWhile b hb, rfl⟩
  rw [hbody]
  cases body with
  | nil =>
    rw [List.append_nil, strtokR_of_separators hsep hlead]
    simp
  | cons c body =>
    have hcsep : c ≠ sep := by
      have := List.head?_dropWhile_not (· = sep) (lead ++ c :: body)
      simpa [hbody] using this
    obtain ⟨token, after, hsplit, hfree, hafter⟩ : ∃ token after, body = token ++ after ∧
        sep ∉ token ∧ (after = [] ∨ after.head? = some sep) := by
      refine ⟨body.takeWhile (· ≠ sep), body.dropWhile (· ≠ sep),
        (List.takeWhile_append_dropWhile).symm, fun h => ?_, ?_⟩
      · simpa using List.all_eq_true.mp List.all_takeWhile sep h
      · rcases hdrop : body.dropWhile (· ≠ sep) with _ | ⟨d, after⟩
        · exact .inl rfl
        · have := List.head?_dropWhile_not (· ≠ sep) body
          rw [hdrop] at this
          exact .inr (by simpa using this)
    subst hsplit
    have hzero : 0 ∉ c :: token := fun h => hs (by simp at h ⊢; tauto)
    rcases hafter with rfl | hafter
    · have := strtokR_behind (0 :: rest) hsep hlead hcsep hzero hfree (.inl rfl) saveptr
      simp only [terminated, List.append_nil, List.append_assoc, List.cons_append,
        List.nil_append] at this ⊢
      rw [this]
      simpa using ⟨hcsep.symm, hfree⟩
    · obtain ⟨after, rfl⟩ : ∃ after', after = sep :: after' := by
        cases after with
        | nil => simp at hafter
        | cons d after => exact ⟨after, by simpa using hafter⟩
      have := strtokR_behind (sep :: after ++ 0 :: rest) hsep hlead hcsep hzero hfree
        (.inr rfl) saveptr
      simp only [terminated, List.append_assoc, List.cons_append, List.nil_append] at this ⊢
      rw [this]
      simp [hsep, hsep.symm]

end Leenix
