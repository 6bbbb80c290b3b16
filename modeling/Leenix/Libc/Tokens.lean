import Leenix.Lib.Runs
import Leenix.Libc.String

/-!
# Tokenizers, call after call (libc/string.c)

`strtok_r` keeps its place in the caller's pointer, `strtok` in a static variable, and
both cut the string in place. What a tokenizer does over a whole string is therefore
a matter of calls: `nthCall` is the call number `j`, on the buffer and the saved
position that the calls before it left.

- `Scans`: what one call of a tokenizer does, given the list of tokens that are left.
  `Scans.nthCall` is the same for any number of calls.
- `strtokR_splits`: the calls of `strtok_r` return the maximal runs without a
  delimiter, in order, and then `NULL`; what they change in the string.
- `strtok_agrees_iff`: `strtok` does not skip delimiters, so it gives the same tokens
  exactly when there is never one to skip.
-/

namespace Leenix

/-- `strchr` (string.c:84–90) on the characters of a string: where `c` is first. -/
def strchr : List Byte → Byte → Option Nat
  | [], _ => none
  | a :: str, c => if a = c then some 0 else (strchr str c).map (· + 1)

/-- `strtok` (string.c:92–120) on a buffer, with positions for pointers: the token,
the buffer after, and the static `next_token` after. -/
def strtok (buf : List Byte) (str : Option Nat) (delim : List Byte) (nextToken : Option Nat) :
    Option (Option Nat × List Byte × Option Nat) :=
  match str.or nextToken with
  | none => some (none, buf, none)
  | some tokenStart =>
    -- at the end of the string the position stays
    if buf[tokenStart]? = some 0 then some (none, buf, some tokenStart)
    else do
      let length ← advance (fun c => (strchr delim c).isNone) (buf.drop tokenStart)
      let stop := tokenStart + length
      if buf[stop]? = some 0 then return (some tokenStart, buf, none)
      else return (some tokenStart, buf.set stop 0, some (stop + 1))

/-- A tokenizer with its delimiters: from the buffer, the argument `str` and the saved
position, the token and both after. -/
abbrev Tokenizer :=
  List Byte → Option Nat → Option Nat → Option (Option Nat × List Byte × Option Nat)

/-- Call number `j`: the first with `str`, the others with `NULL`. -/
def nthCall (tok : Tokenizer) : Nat → Tokenizer
  | 0, buf, str, saved => tok buf str saved
  | j + 1, buf, str, saved => do
    let (_, buf, saved) ← tok buf str saved
    nthCall tok j buf none saved

/-- The string that call number `j` on the buffer returns. -/
def nthToken (tok : Tokenizer) (buf : List Byte) (saved : Option Nat) (j : Nat) :
    Option (Option (List Byte)) :=
  (nthCall tok j buf (some 0) saved).map fun r => r.1.map fun i => cstr (r.2.1.drop i)

/-- The calls until `NULL` return the strings `ts`. -/
def Yields (tok : Tokenizer) (buf : List Byte) (saved : Option Nat) (ts : List (List Byte)) : Prop :=
  ∀ j, j ≤ ts.length → nthToken tok buf saved j = some ts[j]?

instance (tok : Tokenizer) (buf : List Byte) (saved : Option Nat) (ts : List (List Byte)) :
    Decidable (Yields tok buf saved ts) :=
  inferInstanceAs (Decidable (∀ j, j ≤ ts.length → _))

/-- The buffer after a token that stops at `stop`, in a string of `len` characters. -/
def cutAt (len : Nat) (buf : List Byte) (stop : Nat) : List Byte :=
  if stop < len then buf.set stop 0 else buf

/-- The buffer after several tokens. -/
def cutAll (len : Nat) (buf : List Byte) (ts : List (Nat × Nat)) : List Byte :=
  ts.foldl (fun buf t => cutAt len buf t.2) buf

/-- The position saved after a token that stops at `stop`. -/
def savedAfter (len stop : Nat) : Option Nat := if stop < len then some (stop + 1) else none

/-- **One call.** From every position whose rest of the string is still untouched, the
tokenizer returns the first token of `found` for that position and goes on behind the
delimiter that ends it. Without one it returns `NULL`, and keeps returning it. -/
structure Scans (tok : Tokenizer) (s rest : List Byte) (found : Nat → List (Nat × Nat)) : Prop where
  null : ∀ buf, tok buf none none = some (none, buf, none)
  ends : ∀ buf str saved pos, str.or saved = some pos → pos ≤ s.length →
    buf.drop pos = (terminated s ++ rest).drop pos → found pos = [] →
    ∃ saved', tok buf str saved = some (none, buf, saved') ∧
      tok buf none saved' = some (none, buf, saved')
  token : ∀ buf str saved pos i stop ts, str.or saved = some pos → pos ≤ s.length →
    buf.drop pos = (terminated s ++ rest).drop pos → found pos = (i, stop) :: ts →
    tok buf str saved = some (some i, cutAt s.length buf stop, savedAfter s.length stop) ∧
      pos ≤ stop ∧ found (stop + 1) = ts
  past : ∀ pos, s.length < pos → found pos = []

variable {s rest buf delim : List Byte} {tok : Tokenizer} {found : Nat → List (Nat × Nat)}
  {str saved : Option Nat} {pos i j k stop : Nat}

/-! ## Any number of calls -/

/-- What is untouched from a position on is untouched from a later one on. -/
theorem drop_eq_of_le {l l' : List Byte} (h : l.drop i = l'.drop i) (hij : i ≤ j) :
    l.drop j = l'.drop j := by
  have hdrop := congrArg (List.drop (j - i)) h
  rwa [List.drop_drop, List.drop_drop, Nat.add_sub_cancel' hij] at hdrop

/-- A tokenizer that has no position saved, or has come to the end, returns `NULL`. -/
theorem nthCall_stays (h : tok buf none saved = some (none, buf, saved)) (j : Nat) :
    nthCall tok j buf none saved = some (none, buf, saved) := by
  induction j with
  | zero => exact h
  | succ j ih =>
    rw [nthCall, h]
    exact ih

/-- One call more, at the end. -/
theorem nthCall_concat (tok : Tokenizer) (j : Nat) (buf : List Byte) (str saved : Option Nat) :
    nthCall tok (j + 1) buf str saved =
      (nthCall tok j buf str saved).bind fun r => tok r.2.1 none r.2.2 := by
  induction j generalizing buf str saved with
  | zero => rfl
  | succ j ih =>
    rw [nthCall, nthCall, Option.bind_eq_bind, Option.bind_assoc]
    exact congrArg _ (funext fun r => ih r.2.1 none r.2.2)

theorem drop_cutAt (len : Nat) (buf : List Byte) (stop : Nat) :
    (cutAt len buf stop).drop (stop + 1) = buf.drop (stop + 1) := by
  unfold cutAt
  split
  · exact List.drop_set_of_lt (Nat.lt_succ_self stop)
  · rfl

/-- **All calls.** Call number `j` returns token number `j` of those that are left, and
`NULL` behind the last. The buffer is cut behind the tokens returned so far. -/
theorem Scans.nthCall (h : Scans tok s rest found) (str saved : Option Nat) (j : Nat)
    (hstr : str.or saved = some pos) (hpos : pos ≤ s.length)
    (hsame : buf.drop pos = (terminated s ++ rest).drop pos) :
    ∃ saved', nthCall tok j buf str saved = some ((found pos)[j]?.map Prod.fst,
        cutAll s.length buf ((found pos).take (j + 1)), saved') ∧
      ∀ t, (found pos)[j]? = some t → saved' = savedAfter s.length t.2 := by
  induction j generalizing buf str saved pos with
  | zero =>
    rcases hfound : found pos with _ | ⟨⟨i, stop⟩, ts⟩
    · obtain ⟨saved', hcall, -⟩ := h.ends buf str saved pos hstr hpos hsame hfound
      exact ⟨saved', hcall, fun t ht => nomatch ht⟩
    · obtain ⟨hcall, -, -⟩ := h.token buf str saved pos i stop ts hstr hpos hsame hfound
      exact ⟨_, hcall, fun t ht => Option.some.inj ht ▸ rfl⟩
  | succ j ih =>
    rcases hfound : found pos with _ | ⟨⟨i, stop⟩, ts⟩
    · obtain ⟨saved', hcall, hstays⟩ := h.ends buf str saved pos hstr hpos hsame hfound
      refine ⟨saved', ?_, fun t ht => nomatch ht⟩
      rw [Leenix.nthCall, hcall]
      exact nthCall_stays hstays j
    · obtain ⟨hcall, hle, rfl⟩ := h.token buf str saved pos i stop ts hstr hpos hsame hfound
      rw [Leenix.nthCall, hcall]
      by_cases hstop : stop < s.length
      · -- the rest behind the delimiter is as it was
        have hsaved : savedAfter s.length stop = some (stop + 1) := if_pos hstop
        have hrest : (cutAt s.length buf stop).drop (stop + 1) =
            (terminated s ++ rest).drop (stop + 1) := by
          rw [drop_cutAt, drop_eq_of_le hsame (Nat.le_succ_of_le hle)]
        exact ih none _ hsaved hstop hrest
      · have hsaved : savedAfter s.length stop = none := if_neg hstop
        have hnone : found (stop + 1) = [] := h.past _ (by omega)
        refine ⟨none, ?_, fun t ht => ?_⟩
        · rw [hsaved]
          simpa [hnone, cutAll] using nthCall_stays (h.null _) j
        · simp [hnone] at ht

/-! ## The tokens in the buffer -/

/-- A byte that no token stops at is not changed. -/
theorem cutAll_of_notMem {len : Nat} {ts : List (Nat × Nat)}
    (h : ∀ t ∈ ts, t.2 = k → len ≤ k) : (cutAll len buf ts)[k]? = buf[k]? := by
  induction ts generalizing buf with
  | nil => rfl
  | cons t ts ih =>
    have hrest : (cutAll len (cutAt len buf t.2) ts)[k]? = (cutAt len buf t.2)[k]? :=
      ih fun t ht => h t (List.mem_cons_of_mem _ ht)
    refine hrest.trans ?_
    unfold cutAt
    split
    case isTrue hlt =>
      refine List.getElem?_set_ne fun hk => ?_
      have := h t List.mem_cons_self hk
      omega
    case isFalse => rfl

theorem length_cutAll {len : Nat} {ts : List (Nat × Nat)} :
    (cutAll len buf ts).length = buf.length := by
  induction ts generalizing buf with
  | nil => rfl
  | cons t ts ih =>
    have hrest : (cutAll len (cutAt len buf t.2) ts).length = (cutAt len buf t.2).length := ih
    refine hrest.trans ?_
    unfold cutAt
    split
    · exact List.length_set
    · rfl

/-- Where a token stops in the string there is a zero. -/
theorem cutAll_of_mem {len : Nat} {ts : List (Nat × Nat)} (hmem : (i, k) ∈ ts) (hk : k < len)
    (hbuf : len ≤ buf.length) : (cutAll len buf ts)[k]? = some 0 := by
  induction ts using List.reverseRecOn with
  | nil => cases hmem
  | append_singleton ts t ih =>
    have hlength : (cutAll len buf ts).length = buf.length := length_cutAll
    have hstep : cutAll len buf (ts ++ [t]) = cutAt len (cutAll len buf ts) t.2 := by
      simp [cutAll]
    rw [hstep]
    by_cases ht : t.2 = k
    · rw [cutAt, ht, if_pos hk, List.getElem?_set_self (by omega)]
    · have hrest : (i, k) ∈ ts := by
        rcases List.mem_append.mp hmem with h | h
        · exact h
        · exact absurd (congrArg Prod.snd (List.mem_singleton.mp h)).symm ht
      unfold cutAt
      split
      · rw [List.getElem?_set_ne ht]
        exact ih hrest
      · exact ih hrest

/-- A terminated string, byte by byte. -/
theorem eq_terminated_append {mem t : List Byte}
    (hmem : ∀ j, j < t.length → mem[j]? = t[j]?) (hend : mem[t.length]? = some 0) :
    mem = terminated t ++ mem.drop (t.length + 1) := by
  refine List.ext_getElem? fun j => ?_
  rcases Nat.lt_trichotomy j t.length with hlt | rfl | hgt
  · rw [hmem j hlt, terminated, List.append_assoc, List.getElem?_append_left hlt]
  · simpa [terminated] using hend
  · rw [List.getElem?_append_right (by simpa [terminated] using Nat.succ_le_of_lt hgt),
      List.getElem?_drop]
    simp only [terminated, List.length_append, List.length_singleton]
    rw [Nat.add_sub_cancel' hgt]

/-- The characters of a token. -/
def tokenAt (s : List Byte) (t : Nat × Nat) : List Byte := (s.drop t.1).take (t.2 - t.1)

/-- **Terminated in place.** Cut behind pieces of it, a string holds each of them. -/
theorem drop_cutAll {sep : Byte → Bool} {ts : List (Nat × Nat)} (rest : List Byte)
    (hall : ∀ t ∈ ts, IsPiece sep s t.1 t.2) (hmem : (i, stop) ∈ ts) :
    ∃ after, (cutAll s.length (terminated s ++ rest) ts).drop i =
      terminated (tokenAt s (i, stop)) ++ after := by
  have hpiece := hall _ hmem
  have hle : i ≤ stop := hpiece.le
  have hin : stop ≤ s.length := hpiece.inside
  have hlength : (tokenAt s (i, stop)).length = stop - i := by
    simp only [tokenAt, List.length_take, List.length_drop]
    omega
  have hbuf : ∀ k, k < s.length → (terminated s ++ rest)[k]? = s[k]? := by
    intro k hk
    rw [terminated, List.append_assoc, List.getElem?_append_left hk]
  refine ⟨_, eq_terminated_append (fun j hj => ?_) ?_⟩
  · rw [hlength] at hj
    rw [tokenAt, List.getElem?_take_of_lt hj, List.getElem?_drop, List.getElem?_drop,
      ← hbuf (i + j) (by omega)]
    refine cutAll_of_notMem fun t ht hstop => ?_
    -- no token stops inside another one
    obtain ⟨c, hc, hclean⟩ := hpiece.clean (i + j) (by omega) (by omega)
    rw [(hall t ht).stops c (hstop ▸ hc)] at hclean
    cases hclean
  · rw [hlength, List.getElem?_drop, Nat.add_sub_cancel' hle]
    by_cases hlt : stop < s.length
    · refine cutAll_of_mem hmem hlt ?_
      simp only [terminated, List.length_append]
      omega
    · obtain rfl : stop = s.length := by omega
      rw [cutAll_of_notMem fun t _ ht => by omega]
      simp [terminated]

theorem zero_notMem_tokenAt (hs : 0 ∉ s) (t : Nat × Nat) : 0 ∉ tokenAt s t :=
  fun h => hs (List.mem_of_mem_drop (List.mem_of_mem_take h))

theorem cstr_cutAll {sep : Byte → Bool} {ts : List (Nat × Nat)} (hs : 0 ∉ s) (rest : List Byte)
    (hall : ∀ t ∈ ts, IsPiece sep s t.1 t.2) (hmem : (i, stop) ∈ ts) :
    cstr ((cutAll s.length (terminated s ++ rest) ts).drop i) = tokenAt s (i, stop) := by
  obtain ⟨after, hafter⟩ := drop_cutAll rest hall hmem
  rw [hafter]
  exact cstr_terminated (zero_notMem_tokenAt hs _) after

/-- The strings that a tokenizer returns until `NULL`. -/
theorem Scans.yields {sep : Byte → Bool} (h : Scans tok s rest found) (hs : 0 ∉ s)
    (hall : ∀ t ∈ found 0, IsPiece sep s t.1 t.2) (saved : Option Nat) :
    Yields tok (terminated s ++ rest) saved ((found 0).map (tokenAt s)) := by
  intro j hj
  obtain ⟨saved', hcall, -⟩ := h.nthCall (some 0) saved j rfl (Nat.zero_le _) rfl
  rw [nthToken, hcall, Option.map_some, List.getElem?_map]
  cases htoken : (found 0)[j]? with
  | none => rfl
  | some t =>
    have hmem : (t.1, t.2) ∈ (found 0).take (j + 1) := by
      rw [List.take_add_one, htoken]
      exact List.mem_append_right _ List.mem_cons_self
    have hcstr := cstr_cutAll hs rest (fun t ht => hall t (List.mem_of_mem_take ht)) hmem
    simp only [Option.map_some]
    rw [hcstr]

/-- A tokenizer has one sequence of tokens. -/
theorem Yields.unique {ts ts' : List (List Byte)} (h : Yields tok buf saved ts)
    (h' : Yields tok buf saved ts') : ts = ts' := by
  have hle : ∀ {us vs : List (List Byte)}, Yields tok buf saved us → Yields tok buf saved vs →
      us.length ≤ vs.length := by
    intro us vs hu hv
    by_contra hlt
    have heq := (hu vs.length (by omega)).symm.trans (hv vs.length (Nat.le_refl _))
    rw [List.getElem?_eq_getElem (by omega), List.getElem?_eq_none (Nat.le_refl _)] at heq
    cases heq
  have hlength : ts.length = ts'.length := Nat.le_antisymm (hle h h') (hle h' h)
  refine List.ext_getElem? fun j => ?_
  rcases Nat.lt_or_ge ts.length j with hlt | hge
  · rw [List.getElem?_eq_none hlt.le, List.getElem?_eq_none (by omega)]
  · exact Option.some.inj ((h j hge).symm.trans (h' j (by omega)))

/-! ## One call of each tokenizer -/

/-- A scan over a terminated string stops behind it at the latest. -/
theorem advance_terminated {p : Byte → Bool} (hs : 0 ∉ s) (rest : List Byte) :
    advance p (terminated s ++ rest) = some (s.takeWhile p).length := by
  induction s with
  | nil => simp [advance, terminated]
  | cons c s ih =>
    have hc : c ≠ 0 := fun hc => hs (hc ▸ List.mem_cons_self)
    have hrest := ih fun h => hs (List.mem_cons_of_mem c h)
    rw [terminated, List.cons_append, List.cons_append, ← terminated, advance]
    cases hp : p c with
    | false => simp [hp]
    | true => simp [hp, hc, hrest]

/-- A scan in a rest of the string that is untouched is one in the string. -/
theorem advance_drop {p : Byte → Bool} (hs : 0 ∉ s) (hpos : pos ≤ s.length)
    (hsame : buf.drop pos = (terminated s ++ rest).drop pos) :
    advance p (buf.drop pos) = some ((s.drop pos).takeWhile p).length := by
  have hdrop : (terminated s ++ rest).drop pos = terminated (s.drop pos) ++ rest := by
    rw [terminated, List.append_assoc, List.drop_append_of_le_length hpos, ← List.append_assoc]
    rfl
  rw [hsame, hdrop]
  exact advance_terminated (fun h => hs (List.mem_of_mem_drop h)) rest

/-- The first zero in the rest of the string is the one behind it. -/
theorem getElem?_eq_zero_iff (hs : 0 ∉ s)
    (hsame : buf.drop pos = (terminated s ++ rest).drop pos) (hk : pos ≤ k) (hlen : k ≤ s.length) :
    buf[k]? = some 0 ↔ ¬k < s.length := by
  have hbuf : buf[k]? = (terminated s ++ rest)[k]? := by
    have := congrArg (fun l => l[k - pos]?) hsame
    simpa only [List.getElem?_drop, Nat.add_sub_cancel' hk] using this
  rw [hbuf, terminated, List.append_assoc]
  by_cases hlt : k < s.length
  · rw [List.getElem?_append_left hlt, List.getElem?_eq_getElem hlt]
    simp only [Option.some.injEq, hlt, not_true_eq_false, iff_false]
    exact fun h => hs (h ▸ List.getElem_mem hlt)
  · obtain rfl : k = s.length := by omega
    simp

/-- How both tokenizers end a token: they cut behind it, unless the string ends there. -/
theorem cut_eq {len : Nat} (hzero : buf[stop]? = some 0 ↔ ¬stop < len) :
    (if buf[stop]? = some 0 then some (some i, buf, none)
      else some (some i, buf.set stop 0, some (stop + 1))) =
      some (some i, cutAt len buf stop, savedAfter len stop) := by
  by_cases hlt : stop < len
  · have hne : ¬buf[stop]? = some 0 := fun h => hzero.mp h hlt
    simp only [hne, cutAt, savedAfter, hlt, if_true, if_false]
  · simp only [hzero.mpr hlt, cutAt, savedAfter, hlt, if_true, if_false]

/-- The delimiters, as separators. -/
def isDelim (delim : List Byte) (c : Byte) : Bool := c ∈ delim

theorem strchr_isNone (delim : List Byte) (c : Byte) :
    (strchr delim c).isNone = !isDelim delim c := by
  induction delim with
  | nil => rfl
  | cons a delim ih =>
    by_cases ha : a = c
    · simp [strchr, isDelim, ha]
    · have hca : ¬c = a := fun h => ha h.symm
      simp only [isDelim] at ih
      simp [strchr, isDelim, ha, hca, ih]

/-- `strtok_r` finds the runs. -/
theorem strtokR_scans (hs : 0 ∉ s) (delim rest : List Byte) :
    Scans (fun buf str saved => strtokR buf str delim saved) s rest
      (runsFrom (isDelim delim) s) where
  null buf := rfl
  ends buf str saved pos hstr hpos hsame hfound := by
    have hend : ¬skip (isDelim delim) s pos < s.length := by
      intro hlt
      rw [runsFrom, if_pos hlt] at hfound
      cases hfound
    have hzero := (getElem?_eq_zero_iff hs hsame le_skip (skip_le hpos)).mpr hend
    refine ⟨none, ?_, rfl⟩
    have hskip : advance (fun c => c ∈ delim) (buf.drop pos) =
        some ((s.drop pos).takeWhile (isDelim delim)).length := advance_drop hs hpos hsame
    simp only [strtokR, hstr, hskip, Option.bind_eq_bind, Option.bind_some]
    exact if_pos hzero
  token buf str saved pos i stop ts hstr hpos hsame hfound := by
    rw [runsFrom] at hfound
    split at hfound
    case isFalse => cases hfound
    case isTrue hlt =>
    obtain ⟨hhead, rfl⟩ := List.cons.inj hfound
    obtain ⟨rfl, rfl⟩ := Prod.mk.inj hhead
    have hle : pos ≤ skip (isDelim delim) s pos := le_skip
    have hrest : buf.drop (skip (isDelim delim) s pos) =
        (terminated s ++ rest).drop (skip (isDelim delim) s pos) := drop_eq_of_le hsame hle
    have hskip : advance (fun c => c ∈ delim) (buf.drop pos) =
        some ((s.drop pos).takeWhile (isDelim delim)).length := advance_drop hs hpos hsame
    have hstart : ¬buf[skip (isDelim delim) s pos]? = some 0 := fun h =>
      (getElem?_eq_zero_iff hs hsame hle hlt.le).mp h hlt
    have htoken := advance_drop (p := fun c => !isDelim delim c) hs hlt.le hrest
    have hstop : skip (fun c => !isDelim delim c) s (skip (isDelim delim) s pos) ≤ s.length :=
      skip_le hlt.le
    have hend := getElem?_eq_zero_iff hs hrest le_skip hstop
    have hnot : (fun c => decide (c ∉ delim)) = fun c => !isDelim delim c := by
      funext c
      simp [isDelim]
    refine ⟨?_, Nat.le_trans hle le_skip, rfl⟩
    simp only [strtokR, hstr, hskip, hnot, Option.bind_eq_bind, Option.bind_some]
    rw [← skip, if_neg hstart, htoken]
    exact cut_eq hend
  past pos hlen := by
    rw [runsFrom, if_neg]
    have : pos ≤ skip (isDelim delim) s pos := le_skip
    omega

/-- `strtok` finds the pieces. -/
theorem strtok_scans (hs : 0 ∉ s) (delim rest : List Byte) :
    Scans (fun buf str saved => strtok buf str delim saved) s rest
      (piecesFrom (isDelim delim) s) where
  null buf := rfl
  ends buf str saved pos hstr hpos hsame hfound := by
    have hend : ¬pos < s.length := by
      intro hlt
      rw [piecesFrom, if_pos hlt] at hfound
      cases hfound
    have hzero := (getElem?_eq_zero_iff hs hsame (Nat.le_refl pos) hpos).mpr hend
    refine ⟨some pos, ?_, ?_⟩
    · simp only [strtok, hstr, if_pos hzero]
    · simp only [strtok, Option.none_or, if_pos hzero]
  token buf str saved pos i stop ts hstr hpos hsame hfound := by
    rw [piecesFrom] at hfound
    split at hfound
    case isFalse => cases hfound
    case isTrue hlt =>
    obtain ⟨hhead, rfl⟩ := List.cons.inj hfound
    obtain ⟨rfl, rfl⟩ := Prod.mk.inj hhead
    have hstart : ¬buf[pos]? = some 0 := fun h =>
      (getElem?_eq_zero_iff hs hsame (Nat.le_refl pos) hpos).mp h hlt
    have htoken := advance_drop (p := fun c => !isDelim delim c) hs hpos hsame
    have hend := getElem?_eq_zero_iff hs hsame (k := skip (fun c => !isDelim delim c) s pos)
      le_skip (skip_le hpos)
    have hnot : (fun c => (strchr delim c).isNone) = fun c => !isDelim delim c :=
      funext (strchr_isNone delim)
    refine ⟨?_, le_skip, rfl⟩
    simp only [strtok, hstr, if_neg hstart, hnot, htoken, Option.bind_eq_bind, Option.bind_some]
    exact cut_eq hend
  past pos hlen := by
    rw [piecesFrom, if_neg (by omega)]

/-! ## Whole strings -/

/-- After call number `j` on a string with the tokens `ts`: every token returned so far
stands terminated in the buffer, no byte was changed but the delimiters behind these
tokens, and the saved position is null or just behind the last of these delimiters. -/
structure AfterCall (delim s rest : List Byte) (ts : List (Nat × Nat)) (j : Nat) (buf : List Byte)
    (saved : Option Nat) : Prop where
  terminated : ∀ i stop, (i, stop) ∈ ts.take (j + 1) → cstr (buf.drop i) = tokenAt s (i, stop)
  changed : ∀ k, buf[k]? ≠ (Leenix.terminated s ++ rest)[k]? →
    ∃ i c, (i, k) ∈ ts.take (j + 1) ∧ s[k]? = some c ∧ c ∈ delim
  saved : ∀ i stop, ts[j]? = some (i, stop) →
    saved = none ∨ saved = some (stop + 1) ∧ ∃ c, s[stop]? = some c ∧ c ∈ delim

/-- **`strtok_r` splits exactly.** On every string its calls return the maximal runs of
characters that are no delimiters, each once and from left to right, and `NULL` from
then on. -/
theorem strtokR_splits (hs : 0 ∉ s) (delim rest : List Byte) (saveptr : Option Nat) :
    ∃ ts : List (Nat × Nat), ts.Pairwise (fun a b => a.2 < b.1) ∧
      (∀ i stop, (i, stop) ∈ ts ↔ IsRun (isDelim delim) s i stop) ∧
      ∀ j, ∃ buf saved,
        nthCall (fun buf str saved => strtokR buf str delim saved) j (terminated s ++ rest)
            (some 0) saveptr = some (ts[j]?.map Prod.fst, buf, saved) ∧
          AfterCall delim s rest ts j buf saved := by
  have hruns : ∀ i stop, (i, stop) ∈ runsFrom (isDelim delim) s 0 ↔ _ :=
    fun i stop => mem_runsFrom starts_zero
  have hpieces : ∀ t ∈ runsFrom (isDelim delim) s 0, IsPiece (isDelim delim) s t.1 t.2 :=
    fun t ht => ((hruns t.1 t.2).mp ht).2.toIsPiece
  refine ⟨runsFrom (isDelim delim) s 0, pairwise_runsFrom, fun i stop => ?_, fun j => ?_⟩
  · rw [hruns]
    simp
  · obtain ⟨saved, hcall, hsaved⟩ := (strtokR_scans hs delim rest).nthCall (some 0) saveptr j
      rfl (Nat.zero_le _) rfl
    refine ⟨_, saved, hcall, ?_, fun k hk => ?_, fun i stop ht => ?_⟩
    · exact fun i stop hmem =>
        cstr_cutAll hs rest (fun t ht => hpieces t (List.mem_of_mem_take ht)) hmem
    · -- a byte that was changed is one that a token stops at
      obtain ⟨t, ht, rfl, hlt⟩ : ∃ t ∈ (runsFrom (isDelim delim) s 0).take (j + 1),
          t.2 = k ∧ k < s.length := by
        by_contra hnot
        refine hk (cutAll_of_notMem fun t ht hstop => ?_)
        by_contra hlt
        exact hnot ⟨t, ht, hstop, by omega⟩
      have hc := List.getElem?_eq_getElem hlt
      refine ⟨t.1, _, ht, hc, ?_⟩
      simpa [isDelim] using (hpieces t (List.mem_of_mem_take ht)).stops _ hc
    · rw [hsaved _ ht, savedAfter]
      split
      case isTrue hlt =>
        have hc := List.getElem?_eq_getElem hlt
        refine .inr ⟨rfl, _, hc, ?_⟩
        simpa [isDelim] using (hpieces _ (List.mem_of_getElem? ht)).stops _ hc
      case isFalse => exact .inl rfl

/-- The path `/a`, split at slashes. -/
theorem strtokR_splits_path :
    ∃ ts : List (Nat × Nat), ts.Pairwise (fun a b => a.2 < b.1) ∧
      (∀ i stop, (i, stop) ∈ ts ↔ IsRun (isDelim [0x2F]) [0x2F, 0x61] i stop) ∧
      ∀ j, ∃ buf saved,
        nthCall (fun buf str saved => strtokR buf str [0x2F] saved) j
            (terminated [0x2F, 0x61] ++ []) (some 0) none = some (ts[j]?.map Prod.fst, buf, saved) ∧
          AfterCall [0x2F] [0x2F, 0x61] [] ts j buf saved :=
  strtokR_splits (by decide) [0x2F] [] none

/-- Every delimiter of the string follows a character that is none. -/
def NoneToSkip (delim s : List Byte) : Prop :=
  ∀ i c, s[i]? = some c → c ∈ delim → ∃ j d, i = j + 1 ∧ s[j]? = some d ∧ d ∉ delim

/-- **Two tokenizers.** `strtok` and `strtok_r` give the same tokens, each on its own
copy of the string, exactly when no delimiter stands at the start or behind another. -/
theorem strtok_agrees_iff (hs : 0 ∉ s) (delim rest rest' : List Byte)
    (nextToken saveptr : Option Nat) :
    (∃ ts, Yields (fun buf str saved => strtok buf str delim saved) (terminated s ++ rest)
          nextToken ts ∧
        Yields (fun buf str saved => strtokR buf str delim saved) (terminated s ++ rest')
          saveptr ts) ↔
      NoneToSkip delim s := by
  have hpieces : ∀ t ∈ piecesFrom (isDelim delim) s 0, IsPiece (isDelim delim) s t.1 t.2 :=
    fun t ht => isPiece_of_mem starts_zero ht
  have hruns : ∀ t ∈ runsFrom (isDelim delim) s 0, IsRun (isDelim delim) s t.1 t.2 :=
    fun t ht => ((mem_runsFrom starts_zero).mp ht).2
  have hstrtok := (strtok_scans hs delim rest).yields hs hpieces nextToken
  have hstrtokR := (strtokR_scans hs delim rest').yields hs
    (fun t ht => (hruns t ht).toIsPiece) saveptr
  constructor
  · rintro ⟨ts, hts, htsR⟩ i c hc hdelim
    have hsame := (hts.unique hstrtok).symm.trans (htsR.unique hstrtokR)
    by_contra hnone
    -- `strtok` returns an empty string here, and `strtok_r` never does
    have hstart : Starts (isDelim delim) s i := by
      intro j d hj hd
      by_contra hclean
      exact hnone ⟨j, d, hj, hd, by simpa [isDelim] using hclean⟩
    have hempty : [] ∈ (piecesFrom (isDelim delim) s 0).map (tokenAt s) :=
      List.mem_map.mpr ⟨(i, i), empty_mem_piecesFrom hstart hc (by simpa [isDelim] using hdelim),
        by simp [tokenAt]⟩
    rw [hsame] at hempty
    obtain ⟨t, ht, htoken⟩ := List.mem_map.mp hempty
    have hlength := congrArg List.length htoken
    have hrun := hruns t ht
    have hnonempty := hrun.nonempty
    have hinside := hrun.inside
    simp only [tokenAt, List.length_take, List.length_drop, List.length_nil] at hlength
    omega
  · intro hskip
    have heq : piecesFrom (isDelim delim) s 0 = runsFrom (isDelim delim) s 0 := by
      refine piecesFrom_eq_runsFrom starts_zero fun i c hstart hc => ?_
      by_contra hsep
      obtain ⟨j, d, hj, hd, hclean⟩ := hskip i c hc (by simpa [isDelim] using hsep)
      exact hclean (by simpa [isDelim] using hstart j d hj hd)
    exact ⟨_, heq ▸ hstrtok, hstrtokR⟩

/-- The command `a b`, split at spaces. -/
theorem strtok_agrees_iff_command :
    ∃ ts, Yields (fun buf str saved => strtok buf str [0x20] saved)
          (terminated [0x61, 0x20, 0x62] ++ []) none ts ∧
        Yields (fun buf str saved => strtokR buf str [0x20] saved)
          (terminated [0x61, 0x20, 0x62] ++ []) none ts := by
  refine (strtok_agrees_iff (by decide) [0x20] [] [] none none).mpr fun i c hc hdelim => ?_
  have hi : i < 3 := (List.getElem?_eq_some_iff.mp hc).1
  obtain rfl := List.mem_singleton.mp hdelim
  have hone : i = 1 := by
    rcases i with _ | _ | _ | i
    · exact absurd hc (by decide)
    · rfl
    · exact absurd hc (by decide)
    · omega
  exact ⟨0, 0x61, hone, rfl, by decide⟩

/-- The command `a` behind a space: `strtok` returns an empty string before `a`. -/
theorem strtok_empty_token :
    Yields (fun buf str saved => strtok buf str [0x20] saved) (terminated [0x20, 0x61]) none
        [[], [0x61]] ∧
      Yields (fun buf str saved => strtokR buf str [0x20] saved) (terminated [0x20, 0x61]) none
        [[0x61]] ∧
      ¬∃ ts, Yields (fun buf str saved => strtok buf str [0x20] saved) (terminated [0x20, 0x61])
            none ts ∧
          Yields (fun buf str saved => strtokR buf str [0x20] saved) (terminated [0x20, 0x61])
            none ts := by
  have hstrtok : Yields (fun buf str saved => strtok buf str [0x20] saved)
      (terminated [0x20, 0x61]) none [[], [0x61]] := by decide
  have hstrtokR : Yields (fun buf str saved => strtokR buf str [0x20] saved)
      (terminated [0x20, 0x61]) none [[0x61]] := by decide
  refine ⟨hstrtok, hstrtokR, ?_⟩
  rintro ⟨ts, hts, htsR⟩
  exact absurd ((hts.unique hstrtok).symm.trans (htsR.unique hstrtokR)) (by decide)

end Leenix
