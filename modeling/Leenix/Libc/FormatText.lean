import Leenix.Libc.Vsprintf

/-!
# The text of a format (libc/vsprintf.c)

`text` reads a format as it is written: characters, and directives of flags, widths, a
precision, length modifiers and a conversion. It is what `vsnprintf` prints, character after
character: the terminator last, unless the format ends within a directive or `%c` prints a
NUL, after which nothing is printed.

- `foldWhile`: reading as long as a character is understood.
- `readDirective`: a directive up to its conversion.
- `vsnprintf_eq`: `vsnprintf` returns, and prints the text.
-/

namespace Leenix

universe u v

section FoldWhile

variable {α : Type u} {β : Type v} (f : β → α → Option β)

/-- What `f` makes of the elements that it accepts, and the list from the first other one. -/
def foldWhile (b : β) : List α → β × List α
  | [] => (b, [])
  | c :: l =>
    match f b c with
    | some b => foldWhile b l
    | none => (b, c :: l)

theorem foldWhile_suffix (b : β) (l : List α) : (foldWhile f b l).2 <:+ l := by
  induction l generalizing b with
  | nil => exact List.suffix_rfl
  | cons c l ih =>
    rw [foldWhile]
    split
    · exact (ih _).trans (List.suffix_cons c l)
    · exact List.suffix_rfl

end FoldWhile

namespace Vsprintf

/-! ## Reading a directive -/

/-- The widths of a directive: each replaces the one before. -/
def readWidth (width : Int32) (flags : Flags) (fmt : List Byte) (ap : Args) :
    Int32 × Flags × List Byte × Args :=
  match fmt with
  | [] => (width, flags, [], ap)
  | c :: rest =>
    if c = ascii '*' then
      if (vaArg ap).1.toInt32 < 0 then
        readWidth (-(vaArg ap).1.toInt32) { flags with left := true } rest (vaArg ap).2
      else readWidth (vaArg ap).1.toInt32 flags rest (vaArg ap).2
    else if h : isDigit c ∧ ascii '0' < c then
      have : (getAtoi 0 (c :: rest)).2.length < rest.length + 1 := length_getAtoi_lt h.1
      readWidth (getAtoi 0 (c :: rest)).1 flags (getAtoi 0 (c :: rest)).2 ap
    else (width, flags, c :: rest, ap)
termination_by fmt.length

/-- The precision: what is behind it, and the arguments that are left. -/
def readPrecision (fmt : List Byte) (ap : Args) : List Byte × Args :=
  match fmt with
  | [] => ([], ap)
  | c :: rest =>
    if c = ascii '.' then
      if rest.head?.any isDigit then ((getAtoi 0 rest).2, ap)
      else if rest.head? = some (ascii '*') then (rest, (vaArg ap).2)
      else (rest, ap)
    else (c :: rest, ap)

/-- A directive without its conversion, and what is left of the arguments and the format. -/
structure Directive where
  flags : Flags
  width : Int32
  lflags : Nat
  ap : Args
  rest : List Byte

/-- The directive behind a percent sign. -/
def readDirective (fmt : List Byte) (ap : Args) : Directive :=
  let (flags, fmt) := foldWhile addFlag {} fmt
  let (width, flags, fmt, ap) := readWidth 0 flags fmt ap
  let (fmt, ap) := readPrecision fmt ap
  let (lflags, fmt) := foldWhile addLength 0 fmt
  ⟨flags, width, lflags, ap, fmt⟩

theorem readWidth_suffix (width : Int32) (flags : Flags) (fmt : List Byte) (ap : Args) :
    (readWidth width flags fmt ap).2.2.1 <:+ fmt := by
  fun_induction readWidth width flags fmt ap with
  | case1 => exact List.suffix_rfl
  | case2 width flags ap rest _ ih => exact ih.trans (List.suffix_cons _ rest)
  | case3 width flags ap rest _ ih => exact ih.trans (List.suffix_cons _ rest)
  | case4 width flags ap c rest _ _ _ ih => exact ih.trans (getAtoi_suffix 0 (c :: rest))
  | case5 => exact List.suffix_rfl

theorem readPrecision_suffix (fmt : List Byte) (ap : Args) : (readPrecision fmt ap).1 <:+ fmt := by
  cases fmt with
  | nil => exact List.suffix_rfl
  | cons c rest =>
    rw [readPrecision]
    split
    · split
      · exact (getAtoi_suffix 0 rest).trans (List.suffix_cons c rest)
      · split <;> exact List.suffix_cons c rest
    · exact List.suffix_rfl

theorem readDirective_suffix (fmt : List Byte) (ap : Args) : (readDirective fmt ap).rest <:+ fmt :=
  (foldWhile_suffix addLength 0 _).trans <| (readPrecision_suffix _ _).trans <|
    (readWidth_suffix 0 _ _ ap).trans (foldWhile_suffix addFlag {} fmt)

/-- What a format prints. -/
def text (strings : UInt32 → CString) (fmt : List Byte) (ap : Args) : List Byte :=
  match fmt with
  | [] => [0]
  | c :: fmt =>
    if c = ascii '%' then
      match h : (readDirective fmt ap).rest with
      | [] => []
      | conv :: rest =>
        have : rest.length < fmt.length := by
          have hle := (readDirective_suffix fmt ap).length_le
          rwa [h] at hle
        let d := readDirective fmt ap
        let (chars, ap, c) := convert strings conv d.flags d.width d.lflags d.ap
        if c = 0 then chars else chars ++ text strings rest ap
    else c :: text strings fmt ap
termination_by fmt.length

/-! ## The loop prints the text -/

/-- From the state `v` on, the loop ends with the output `out`. -/
def Ends (strings : UInt32 → CString) (size : UInt32) (v : Vars) (out : Out) : Prop :=
  ∃ w, Loops (step strings size) v w ∧ w.out = out

variable {strings : UInt32 → CString} {size : UInt32} {v w : Vars} {out out' : Out} {ap : Args}
  {fmt rest : List Byte} {c : Byte} {flags : Flags} {width : Int32} {lflags : Nat}

theorem Ends.last (h : step strings size v = some (true, w)) (hout : w.out = out) :
    Ends strings size v out :=
  ⟨w, .last h, hout⟩

theorem Ends.turn (h : Ends strings size w out) (hstep : step strings size v = some (false, w)) :
    Ends strings size v out := by
  obtain ⟨s, hloops, hout⟩ := h
  exact ⟨s, .turn hstep hloops, hout⟩

/-- The terminator ends the loop before a conversion. -/
theorem Ends.cut {state : FmtState} (hdefault : state ≠ .default) (hconv : state ≠ .conv) :
    Ends strings size ⟨[0], ap, out, state, flags, width, lflags⟩ out := by
  cases state with
  | default => exact absurd rfl hdefault
  | conv => exact absurd rfl hconv
  | flags => exact .last rfl rfl
  | width => exact .last rfl rfl
  | precis => exact .last rfl rfl
  | length => exact .last rfl rfl

theorem getAtoi_terminated (n : Int32) (str : List Byte) :
    getAtoi n (terminated str) = ((getAtoi n str).1, terminated (getAtoi n str).2) := by
  induction str generalizing n with
  | nil => rfl
  | cons c str ih =>
    simp only [terminated, List.cons_append, getAtoi] at ih ⊢
    split
    · exact ih _
    · rfl

/-- Characters are read as long as `f` accepts them, in the states `now`; `next` is the state
behind them. -/
theorem Ends.overWhile {β : Type} {f : β → Byte → Option β} (now next : β → List Byte → Vars)
    (hread : ∀ b b' c fmt, c ≠ 0 → f b c = some b' →
      step strings size (now b (c :: fmt)) = some (false, now b' fmt))
    (hleave : ∀ b c fmt, c ≠ 0 → f b c = none →
      step strings size (now b (c :: fmt)) = some (false, next b (c :: fmt)))
    (hcut : ∀ b, Ends strings size (now b [0]) out) {b : β} (hzero : 0 ∉ fmt)
    (hstop : (foldWhile f b fmt).2 = [] → out' = out)
    (hnext : (foldWhile f b fmt).2 ≠ [] → Ends strings size
      (next (foldWhile f b fmt).1 (terminated (foldWhile f b fmt).2)) out') :
    Ends strings size (now b (terminated fmt)) out' := by
  induction fmt generalizing b with
  | nil =>
    rw [hstop rfl]
    exact hcut b
  | cons c fmt ih =>
    obtain ⟨hc, hzero⟩ := List.ne_and_not_mem_of_not_mem_cons hzero
    rw [foldWhile] at hstop hnext
    cases hf : f b c with
    | none =>
      simp only [hf] at hnext
      exact (hnext (List.cons_ne_nil c fmt)).turn (hleave b c _ hc.symm hf)
    | some b' =>
      simp only [hf] at hstop hnext
      exact (ih hzero hstop hnext).turn (hread b b' c _ hc.symm hf)

/-- The flags are read. -/
theorem Ends.overFlags (hzero : 0 ∉ fmt)
    (hstop : (foldWhile addFlag flags fmt).2 = [] → out' = out)
    (hnext : (foldWhile addFlag flags fmt).2 ≠ [] → Ends strings size
      ⟨terminated (foldWhile addFlag flags fmt).2, ap, out, .width,
        (foldWhile addFlag flags fmt).1, 0, lflags⟩ out') :
    Ends strings size ⟨terminated fmt, ap, out, .flags, flags, width, lflags⟩ out' := by
  refine Ends.overWhile (fun flags fmt => ⟨fmt, ap, out, .flags, flags, width, lflags⟩)
    (fun flags fmt => ⟨fmt, ap, out, .width, flags, 0, lflags⟩) ?_ ?_ ?_ hzero hstop hnext
  · intro flags flags' c fmt hc hf
    simp [step, hf, hc]
  · intro flags c fmt hc hf
    simp [step, hf, hc]
  · intro flags
    exact .cut (by simp) (by simp)

/-- The length modifiers are read. -/
theorem Ends.overLengths (hzero : 0 ∉ fmt)
    (hstop : (foldWhile addLength lflags fmt).2 = [] → out' = out)
    (hnext : (foldWhile addLength lflags fmt).2 ≠ [] → Ends strings size
      ⟨terminated (foldWhile addLength lflags fmt).2, ap, out, .conv, flags, width,
        (foldWhile addLength lflags fmt).1⟩ out') :
    Ends strings size ⟨terminated fmt, ap, out, .length, flags, width, lflags⟩ out' := by
  refine Ends.overWhile (fun lflags fmt => ⟨fmt, ap, out, .length, flags, width, lflags⟩)
    (fun lflags fmt => ⟨fmt, ap, out, .conv, flags, width, lflags⟩) ?_ ?_ ?_ hzero hstop hnext
  · intro lflags lflags' c fmt hc hf
    simp [step, hf, hc]
  · intro lflags c fmt hc hf
    simp [step, hf, hc]
  · intro lflags
    exact .cut (by simp) (by simp)

/-- The widths are read. -/
theorem Ends.overWidths (hzero : 0 ∉ fmt)
    (hstop : (readWidth width flags fmt ap).2.2.1 = [] → out' = out)
    (hnext : (readWidth width flags fmt ap).2.2.1 ≠ [] → Ends strings size
      ⟨terminated (readWidth width flags fmt ap).2.2.1, (readWidth width flags fmt ap).2.2.2, out,
        .precis, (readWidth width flags fmt ap).2.1, (readWidth width flags fmt ap).1, lflags⟩ out') :
    Ends strings size ⟨terminated fmt, ap, out, .width, flags, width, lflags⟩ out' := by
  fun_induction readWidth width flags fmt ap with
  | case1 =>
    rw [hstop rfl]
    exact .cut (by simp) (by simp)
  | case2 width flags ap rest hneg ih =>
    obtain ⟨hc, hzero⟩ := List.ne_and_not_mem_of_not_mem_cons hzero
    exact (ih hzero hstop hnext).turn (by simp [step, terminated, hneg, hc.symm])
  | case3 width flags ap rest hneg ih =>
    obtain ⟨hc, hzero⟩ := List.ne_and_not_mem_of_not_mem_cons hzero
    exact (ih hzero hstop hnext).turn (by simp [step, terminated, hneg, hc.symm])
  | case4 width flags ap c rest hstar hdigit _ ih =>
    have hc := (List.ne_and_not_mem_of_not_mem_cons hzero).1
    have hrest := fun h => hzero ((getAtoi_suffix 0 (c :: rest)).mem h)
    have hatoi := getAtoi_terminated 0 (c :: rest)
    rw [terminated, List.cons_append] at hatoi
    exact (ih hrest hstop hnext).turn (by simp [step, terminated, hstar, hdigit, hatoi, hc.symm])
  | case5 width flags ap c rest hstar hdigit =>
    have hc := (List.ne_and_not_mem_of_not_mem_cons hzero).1
    exact (hnext (List.cons_ne_nil c rest)).turn
      (by simp [step, terminated, hstar, hdigit, hc.symm])

/-- The precision is read. -/
theorem Ends.overPrecision (hzero : 0 ∉ fmt) (hstop : (readPrecision fmt ap).1 = [] → out' = out)
    (hnext : (readPrecision fmt ap).1 ≠ [] → Ends strings size
      ⟨terminated (readPrecision fmt ap).1, (readPrecision fmt ap).2, out, .length, flags, width,
        0⟩ out') :
    Ends strings size ⟨terminated fmt, ap, out, .precis, flags, width, lflags⟩ out' := by
  cases fmt with
  | nil =>
    rw [hstop rfl]
    exact .cut (by simp) (by simp)
  | cons c rest =>
    obtain ⟨hc, hzero⟩ := List.ne_and_not_mem_of_not_mem_cons hzero
    -- the state after, whether or not the format goes on
    have hlength : Ends strings size
        ⟨terminated (readPrecision (c :: rest) ap).1, (readPrecision (c :: rest) ap).2, out,
          .length, flags, width, 0⟩ out' := by
      by_cases hrest : (readPrecision (c :: rest) ap).1 = []
      · rw [hstop hrest, hrest]
        exact .cut (by simp) (by simp)
      · exact hnext hrest
    refine hlength.turn ?_
    by_cases hdot : c = ascii '.'
    · subst hdot
      cases rest with
      | nil => rfl
      | cons d rest =>
        have hatoi := getAtoi_terminated 0 (d :: rest)
        rw [terminated, List.cons_append] at hatoi
        by_cases hdigit : isDigit d
        · simp [step, readPrecision, terminated, hdigit, hatoi, hc.symm]
        · by_cases hstar : d = ascii '*'
          · subst hstar
            simp [step, readPrecision, terminated, hdigit, hc.symm]
          · simp [step, readPrecision, terminated, hdigit, hstar, hc.symm]
    · simp [step, readPrecision, terminated, hdot, hc.symm]

/-- **A directive is read.** -/
theorem Ends.overDirective (hzero : 0 ∉ fmt) (hstop : (readDirective fmt ap).rest = [] → out' = out)
    (hnext : (readDirective fmt ap).rest ≠ [] → Ends strings size
      ⟨terminated (readDirective fmt ap).rest, (readDirective fmt ap).ap, out, .conv,
        (readDirective fmt ap).flags, (readDirective fmt ap).width,
        (readDirective fmt ap).lflags⟩ out') :
    Ends strings size ⟨terminated fmt, ap, out, .flags, {}, width, lflags⟩ out' := by
  have hflags : 0 ∉ (foldWhile addFlag {} fmt).2 := fun h =>
    hzero ((foldWhile_suffix addFlag {} fmt).mem h)
  refine .overFlags hzero (fun h => hstop ?_) fun _ => ?_
  · simp [readDirective, h, readWidth, readPrecision, foldWhile]
  have hwidth : ∀ flags, 0 ∉ (readWidth 0 flags (foldWhile addFlag {} fmt).2 ap).2.2.1 :=
    fun flags h => hflags ((readWidth_suffix 0 _ _ ap).mem h)
  refine .overWidths hflags (fun h => hstop ?_) fun _ => ?_
  · simp [readDirective, h, readPrecision, foldWhile]
  refine .overPrecision (hwidth _) (fun h => hstop ?_) fun _ => ?_
  · simp [readDirective, h, foldWhile]
  exact .overLengths (fun h => hwidth _ ((readPrecision_suffix _ _).mem h)) hstop hnext

theorem Ends.percent
    (h : Ends strings size ⟨terminated fmt, ap, out, .flags, {}, width, lflags⟩ out') :
    Ends strings size ⟨terminated (ascii '%' :: fmt), ap, out, .default, flags, width, lflags⟩
      out' :=
  h.turn rfl

/-- **The loop prints the text.** -/
theorem ends_text (strings : UInt32 → CString) (size : UInt32) (fmt : List Byte) (ap : Args)
    (out : Out) (flags : Flags) (width : Int32) (lflags : Nat) (hzero : 0 ∉ fmt) :
    Ends strings size ⟨terminated fmt, ap, out, .default, flags, width, lflags⟩
      ((text strings fmt ap).foldl (bputc size) out) := by
  fun_induction text strings fmt ap generalizing out flags width lflags with
  | case1 ap => exact .last rfl rfl
  | case2 ap fmt h =>
    have hfmt := (List.ne_and_not_mem_of_not_mem_cons hzero).2
    refine .percent (.overDirective hfmt (fun _ => rfl) fun hne => ?_)
    exact absurd h hne
  | case3 ap fmt conv rest h _ d chars ap' hconvert =>
    have hfmt := (List.ne_and_not_mem_of_not_mem_cons hzero).2
    refine .percent (.overDirective hfmt (fun hnil => ?_) fun _ => ?_)
    · rw [hnil] at h
      cases h
    · rw [h]
      refine .last (w := ⟨terminated rest, ap', chars.foldl (bputc size) out, .default, d.flags,
        d.width, d.lflags⟩) ?_ rfl
      simp only [d] at hconvert ⊢
      simp only [step, terminated, List.cons_append, hconvert, decide_true]
  | case4 ap fmt conv rest h _ d chars ap' c hconvert hc ih =>
    have hfmt := (List.ne_and_not_mem_of_not_mem_cons hzero).2
    have hrest : 0 ∉ rest := fun hmem =>
      hfmt ((readDirective_suffix fmt ap).mem (h ▸ List.mem_cons_of_mem conv hmem))
    refine .percent (.overDirective hfmt (fun hnil => ?_) fun _ => ?_)
    · rw [hnil] at h
      cases h
    · rw [h, List.foldl_append]
      refine (ih (chars.foldl (bputc size) out) d.flags d.width d.lflags hrest).turn ?_
      simp only [d] at hconvert ⊢
      simp only [step, terminated, List.cons_append, hconvert, hc, decide_false]
  | case5 ap c fmt hpercent ih =>
    obtain ⟨hc, hfmt⟩ := List.ne_and_not_mem_of_not_mem_cons hzero
    exact (ih (bputc size out c) flags width lflags hfmt).turn
      (by simp [step, terminated, hpercent, hc.symm])

/-- **`vsnprintf` returns**, and has printed the text. -/
theorem vsnprintf_eq (strings : UInt32 → CString) (buf : List Byte) (size : UInt32) (fmt : CString)
    (ap : Args) : vsnprintf strings (some buf) size fmt ap =
      some (finish size ((text strings fmt.1 ap).foldl (bputc size) ⟨buf, 0⟩)) := by
  obtain ⟨w, hloops, hout⟩ := ends_text strings size fmt.1 ap ⟨buf, 0⟩ {} 0 0 fmt.2
  have hloop : loop (step strings size) (6 * (fmt.1.length + 2)) _ = some w :=
    hloops.loop_eq Vars.measure (fun s m => step_measure)
      (by simp [Vars.measure, terminated, FmtState.rank]; omega)
  rw [vsnprintf, Option.isNone_some, if_neg Bool.false_ne_true, Option.getD_some, hloop,
    Option.map_some, hout]

end Vsprintf

end Leenix
