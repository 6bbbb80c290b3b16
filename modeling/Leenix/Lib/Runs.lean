import Mathlib.Data.List.Basic
import Mathlib.Data.List.TakeWhile

/-!
# Maximal runs in a list

A list is cut at the elements that are separators. A piece (`IsPiece`) is a stretch
without a separator that cannot be made longer on either side; a run (`IsRun`) is one
that is not empty.

- `skip`: the scan both cuts below are made of, and what is known of the place where
  it stops.
- `runsFrom`: the runs, leftmost first. `mem_runsFrom`, `pairwise_runsFrom`: it lists
  each of them once, in order.
- `piecesFrom`: the cut at every single separator, which also yields empty stretches.
- `piecesFrom_eq_runsFrom`, `empty_mem_piecesFrom`: the two cuts agree when each
  separator follows an element that is none, and only then.
-/

namespace Leenix

variable {α : Type*}

/-- The first position from `i` on at which `p` does not hold. -/
def skip (p : α → Bool) (s : List α) (i : Nat) : Nat := i + ((s.drop i).takeWhile p).length

/-- Position `i` is the start of the list, or follows a separator. -/
def Starts (sep : α → Bool) (s : List α) (i : Nat) : Prop :=
  ∀ j c, i = j + 1 → s[j]? = some c → sep c = true

/-- A piece from position `i` up to position `stop`. -/
structure IsPiece (sep : α → Bool) (s : List α) (i stop : Nat) : Prop where
  le : i ≤ stop
  inside : stop ≤ s.length
  clean : ∀ j, i ≤ j → j < stop → ∃ c, s[j]? = some c ∧ sep c = false
  starts : Starts sep s i
  stops : ∀ c, s[stop]? = some c → sep c = true

/-- A run from position `i` up to position `stop`. -/
structure IsRun (sep : α → Bool) (s : List α) (i stop : Nat) : Prop extends
    IsPiece sep s i stop where
  nonempty : i < stop

section Skip

variable {p : α → Bool} {s : List α} {i j : Nat}

theorem le_skip : i ≤ skip p s i := Nat.le_add_right _ _

theorem skip_le (hi : i ≤ s.length) : skip p s i ≤ s.length := by
  have hlen := (List.takeWhile_prefix p (l := s.drop i)).length_le
  rw [List.length_drop] at hlen
  unfold skip
  omega

/-- What the scan steps over. -/
theorem of_lt_skip (hij : i ≤ j) (hj : j < skip p s i) : ∃ c, s[j]? = some c ∧ p c = true := by
  have hlt : j - i < ((s.drop i).takeWhile p).length := by
    unfold skip at hj
    omega
  refine ⟨((s.drop i).takeWhile p)[j - i], ?_, List.all_eq_true.mp List.all_takeWhile _
    (List.getElem_mem hlt)⟩
  have hdrop : s[j]? = (s.drop i)[j - i]? := by
    rw [List.getElem?_drop, Nat.add_sub_cancel' hij]
  rw [hdrop]
  conv_lhs => rw [← List.takeWhile_append_dropWhile (p := p) (l := s.drop i)]
  rw [List.getElem?_append_left hlt, List.getElem?_eq_getElem hlt]

/-- Where the scan stops. -/
theorem at_skip {c : α} (hc : s[skip p s i]? = some c) : p c = false := by
  have hdrop : s[skip p s i]? = ((s.drop i).dropWhile p).head? := by
    have hsplit : (s.drop i)[((s.drop i).takeWhile p).length]? =
        ((s.drop i).takeWhile p ++ (s.drop i).dropWhile p)[((s.drop i).takeWhile p).length]? := by
      rw [List.takeWhile_append_dropWhile]
    rw [skip, ← List.getElem?_drop, hsplit, List.getElem?_append_right (Nat.le_refl _),
      Nat.sub_self, List.head?_eq_getElem?]
  have hstop := List.head?_dropWhile_not p (s.drop i)
  rw [← hdrop, hc] at hstop
  exact hstop

/-- The scan that stops at once. -/
theorem skip_eq_self {c : α} (hc : s[i]? = some c) (hp : p c = false) : skip p s i = i := by
  refine Nat.le_antisymm (Nat.le_of_not_lt fun hlt => ?_) le_skip
  obtain ⟨d, hd, hpd⟩ := of_lt_skip (Nat.le_refl i) hlt
  rw [hc] at hd
  obtain rfl := Option.some.inj hd
  rw [hp] at hpd
  cases hpd

/-- The scan that steps over the element at `i`. -/
theorem lt_skip {c : α} (hc : s[i]? = some c) (hp : p c = true) : i < skip p s i := by
  refine Nat.lt_of_le_of_ne le_skip fun heq => ?_
  have hstop := at_skip (p := p) (i := i) (heq ▸ hc)
  rw [hp] at hstop
  cases hstop

end Skip

/-- The runs that start at position `pos` or behind it. -/
def runsFrom (sep : α → Bool) (s : List α) (pos : Nat) : List (Nat × Nat) :=
  let i := skip sep s pos
  if i < s.length then
    let stop := skip (fun c => !sep c) s i
    (i, stop) :: runsFrom sep s (stop + 1)
  else []
termination_by s.length - pos
decreasing_by
  have hpos : pos ≤ skip sep s pos := le_skip
  have hstop : skip sep s pos ≤ skip (fun c => !sep c) s (skip sep s pos) := le_skip
  omega

/-- The stretches between separators from position `pos` on; a separator at the end
of the list ends the last one. -/
def piecesFrom (sep : α → Bool) (s : List α) (pos : Nat) : List (Nat × Nat) :=
  if pos < s.length then
    let stop := skip (fun c => !sep c) s pos
    (pos, stop) :: piecesFrom sep s (stop + 1)
  else []
termination_by s.length - pos
decreasing_by
  have hstop : pos ≤ skip (fun c => !sep c) s pos := le_skip
  omega

variable {sep : α → Bool} {s : List α} {pos i stop : Nat}

theorem starts_zero : Starts sep s 0 := fun _ _ hj _ => nomatch hj

/-! ## The runs -/

theorem le_of_mem_runsFrom (h : (i, stop) ∈ runsFrom sep s pos) : pos ≤ i := by
  induction pos using runsFrom.induct sep s with
  | case1 pos first hfirst last ih =>
    have hpos : pos ≤ first := le_skip
    have hlast : first ≤ last := le_skip
    rw [runsFrom, if_pos hfirst] at h
    rcases List.mem_cons.mp h with heq | hrest
    · obtain ⟨rfl, -⟩ := Prod.mk.inj heq
      exact hpos
    · have := ih hrest
      omega
  | case2 pos first hfirst =>
    rw [runsFrom, if_neg hfirst] at h
    cases h

/-- A scan over what is no separator finds a piece. -/
theorem isPiece_skip (hi : Starts sep s i) (hle : i ≤ s.length) :
    IsPiece sep s i (skip (fun c => !sep c) s i) where
  le := le_skip
  inside := skip_le hle
  clean j hj hstop := by
    obtain ⟨c, hc, hsep⟩ := of_lt_skip hj hstop
    exact ⟨c, hc, by simpa using hsep⟩
  starts := hi
  stops c hc := by simpa using at_skip hc

/-- Behind separators that follow a start there is a start. -/
theorem starts_skip (hpos : Starts sep s pos) : Starts sep s (skip sep s pos) := by
  intro j c hj hc
  rcases Nat.lt_or_ge j pos with hlow | hhigh
  · refine hpos j c ?_ hc
    have : pos ≤ skip sep s pos := le_skip
    omega
  · have hlt : j < skip sep s pos := by omega
    obtain ⟨d, hd, hsep⟩ := of_lt_skip hhigh hlt
    rw [hc] at hd
    exact Option.some.inj hd ▸ hsep

/-- A scan over separators and one over the rest find a run. -/
theorem isRun_skip (hpos : Starts sep s pos) (hlt : skip sep s pos < s.length) :
    IsRun sep s (skip sep s pos) (skip (fun c => !sep c) s (skip sep s pos)) where
  toIsPiece := isPiece_skip (starts_skip hpos) hlt.le
  nonempty := by
    have hc := List.getElem?_eq_getElem hlt
    exact lt_skip hc (by rw [at_skip hc]; rfl)

/-- What ends a piece is followed by a start. -/
theorem IsPiece.starts_succ (h : IsPiece sep s i stop) : Starts sep s (stop + 1) := by
  intro j c hj hc
  obtain rfl : stop = j := Nat.succ.inj hj
  exact h.stops c hc

/-- Two runs that start at the same place are the same. -/
theorem IsRun.stop_unique {stop' : Nat} (h : IsRun sep s i stop) (h' : IsRun sep s i stop') :
    stop = stop' := by
  have hle : ∀ {a b : Nat}, IsRun sep s i a → IsRun sep s i b → a ≤ b := by
    intro a b ha hb
    by_contra hlt
    have hin := hb.nonempty
    obtain ⟨c, hc, hsep⟩ := ha.clean b (by omega) (by omega)
    rw [hb.stops c hc] at hsep
    cases hsep
  exact Nat.le_antisymm (hle h h') (hle h' h)

/-- **Runs.** From the start of the list, or from behind a separator, `runsFrom` lists
exactly the runs. -/
theorem mem_runsFrom (hpos : Starts sep s pos) :
    (i, stop) ∈ runsFrom sep s pos ↔ pos ≤ i ∧ IsRun sep s i stop := by
  induction pos using runsFrom.induct sep s with
  | case1 pos first hfirst last ih =>
    have hrun : IsRun sep s first last := isRun_skip hpos hfirst
    have hle : pos ≤ first := le_skip
    rw [runsFrom, if_pos hfirst, List.mem_cons, ih hrun.starts_succ]
    constructor
    · rintro (heq | ⟨hi, hother⟩)
      · obtain ⟨rfl, rfl⟩ := Prod.mk.inj heq
        exact ⟨hle, hrun⟩
      · have := hrun.nonempty
        exact ⟨by omega, hother⟩
    · rintro ⟨hi, hother⟩
      rcases Nat.lt_trichotomy i first with hlt | rfl | hgt
      · -- before `first` there are separators only
        obtain ⟨c, hc, hsep⟩ := of_lt_skip hi hlt
        obtain ⟨d, hd, hclean⟩ := hother.clean i (Nat.le_refl i) hother.nonempty
        rw [hc] at hd
        obtain rfl := Option.some.inj hd
        rw [hsep] at hclean
        cases hclean
      · exact .inl (by rw [hother.stop_unique hrun])
      · refine .inr ⟨?_, hother⟩
        by_contra hnot
        -- a run does not start inside another, or at its end
        obtain ⟨c, hc, hclean⟩ := hrun.clean (i - 1) (by omega) (by omega)
        rw [hother.starts (i - 1) c (by omega) hc] at hclean
        cases hclean
  | case2 pos first hfirst =>
    rw [runsFrom, if_neg hfirst]
    simp only [List.not_mem_nil, false_iff, not_and]
    intro hi hother
    obtain ⟨c, hc, hclean⟩ := hother.clean i (Nat.le_refl i) hother.nonempty
    have hlen : i < s.length := (List.getElem?_eq_some_iff.mp hc).1
    obtain ⟨d, hd, hsep⟩ := of_lt_skip hi (Nat.lt_of_lt_of_le hlen (Nat.le_of_not_lt hfirst))
    rw [hc] at hd
    obtain rfl := Option.some.inj hd
    rw [hsep] at hclean
    cases hclean

/-- The runs are listed from left to right. -/
theorem pairwise_runsFrom : (runsFrom sep s pos).Pairwise fun a b => a.2 < b.1 := by
  induction pos using runsFrom.induct sep s with
  | case1 pos first hfirst last ih =>
    rw [runsFrom, if_pos hfirst]
    exact List.pairwise_cons.mpr ⟨fun b hb => le_of_mem_runsFrom hb, ih⟩
  | case2 pos first hfirst =>
    rw [runsFrom, if_neg hfirst]
    exact .nil

/-! ## The pieces -/

theorem isPiece_of_mem (hpos : Starts sep s pos) (h : (i, stop) ∈ piecesFrom sep s pos) :
    IsPiece sep s i stop := by
  induction pos using piecesFrom.induct sep s with
  | case1 pos hlt last ih =>
    have hpiece : IsPiece sep s pos last := isPiece_skip hpos hlt.le
    rw [piecesFrom, if_pos hlt] at h
    rcases List.mem_cons.mp h with heq | hrest
    · obtain ⟨rfl, rfl⟩ := Prod.mk.inj heq
      exact hpiece
    · exact ih hpiece.starts_succ hrest
  | case2 pos hge =>
    rw [piecesFrom, if_neg hge] at h
    cases h

/-- Each position that starts a piece is listed with the place where it stops. -/
theorem mem_piecesFrom (hstart : Starts sep s i) (hpos : pos ≤ i) (hi : i < s.length) :
    (i, skip (fun c => !sep c) s i) ∈ piecesFrom sep s pos := by
  induction pos using piecesFrom.induct sep s with
  | case1 pos hlt last ih =>
    rw [piecesFrom, if_pos hlt]
    rcases Nat.eq_or_lt_of_le hpos with rfl | hgt
    · exact List.mem_cons_self
    · refine List.mem_cons_of_mem _ (ih ?_)
      by_contra hnot
      have hlast : i - 1 < skip (fun c => !sep c) s pos := by omega
      obtain ⟨c, hc, hclean⟩ := of_lt_skip (Nat.le_sub_one_of_lt hgt) hlast
      rw [hstart (i - 1) c (by omega) hc] at hclean
      cases hclean
  | case2 pos hge => omega

/-- A separator that starts a piece makes an empty one. -/
theorem empty_mem_piecesFrom {c : α} (hstart : Starts sep s i) (hc : s[i]? = some c)
    (hsep : sep c = true) : (i, i) ∈ piecesFrom sep s 0 := by
  have hmem : (i, skip (fun c => !sep c) s i) ∈ piecesFrom sep s 0 :=
    mem_piecesFrom hstart (Nat.zero_le i) (List.getElem?_eq_some_iff.mp hc).1
  rwa [skip_eq_self hc (by simpa using hsep)] at hmem

/-- If no separator starts a piece, the pieces are the runs. -/
theorem piecesFrom_eq_runsFrom (hpos : Starts sep s pos)
    (hclean : ∀ i c, Starts sep s i → s[i]? = some c → sep c = false) :
    piecesFrom sep s pos = runsFrom sep s pos := by
  induction pos using piecesFrom.induct sep s with
  | case1 pos hlt last ih =>
    have hc := List.getElem?_eq_getElem hlt
    have hskip : skip sep s pos = pos := skip_eq_self hc (hclean pos _ hpos hc)
    have hpiece : IsPiece sep s pos last := isPiece_skip hpos hlt.le
    rw [piecesFrom, if_pos hlt, runsFrom]
    simp only [hskip, if_pos hlt]
    rw [ih hpiece.starts_succ]
  | case2 pos hge =>
    have hskip : ¬skip sep s pos < s.length := by
      have : pos ≤ skip sep s pos := le_skip
      omega
    rw [piecesFrom, if_neg hge, runsFrom, if_neg hskip]

end Leenix
