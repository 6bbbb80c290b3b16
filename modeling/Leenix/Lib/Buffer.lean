import Mathlib.Data.List.Basic
import Mathlib.Data.List.TakeWhile

/-!
# Stores into a buffer

A store outside the buffer has no value, so a program that has a result stores inside
its buffers only.

- `put`, `putAll`: one store, and stores at consecutive indices.
- `putAll_eq`: what a buffer holds after consecutive stores that fit.
- `copyWhile_eq`: a copy loop with a bound and a stop condition is `putAll` of what it
  reads.
-/

namespace Leenix

variable {α : Type*} {p : α → Bool} {src buf cs : List α} {c : α} {n i j : Nat}

/-- `buf[i] = c`. -/
def put (buf : List α) (i : Nat) (c : α) : Option (List α) :=
  if i < buf.length then some (buf.set i c) else none

/-- `buf[i] = c`, `buf[i + 1] = …` -/
def putAll (buf : List α) (i : Nat) : List α → Option (List α)
  | [] => some buf
  | c :: cs => (put buf i c).bind fun buf => putAll buf (i + 1) cs

/-- `while (n-- && p (src[i])) dst[j++] = src[i++]`: both indices and the buffer after. -/
def copyWhile (p : α → Bool) (src : List α) : Nat → Nat → Nat → List α →
    Option (Nat × Nat × List α)
  | 0, i, j, dst => some (i, j, dst)
  | n + 1, i, j, dst => do
    let c ← src[i]?
    if p c then copyWhile p src n (i + 1) (j + 1) (← put dst j c) else return (i, j, dst)

theorem put_of_le (c : α) (h : buf.length ≤ i) : put buf i c = none := if_neg (Nat.not_lt.mpr h)

theorem put_append (pre post : List α) (old c : α) :
    put (pre ++ old :: post) pre.length c = some (pre ++ c :: post) := by
  simp [put]

/-- Stores over a part of the buffer of their number. -/
theorem putAll_over (pre post : List α) {old : List α} (h : old.length = cs.length) :
    putAll (pre ++ (old ++ post)) pre.length cs = some (pre ++ (cs ++ post)) := by
  induction cs generalizing pre old with
  | nil =>
    obtain rfl := List.length_eq_zero_iff.mp h
    rfl
  | cons c cs ih =>
    obtain ⟨o, old, rfl⟩ := List.exists_cons_of_length_eq_add_one h
    have hrest := ih (pre ++ [c]) (Nat.succ.inj h)
    simp only [List.append_assoc, List.cons_append, List.nil_append, List.length_append,
      List.length_singleton] at hrest
    rw [putAll, List.cons_append, put_append, Option.bind_some, hrest, List.cons_append]

/-- **Consecutive stores** that fit. -/
theorem putAll_eq (h : i + cs.length ≤ buf.length) :
    putAll buf i cs = some (buf.take i ++ (cs ++ buf.drop (i + cs.length))) := by
  have hlen : (buf.take i).length = i := List.length_take_of_le (by omega)
  have hold : ((buf.drop i).take cs.length).length = cs.length := by
    rw [List.length_take, List.length_drop]
    omega
  have hsplit : buf = buf.take i ++ ((buf.drop i).take cs.length ++ buf.drop (i + cs.length)) := by
    rw [← List.drop_drop, List.take_append_drop, List.take_append_drop]
  have hall := putAll_over (buf.take i) (buf.drop (i + cs.length)) hold
  rwa [← hsplit, hlen] at hall

theorem putAll_append (buf : List α) (i : Nat) (cs ds : List α) :
    putAll buf i (cs ++ ds) = (putAll buf i cs).bind fun buf => putAll buf (i + cs.length) ds := by
  induction cs generalizing buf i with
  | nil => simp [putAll]
  | cons c cs ih =>
    have hindex : i + 1 + cs.length = i + (cs.length + 1) := by omega
    simp only [List.cons_append, putAll, ih, Option.bind_assoc, List.length_cons, hindex]

/-- **Copy loops.** If the loop cannot run off the source, it stores what it reads up to
the bound or the first element that stops it. -/
theorem copyWhile_eq (dst : List α)
    (hsrc : i + n ≤ src.length ∨ ∃ c ∈ src.drop i, p c = false) :
    copyWhile p src n i j dst =
      (putAll dst j (((src.drop i).take n).takeWhile p)).map fun dst =>
        (i + (((src.drop i).take n).takeWhile p).length,
          j + (((src.drop i).take n).takeWhile p).length, dst) := by
  induction n generalizing i j dst with
  | zero => simp [copyWhile, putAll]
  | succ n ih =>
    have hi : i < src.length := by
      rcases hsrc with hle | ⟨c, hc, -⟩
      · omega
      · by_contra hge
        rw [List.drop_eq_nil_of_le (Nat.not_lt.mp hge)] at hc
        cases hc
    rw [copyWhile, List.getElem?_eq_getElem hi, List.drop_eq_getElem_cons hi, List.take_succ_cons]
    cases hp : p src[i] with
    | false => simp [hp, putAll]
    | true =>
      have hrest : i + 1 + n ≤ src.length ∨ ∃ c ∈ src.drop (i + 1), p c = false := by
        rcases hsrc with hle | ⟨c, hc, hstop⟩
        · exact .inl (by omega)
        · rw [List.drop_eq_getElem_cons hi] at hc
          rcases List.mem_cons.mp hc with rfl | hc
          · rw [hp] at hstop
            cases hstop
          · exact .inr ⟨c, hc, hstop⟩
      simp only [Option.bind_eq_bind, Option.bind_some, if_true, List.takeWhile_cons, hp, putAll,
        Option.map_bind, List.length_cons]
      refine congrArg _ (funext fun buf => ?_)
      rw [ih buf hrest]
      simp only [Function.comp_apply, Nat.add_assoc, Nat.add_comm 1]

end Leenix
