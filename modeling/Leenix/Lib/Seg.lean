import Mathlib.Data.List.Nodup
import Mathlib.Data.List.Basic
import Mathlib.Logic.Function.Basic

/-!
# Singly linked segments

A linked structure is a partial function `nx : α → Option (Option α)`: `none`
at a node that does not exist, `some q` at a node whose link holds `q`.
`Seg nx h xs e` says that following the links from the pointer `h` visits
exactly the nodes `xs`, in order, and then holds the pointer `e`.

- `Seg.det`, `Seg.nodup`: a segment that ends at the null pointer is determined
  by its start and visits no node twice.
- `Seg.reaches_iff`: what the links lead to is what the segment lists.
- `Seg.congr`, `Seg.update_of_notMem`: a segment reads only its own nodes.
- `Seg.start_ne`, `Seg.start_ne_of_notMem`: where a segment does not start.
- `Seg.snoc`, `Seg.unlink_head`, `Seg.unlink`: appending at the tail and
  splicing a node out, as one link update each.
- `seek`, `seekPrev`: the two pointer walks of a C list search, with the fuel
  that makes them structurally recursive, and what they find on a segment.
-/

namespace Leenix

universe u

variable {α : Type u}

/-- Following `nx` from `h` visits exactly `xs` and ends holding `e`. -/
def Seg (nx : α → Option (Option α)) : Option α → List α → Option α → Prop
  | h, [], e => h = e
  | h, x :: xs, e => h = some x ∧ ∃ q, nx x = some q ∧ Seg nx q xs e

namespace Seg

variable {nx nx' : α → Option (Option α)} {h h' e : Option α} {xs ys : List α}

@[simp] theorem nil_iff : Seg nx h [] e ↔ h = e := Iff.rfl

/-- The first node of a nonempty segment is where it starts. -/
theorem head_eq (hs : Seg nx h xs none) : h = xs.head? := by
  cases xs with
  | nil => exact hs
  | cons x xs => exact hs.1

theorem append_iff :
    Seg nx h (xs ++ ys) e ↔ ∃ m, Seg nx h xs m ∧ Seg nx m ys e := by
  induction xs generalizing h with
  | nil => exact ⟨fun hs => ⟨h, rfl, hs⟩, fun ⟨_, hm, hs⟩ => hm ▸ hs⟩
  | cons x xs ih =>
    constructor
    · rintro ⟨rfl, q, hq, hs⟩
      obtain ⟨m, h₁, h₂⟩ := ih.mp hs
      exact ⟨m, ⟨rfl, q, hq, h₁⟩, h₂⟩
    · rintro ⟨m, ⟨rfl, q, hq, h₁⟩, h₂⟩
      exact ⟨rfl, q, hq, ih.mpr ⟨m, h₁, h₂⟩⟩

/-- A segment depends on the links of its own nodes only. -/
theorem congr (hs : Seg nx h xs e) (heq : ∀ x ∈ xs, nx' x = nx x) : Seg nx' h xs e := by
  induction xs generalizing h with
  | nil => exact hs
  | cons y ys ih =>
    obtain ⟨rfl, q, hq, hrest⟩ := hs
    refine ⟨rfl, q, ?_, ih hrest fun x hx => heq x (List.mem_cons_of_mem y hx)⟩
    rw [heq y List.mem_cons_self, hq]

theorem update_of_notMem [DecidableEq α] {t : α} {v : Option (Option α)}
    (hs : Seg nx h xs e) (ht : t ∉ xs) : Seg (Function.update nx t v) h xs e :=
  hs.congr fun x hx => Function.update_of_ne (fun heq : x = t => ht (heq ▸ hx)) _ _

/-- A null-terminated segment is determined by its first pointer. -/
theorem det (hx : Seg nx h xs none) (hy : Seg nx h ys none) : xs = ys := by
  induction xs generalizing h ys with
  | nil =>
    cases ys with
    | nil => rfl
    | cons y ys =>
      obtain rfl : h = none := hx
      cases hy.1
  | cons x xs ih =>
    obtain ⟨rfl, q, hq, hrest⟩ := hx
    cases ys with
    | nil => cases hy
    | cons y ys =>
      obtain ⟨hxy, q', hq', hrest'⟩ := hy
      obtain rfl := Option.some.inj hxy
      rw [hq] at hq'
      obtain rfl := Option.some.inj hq'
      rw [ih hrest hrest']

/-- The nodes that the links lead to are those of the null-terminated segment. -/
theorem reaches_iff {t : α} (hs : Seg nx h xs none) :
    (∃ us, Seg nx h us (some t)) ↔ t ∈ xs := by
  constructor
  · rintro ⟨us, hus⟩
    induction us generalizing h xs with
    | nil =>
      obtain rfl : h = some t := hus
      cases xs with
      | nil => cases hs
      | cons x xs => simp [Option.some.inj hs.1]
    | cons u us ih =>
      obtain ⟨rfl, q, hq, hrest⟩ := hus
      cases xs with
      | nil => cases hs
      | cons x xs =>
        obtain ⟨hux, q', hq', hrest'⟩ := hs
        rw [← Option.some.inj hux, hq] at hq'
        obtain rfl := Option.some.inj hq'
        exact List.mem_cons_of_mem x (ih hrest' hrest)
  · intro ht
    obtain ⟨us, vs, rfl⟩ := List.append_of_mem ht
    obtain ⟨m, hus, rfl, -⟩ := append_iff.mp hs
    exact ⟨us, hus⟩

/-- A set that holds where a walk starts and is closed under the links holds
wherever the walk leads. -/
theorem reaches_closed {R : α → Prop} {us : List α} {t : α} (hs : Seg nx h us (some t))
    (hhead : ∀ x, h = some x → R x) (hlink : ∀ x y, R x → nx x = some (some y) → R y) : R t := by
  induction us generalizing h with
  | nil => exact hhead t hs
  | cons u us ih =>
    obtain ⟨rfl, q, hq, hrest⟩ := hs
    refine ih hrest fun x hx => ?_
    rw [hx] at hq
    exact hlink u x (hhead u rfl) hq

/-- The way to a node is the beginning of the segment. -/
theorem eq_append {us : List α} {t : α} (hs : Seg nx h xs none) (hus : Seg nx h us (some t)) :
    ∃ vs, xs = us ++ t :: vs := by
  induction us generalizing h xs with
  | nil =>
    obtain rfl : h = some t := hus
    cases xs with
    | nil => cases hs
    | cons x xs =>
      obtain rfl := Option.some.inj hs.1
      exact ⟨xs, rfl⟩
  | cons u us ih =>
    obtain ⟨rfl, q, hq, hus⟩ := hus
    cases xs with
    | nil => cases hs
    | cons x xs =>
      obtain ⟨hx, q', hq', hs⟩ := hs
      obtain rfl := Option.some.inj hx
      obtain rfl := Option.some.inj (hq.symm.trans hq')
      obtain ⟨vs, rfl⟩ := ih hs hus
      exact ⟨vs, rfl⟩

/-- A null-terminated segment visits no node twice: a second visit would make
the remaining segment equal to a proper suffix of itself. -/
theorem nodup (hs : Seg nx h xs none) : xs.Nodup := by
  induction xs generalizing h with
  | nil => exact List.nodup_nil
  | cons x xs ih =>
    obtain ⟨-, q, hq, hrest⟩ := hs
    refine List.nodup_cons.mpr ⟨fun hmem => ?_, ih hrest⟩
    obtain ⟨us, vs, rfl⟩ := List.append_of_mem hmem
    obtain ⟨m, -, hm, q', hq', htail⟩ := append_iff.mp hrest
    rw [hq] at hq'
    obtain rfl := Option.some.inj hq'
    have hlen := congrArg List.length (hrest.det htail)
    simp at hlen
    omega

/-- The last node's link is the end pointer. -/
theorem last_link {l : α} (hs : Seg nx h (xs ++ [l]) e) : nx l = some e := by
  obtain ⟨m, -, -, q, hq, rfl⟩ := append_iff.mp hs
  exact hq

/-- A segment does not start at a node that follows another one. -/
theorem start_ne {a t : α} (hs : Seg nx h (xs ++ a :: t :: ys) e)
    (hnd : (xs ++ a :: t :: ys).Nodup) : h ≠ some t := by
  cases xs with
  | nil =>
    rintro rfl
    simp [Option.some.inj hs.1] at hnd
  | cons x xs =>
    rintro rfl
    simp [Option.some.inj hs.1] at hnd

theorem start_ne_of_notMem {t : α} (hs : Seg nx h xs none) (ht : t ∉ xs) : h ≠ some t := by
  rw [hs.head_eq]
  exact fun heq => ht (List.mem_of_mem_head? heq)

variable [DecidableEq α]

/-- Linking a new node behind the last one appends it to the segment. -/
theorem snoc {l t : α} (hs : Seg nx h (xs ++ [l]) none) (hnd : (xs ++ [l]).Nodup)
    (ht : nx t = some none) (hne : t ∉ xs ++ [l]) :
    Seg (Function.update nx l (some (some t))) h (xs ++ [l] ++ [t]) none := by
  obtain ⟨m, hxs, rfl, q, hq, rfl⟩ := append_iff.mp hs
  have hl : l ∉ xs := fun hmem => by
    have := (List.nodup_append.mp hnd).2.2 l hmem l List.mem_cons_self
    exact this rfl
  have htl : t ≠ l := fun heq => hne (heq ▸ by simp)
  rw [List.append_assoc]
  refine append_iff.mpr ⟨some l, hxs.update_of_notMem hl, rfl, some t, ?_, rfl, none, ?_, rfl⟩
  · exact Function.update_self ..
  · rw [Function.update_of_ne htl, ht]

omit [DecidableEq α] in
/-- Dropping the first node moves the start to that node's link. -/
theorem unlink_head {t : α} {q : Option α} (hs : Seg nx h (t :: xs) e) (hq : nx t = some q) :
    Seg nx q xs e := by
  obtain ⟨-, q', hq', hrest⟩ := hs
  rw [hq] at hq'
  exact Option.some.inj hq' ▸ hrest

/-- Storing a node's link into its predecessor splices the node out. -/
theorem unlink {a t : α} {q : Option α} (hs : Seg nx h (xs ++ a :: t :: ys) e)
    (hnd : (xs ++ a :: t :: ys).Nodup) (hq : nx t = some q) :
    Seg (Function.update nx a (some q)) h (xs ++ a :: ys) e := by
  obtain ⟨m, hxs, rfl, q₁, hq₁, hrest⟩ := append_iff.mp hs
  have hdisj := List.nodup_append.mp hnd
  have hax : a ∉ xs := fun hmem => hdisj.2.2 a hmem a List.mem_cons_self rfl
  have hay : a ∉ ys := fun hmem =>
    (List.nodup_cons.mp hdisj.2.1).1 (List.mem_cons_of_mem t hmem)
  refine append_iff.mpr ⟨some a, hxs.update_of_notMem hax, rfl, q, ?_, ?_⟩
  · exact Function.update_self ..
  · exact (hrest.unlink_head hq).update_of_notMem hay

end Seg

/-! ## Pointer walks -/

section Walks

variable [DecidableEq α] (nx : α → Option (Option α)) (t : α)

/-- The walk `prev = cur; while (cur && cur != t) { prev = cur; cur = cur->next; }`:
the final `prev` and `cur`, or `none` when a node does not exist or the fuel
runs out. -/
def seek : Nat → Option α → Option α → Option (Option α × Option α)
  | _, prev, none => some (prev, none)
  | 0, prev, some c => if c = t then some (prev, some c) else none
  | n + 1, prev, some c =>
    if c = t then some (prev, some c) else (nx c).bind fun q => seek n (some c) q

/-- The walk `while (cur != NULL && cur->next != t) cur = cur->next;`: the
final `cur`, or `none` when a node does not exist or the fuel runs out. -/
def seekPrev : Nat → Option α → Option (Option α)
  | _, none => some none
  | 0, some c => (nx c).bind fun q => if q = some t then some (some c) else none
  | n + 1, some c =>
    (nx c).bind fun q => if q = some t then some (some c) else seekPrev n q

variable {nx t} {h e prev : Option α} {xs ys : List α} {n : Nat}

omit [DecidableEq α] in
theorem getLast?_cons_or (x : α) (xs : List α) (prev : Option α) :
    (x :: xs).getLast?.or prev = xs.getLast?.or (some x) := by
  cases xs <;> simp [List.getLast?_cons]

/-- On a segment through `t`, the first walk stops at `t` with `prev` at its
predecessor. -/
theorem seek_found (hs : Seg nx h (xs ++ t :: ys) e) (ht : t ∉ xs) (hn : xs.length ≤ n) :
    seek nx t n prev h = some (xs.getLast?.or prev, some t) := by
  induction xs generalizing h n prev with
  | nil =>
    obtain ⟨rfl, -⟩ := hs
    cases n <;> simp [seek]
  | cons x xs ih =>
    obtain ⟨rfl, q, hq, hrest⟩ := hs
    have hxt : x ≠ t := fun heq => ht (heq ▸ List.mem_cons_self)
    cases n with
    | zero => simp at hn
    | succ n =>
      rw [seek, if_neg hxt, hq, Option.bind_some,
        ih hrest (fun hmem => ht (List.mem_cons_of_mem x hmem)) (by simpa using hn),
        getLast?_cons_or]

/-- On a null-terminated segment without `t`, the first walk runs off the end. -/
theorem seek_absent (hs : Seg nx h xs none) (ht : t ∉ xs) (hn : xs.length ≤ n) :
    seek nx t n prev h = some (xs.getLast?.or prev, none) := by
  induction xs generalizing h n prev with
  | nil =>
    obtain rfl : h = none := hs
    cases n <;> simp [seek]
  | cons x xs ih =>
    obtain ⟨rfl, q, hq, hrest⟩ := hs
    have hxt : x ≠ t := fun heq => ht (heq ▸ List.mem_cons_self)
    cases n with
    | zero => simp at hn
    | succ n =>
      rw [seek, if_neg hxt, hq, Option.bind_some,
        ih hrest (fun hmem => ht (List.mem_cons_of_mem x hmem)) (by simpa using hn),
        getLast?_cons_or]

/-- On a segment in which `t` directly follows `a`, the second walk stops at
`a`. -/
theorem seekPrev_found {a : α} (hs : Seg nx h (xs ++ a :: t :: ys) e)
    (hnd : (xs ++ a :: t :: ys).Nodup) (hn : xs.length ≤ n) :
    seekPrev nx t n h = some (some a) := by
  induction xs generalizing h n with
  | nil =>
    obtain ⟨rfl, q, hq, rfl, -⟩ := hs
    cases n <;> simp [seekPrev, hq]
  | cons x xs ih =>
    obtain ⟨rfl, q, hq, hrest⟩ := hs
    have hnd' := (List.nodup_cons.mp hnd).2
    have hqt : q ≠ some t := hrest.start_ne hnd'
    cases n with
    | zero => simp at hn
    | succ n =>
      rw [seekPrev, hq, Option.bind_some, if_neg hqt]
      exact ih hrest hnd' (by simpa using hn)

/-- On a null-terminated segment without `t`, the second walk runs off the end. -/
theorem seekPrev_absent (hs : Seg nx h xs none) (ht : t ∉ xs) (hn : xs.length ≤ n) :
    seekPrev nx t n h = some none := by
  induction xs generalizing h n with
  | nil =>
    obtain rfl : h = none := hs
    cases n <;> simp [seekPrev]
  | cons x xs ih =>
    obtain ⟨rfl, q, hq, hrest⟩ := hs
    have htxs : t ∉ xs := fun hmem => ht (List.mem_cons_of_mem x hmem)
    have hqt : q ≠ some t := hrest.start_ne_of_notMem htxs
    cases n with
    | zero => simp at hn
    | succ n =>
      rw [seekPrev, hq, Option.bind_some, if_neg hqt]
      exact ih hrest htxs (by simpa using hn)

end Walks

end Leenix
