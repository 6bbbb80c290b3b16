import Leenix.Fs.Fat12

/-!
# The packed FAT (fs/fat12.c)

Two entries of twelve bits lie in three bytes. `_fat12_get_fentry` reads the 16-bit word
at `3n/2`, whose second byte belongs to the neighbour of the entry as well.

- `packEntries`: how a list of entries is packed.
- `packEntries_word`: the format, stated by the words: an even entry is the low twelve
  bits of the word at `3n/2`, an odd one the high twelve.
- `getFentry_packEntries`: what is packed is what is looked up, at every index.
-/

namespace Leenix

/-- A value of twelve bits. -/
abbrev FatEntry := Fin (2 ^ 12)

/-- The bytes of a FAT. The last entry of an odd number of them leaves four bits of its
second byte, which hold `spare`. -/
def packEntries (spare : Nat) : List FatEntry → List Byte
  | [] => []
  | [a] => [UInt8.ofNat a, UInt8.ofNat (a / 2 ^ 8 + 2 ^ 4 * spare)]
  | a :: b :: values =>
    UInt8.ofNat a :: UInt8.ofNat (a / 2 ^ 8 + 2 ^ 4 * b) :: UInt8.ofNat (b / 2 ^ 4) ::
      packEntries spare values

variable {spare n : Nat} {values : List FatEntry}

/-- Where the entry `n` is in the word of two bytes. -/
def entryOfWord (n word : Nat) : Nat := if n % 2 = 1 then word / 2 ^ 4 else word % 2 ^ 12

@[simp] theorem entryOfWord_zero (word : Nat) : entryOfWord 0 word = word % 2 ^ 12 := rfl

@[simp] theorem entryOfWord_one (word : Nat) : entryOfWord 1 word = word / 2 ^ 4 := rfl

@[simp] theorem entryOfWord_add_two (n word : Nat) : entryOfWord (n + 2) word = entryOfWord n word := by
  simp only [entryOfWord, Nat.add_mod_right]

/-- **The format.** Both bytes of the word at `3n/2` are packed ones, and entry `n` is the
low twelve bits of the word or the high twelve. -/
theorem packEntries_word (spare : Nat) (hn : n < values.length) :
    ∃ low high, (packEntries spare values)[n * 3 / 2]? = some low ∧
      (packEntries spare values)[n * 3 / 2 + 1]? = some high ∧
      entryOfWord n (low.toNat + 2 ^ 8 * high.toNat) = values[n] := by
  induction values using packEntries.induct generalizing n with
  | case1 => cases hn
  | case2 a =>
    obtain rfl : n = 0 := Nat.lt_one_iff.mp hn
    refine ⟨_, _, rfl, rfl, ?_⟩
    have ha := a.isLt
    simp only [entryOfWord_zero, UInt8.toNat_ofNat', List.getElem_cons_zero]
    omega
  | case3 a b values ih =>
    have ha := a.isLt
    have hb := b.isLt
    match n, hn with
    | 0, _ =>
      refine ⟨_, _, rfl, rfl, ?_⟩
      simp only [entryOfWord_zero, UInt8.toNat_ofNat', List.getElem_cons_zero]
      omega
    | 1, _ =>
      refine ⟨_, _, rfl, rfl, ?_⟩
      simp only [entryOfWord_one, UInt8.toNat_ofNat', List.getElem_cons_succ, List.getElem_cons_zero]
      omega
    | n + 2, hn =>
      -- two entries further is three bytes further, and as odd or even
      obtain ⟨low, high, hlow, hhigh, hword⟩ := ih (n := n) (by simpa using hn)
      have hoffset : (n + 2) * 3 / 2 = n * 3 / 2 + 3 := by omega
      refine ⟨low, high, ?_, ?_, ?_⟩
      · simpa only [hoffset, packEntries, List.getElem?_cons_succ] using hlow
      · simpa only [hoffset, packEntries, List.getElem?_cons_succ] using hhigh
      · simpa only [entryOfWord_add_two, List.getElem_cons_succ] using hword

/-- **Lookup.** In a FAT of at most `2 ^ 16` entries, the entry of every cluster number is
the value that was packed, and the two bytes that are read are bytes of the packed table,
whatever lies behind it. -/
theorem getFentry_packEntries {fs : Fat12Handle} {rest : List Byte} (hlen : values.length ≤ 2 ^ 16)
    (htable : fs.fatTable = packEntries spare values ++ rest) (hn : n < values.length) :
    fs.getFentry (u16 n) = some values[n].val ∧
      u16 n * 3 / 2 + 1 < (packEntries spare values).length := by
  obtain ⟨low, high, hlow, hhigh, hword⟩ := packEntries_word spare hn
  have hcluster : u16 n = n := Nat.mod_eq_of_lt (Nat.lt_of_lt_of_le hn hlen)
  have hinside : n * 3 / 2 + 1 < (packEntries spare values).length :=
    (List.getElem?_eq_some_iff.mp hhigh).1
  have hlow' : fs.fatTable[n * 3 / 2]? = some low := by
    rw [htable, List.getElem?_append_left (by omega), hlow]
  have hhigh' : fs.fatTable[n * 3 / 2 + 1]? = some high := by
    rw [htable, List.getElem?_append_left hinside, hhigh]
  rw [hcluster]
  refine ⟨?_, hinside⟩
  have hmask : values[n].val % 2 ^ 12 = values[n].val := Nat.mod_eq_of_lt values[n].isLt
  simp only [Fat12Handle.getFentry, hlow', hhigh', Option.bind_eq_bind, Option.bind_some]
  rw [← entryOfWord, hword, hmask]
  rfl

/-- Three entries: the last one has no neighbour. -/
theorem getFentry_three :
    Fat12Handle.getFentry ⟨none, ⟨512, 1⟩, packEntries 0 [0xABC, 0x123, 0xFFF], 0⟩ (u16 2) =
        some 0xFFF ∧
      u16 2 * 3 / 2 + 1 < (packEntries 0 [0xABC, 0x123, 0xFFF]).length :=
  @getFentry_packEntries 0 2 [0xABC, 0x123, 0xFFF] _ [] (by decide) rfl (by decide)

end Leenix
