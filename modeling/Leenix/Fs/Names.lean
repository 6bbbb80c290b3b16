import Leenix.Fs.Lookup

/-!
# Names and directory entries

`fat12_open` compares the eleven bytes that `_fat12_normal_to_8_3` makes of a name. That
conversion drops what does not fit: an extension is cut to three characters, padding and
a final dot get lost, and what is left of a base of more than eight characters becomes
the extension. `ABCDEFGHI` opens the file `ABCDEFGH.I`.

- `fat12NormalTo8_3_spelled`, `fat12_8_3toNormal_padded`: on plain names the two
  conversions are inverse to each other.
- `fat12Open_printed_iff`: a name opens nothing but the file that is printed like it
  exactly when it is plain, or no well-formed entry is compared equal to it.
-/

namespace Leenix

/-- A field of a directory entry: the characters, and spaces behind them. -/
def padded (n : Nat) (s : List Byte) : List Byte := s ++ List.replicate (n - s.length) spaceByte

/-- A character that has no meaning of its own in a name. -/
def PlainByte (c : Byte) : Prop := c ≠ spaceByte ∧ c ≠ dotByte ∧ c ≠ 0

instance (c : Byte) : Decidable (PlainByte c) := inferInstanceAs (Decidable (_ ∧ _ ∧ _))

/-- The base and the extension of an 8.3 name. -/
structure NameParts (base ext : List Byte) : Prop where
  base_pos : 0 < base.length
  base_le : base.length ≤ 8
  ext_le : ext.length ≤ 3
  plain : ∀ c ∈ base ++ ext, PlainByte c
  notDeleted : base.head? ≠ some 0xE5

instance (base ext : List Byte) : Decidable (NameParts base ext) :=
  have hplain : (base ++ ext).all (fun c => PlainByte c) = true ↔ ∀ c ∈ base ++ ext, PlainByte c := by
    simp only [List.all_eq_true, decide_eq_true_eq]
  decidable_of_iff
    (0 < base.length ∧ base.length ≤ 8 ∧ ext.length ≤ 3 ∧
      (base ++ ext).all (fun c => PlainByte c) = true ∧ base.head? ≠ some 0xE5)
    ⟨fun ⟨h₁, h₂, h₃, h₄, h₅⟩ => ⟨h₁, h₂, h₃, hplain.mp h₄, h₅⟩,
      fun h => ⟨h.base_pos, h.base_le, h.ext_le, hplain.mpr h.plain, h.notDeleted⟩⟩

/-- The same without a condition on the first character. -/
structure PlainParts (base ext : List Byte) : Prop where
  base_pos : 0 < base.length
  base_le : base.length ≤ 8
  ext_le : ext.length ≤ 3
  plain : ∀ c ∈ base ++ ext, PlainByte c

theorem NameParts.plainParts {base ext : List Byte} (h : NameParts base ext) : PlainParts base ext :=
  ⟨h.base_pos, h.base_le, h.ext_le, h.plain⟩

/-- How the name with the given parts is written. -/
def spelled (base ext : List Byte) : List Byte := if ext = [] then base else base ++ dotByte :: ext

/-- The eleven bytes of a well-formed 8.3 name. -/
def WellFormed83 (bytes : List Byte) : Prop :=
  ∃ base ext, NameParts base ext ∧ bytes = padded 8 base ++ padded 3 ext

/-- A base of one to eight characters, and after a dot, if there is one, an extension of
one to three. -/
def PlainName (name : List Byte) : Prop := ∃ base ext, NameParts base ext ∧ name = spelled base ext

/-- The name is plain, or no well-formed entry is compared equal to it. -/
def Unambiguous (name : List Byte) : Prop :=
  PlainName name ∨ ¬WellFormed83 (fat12NormalTo8_3 name)

/-- Whatever the volume holds: if the name opens an entry with a well-formed name, then
it is the name that the driver prints for the entry. -/
def OpensPrinted (name : List Byte) : Prop :=
  ∀ fs env node, ReadsBlocks fs.blockDev → env.dirEntries.length = 512 →
    fat12Open (some (rootOf fs)) (some name) env = some node →
    WellFormed83 (node.dirEntry.take 11) → name = fat12_8_3toNormal (node.dirEntry.take 11)

variable {base ext name s rest : List Byte} {c : Byte} {n : Nat}

theorem length_padded (h : s.length ≤ n) : (padded n s).length = n := by
  rw [padded, List.length_append, List.length_replicate]
  omega

/-! ## The conversions -/

/-- A padded field is read up to its padding. -/
theorem takeWhile_padded (hs : spaceByte ∉ s) : (padded n s).takeWhile (· ≠ spaceByte) = s := by
  refine takeWhile_ne hs ?_
  cases n - s.length with
  | zero => exact .inl rfl
  | succ k => exact .inr rfl

namespace PlainParts

variable (h : PlainParts base ext)
include h

theorem space_notMem_base : spaceByte ∉ base := fun hc => (h.plain _ (List.mem_append_left _ hc)).1 rfl

theorem space_notMem_ext : spaceByte ∉ ext := fun hc => (h.plain _ (List.mem_append_right _ hc)).1 rfl

theorem dot_notMem_base : dotByte ∉ base := fun hc => (h.plain _ (List.mem_append_left _ hc)).2.1 rfl

/-- The spelled name is the base, with a dot behind it or nothing. -/
theorem spelled_eq : ∃ rest, spelled base ext = base ++ rest ∧
    (rest = [] ∨ rest.head? = some dotByte) ∧
    (if rest.head? = some dotByte then rest.tail else rest) = ext := by
  by_cases hext : ext = []
  · subst hext
    exact ⟨[], by simp [spelled], .inl rfl, rfl⟩
  · exact ⟨dotByte :: ext, by simp [spelled, hext], .inr rfl, rfl⟩

end PlainParts

/-- **To 8.3.** A plain name becomes its two fields. -/
theorem fat12NormalTo8_3_spelled (h : PlainParts base ext) :
    fat12NormalTo8_3 (spelled base ext) = padded 8 base ++ padded 3 ext := by
  obtain ⟨rest, hname, hrest, hext⟩ := h.spelled_eq
  have hbase : ((spelled base ext).take 8).takeWhile (· ≠ dotByte) = base := by
    rw [hname, List.take_append, List.take_of_length_le h.base_le]
    refine takeWhile_ne h.dot_notMem_base ?_
    rcases hrest with rfl | hhead
    · exact .inl (List.take_nil)
    · obtain ⟨tail, rfl⟩ := List.head?_eq_some_iff.mp hhead
      cases 8 - base.length with
      | zero => exact .inl rfl
      | succ k => exact .inr rfl
  have hdrop : (spelled base ext).drop base.length = rest := by rw [hname, List.drop_left]
  simp only [fat12NormalTo8_3, hbase, hdrop, hext, List.take_of_length_le h.ext_le]
  rfl

/-- **From 8.3.** The driver prints the two fields as a plain name. -/
theorem fat12_8_3toNormal_padded (h : PlainParts base ext) :
    fat12_8_3toNormal (padded 8 base ++ padded 3 ext) = spelled base ext := by
  have hlen := length_padded h.base_le
  have hbase : ((padded 8 base ++ padded 3 ext).take 8).takeWhile (· ≠ spaceByte) = base := by
    rw [List.take_left' hlen, takeWhile_padded h.space_notMem_base]
  have hext : (((padded 8 base ++ padded 3 ext).drop 8).take 3).takeWhile (· ≠ spaceByte) = ext := by
    rw [List.drop_left' hlen, List.take_of_length_le (length_padded h.ext_le).le,
      takeWhile_padded h.space_notMem_ext]
  have hfirst : (padded 8 base ++ padded 3 ext)[8]? = some spaceByte ↔ ext = [] := by
    rw [List.getElem?_append_right hlen.le, hlen]
    cases ext with
    | nil => exact ⟨fun _ => rfl, fun _ => rfl⟩
    | cons c ext =>
      have hc : c ≠ spaceByte := fun hc => h.space_notMem_ext (hc ▸ List.mem_cons_self)
      simp [padded, hc]
  simp only [fat12_8_3toNormal, hbase, hext, hfirst]
  rfl

theorem PlainName.printed (h : PlainName name) : fat12_8_3toNormal (fat12NormalTo8_3 name) = name := by
  obtain ⟨base, ext, hparts, rfl⟩ := h
  rw [fat12NormalTo8_3_spelled hparts.plainParts, fat12_8_3toNormal_padded hparts.plainParts]

theorem WellFormed83.plainName {bytes : List Byte} (h : WellFormed83 bytes) :
    PlainName (fat12_8_3toNormal bytes) := by
  obtain ⟨base, ext, hparts, rfl⟩ := h
  exact ⟨base, ext, hparts, fat12_8_3toNormal_padded hparts.plainParts⟩

/-- The first byte of a well-formed name is a character. -/
theorem WellFormed83.first_byte {bytes : List Byte} (h : WellFormed83 bytes) :
    byteOf bytes 0 ≠ 0x00 ∧ byteOf bytes 0 ≠ 0xE5 ∧ byteOf bytes 0 ≠ spaceByte.toNat := by
  obtain ⟨base, ext, hparts, rfl⟩ := h
  obtain ⟨c, tail, rfl⟩ := List.exists_cons_of_length_pos hparts.base_pos
  have hplain := hparts.plain c List.mem_cons_self
  have hdeleted : c ≠ 0xE5 := fun hc => hparts.notDeleted (congrArg some hc)
  have hbyte : byteOf (padded 8 (c :: tail) ++ padded 3 ext) 0 = c.toNat := rfl
  rw [hbyte]
  exact ⟨fun hc => hplain.2.2 (UInt8.toNat_inj.mp hc), fun hc => hdeleted (UInt8.toNat_inj.mp hc),
    fun hc => hplain.1 (UInt8.toNat_inj.mp hc)⟩

/-! ## Opening -/

/-- The entry that is opened is one that is compared equal. -/
theorem fat12Open_take {fs : Fat12Volume} {env : LookupEnv} {node : Fat12Node}
    (hdev : ReadsBlocks fs.blockDev) (hlen : env.dirEntries.length = 512)
    (hopen : fat12Open (some (rootOf fs)) (some name) env = some node) :
    node.dirEntry.take 11 = fat12NormalTo8_3 name := by
  obtain ⟨hvnode, hinode⟩ := fat12Open_allocated hopen
  rw [LookupEnv.eq_of_allocated hvnode hinode] at hopen
  have hname : name ≠ [] := by
    rintro rfl
    cases hopen
  obtain ⟨k, e, ⟨⟨-, e', he', -, -, htake⟩, -⟩, he, rfl⟩ := fat12Open_first hdev hlen hname hopen
  rw [he] at he'
  exact Option.some.inj he' ▸ htake

/-- Names that are compared alike open the same entry. -/
theorem fat12Open_same {fs : Fat12Volume} {name' dirEntries : List Byte} {node node' : Fat12Node}
    (hdev : ReadsBlocks fs.blockDev) (hlen : dirEntries.length = 512) (hname : name ≠ [])
    (hname' : name' ≠ []) (halike : fat12NormalTo8_3 name' = fat12NormalTo8_3 name)
    (hopen : fat12Open (some (rootOf fs)) (some name) ⟨dirEntries, true, true⟩ = some node)
    (hopen' : fat12Open (some (rootOf fs)) (some name') ⟨dirEntries, true, true⟩ = some node') :
    node'.dirEntry = node.dirEntry ∧ node'.dirSector = node.dirSector ∧
      node'.dirOffset = node.dirOffset := by
  obtain ⟨k, e, hk, he, rfl⟩ := fat12Open_first hdev hlen hname hopen
  obtain ⟨k', e', hk', he', rfl⟩ := fat12Open_first hdev hlen hname' hopen'
  rw [halike] at hk'
  obtain rfl : k' = k :=
    Option.some.inj ((findListed_eq_some_iff.mpr hk').symm.trans (findListed_eq_some_iff.mpr hk))
  obtain rfl : e' = e := Option.some.inj (he'.symm.trans he)
  exact ⟨rfl, rfl, rfl⟩

/-- A directory sector with one entry of the given name. -/
def sectorNamed (fatName : List Byte) : List Byte := fatName ++ List.replicate (512 - fatName.length) 0

/-- A volume with that directory. -/
def volumeNamed (fatName : List Byte) : Fat12Volume :=
  mountedVolume (some (.holding 8 fun _ => sectorNamed fatName)) sampleBoot sampleFat

theorem sectorNamed_length (name : List Byte) :
    (sectorNamed (fat12NormalTo8_3 name)).length = 512 := by
  simp only [sectorNamed, List.length_append, List.length_replicate, length_fat12NormalTo8_3]

theorem volumeNamed_reads (name : List Byte) :
    ReadsBlocks (volumeNamed (fat12NormalTo8_3 name)).blockDev :=
  readsBlocks_holding fun _ => sectorNamed_length name

/-- On that volume the name opens the entry. -/
theorem fat12Open_volumeNamed (hwell : WellFormed83 (fat12NormalTo8_3 name)) :
    ∃ node, fat12Open (some (rootOf (volumeNamed (fat12NormalTo8_3 name)))) (some name)
      ⟨List.replicate 512 0, true, true⟩ = some node := by
  have hlen := length_fat12NormalTo8_3 name
  have hname : name ≠ [] := by
    rintro rfl
    exact hwell.first_byte.2.2 rfl
  refine (fat12Open_isSome_iff (volumeNamed_reads name) List.length_replicate hname).mpr
    ⟨0, ?_⟩
  have hfirst : ∃ entries, rootEntries (volumeNamed (fat12NormalTo8_3 name)) (List.replicate 512 0) =
      (fat12NormalTo8_3 name ++ List.replicate 21 0) :: entries := by
    have hread : sectorBuffers (volumeNamed (fat12NormalTo8_3 name)) 0 1 (List.replicate 512 0) =
        [sectorNamed (fat12NormalTo8_3 name)] :=
      sectorBuffers_holding (fun _ => sectorNamed_length name) List.length_replicate (by decide)
        (by decide)
    have hroot : rootEntries (volumeNamed (fat12NormalTo8_3 name)) (List.replicate 512 0) =
        entriesOf [sectorNamed (fat12NormalTo8_3 name)] := congrArg entriesOf hread
    refine ⟨_, hroot.trans (List.cons_eq_cons.mpr ⟨?_, rfl⟩)⟩
    show (sectorNamed (fat12NormalTo8_3 name)).take 32 = _
    rw [sectorNamed, hlen, List.take_append, List.take_of_length_le (by omega), hlen,
      List.take_replicate]
    rfl
  obtain ⟨entries, hentries⟩ := hfirst
  rw [hentries]
  obtain ⟨hzero, hdeleted, -⟩ := hwell.first_byte
  have hattributes : byteOf (fat12NormalTo8_3 name ++ List.replicate 21 0) 11 = 0 := by
    rw [byteOf, List.getD_eq_getElem?_getD, List.getElem?_append_right hlen.le, hlen]
    rfl
  have hbyte : byteOf (fat12NormalTo8_3 name ++ List.replicate 21 0) 0 =
      byteOf (fat12NormalTo8_3 name) 0 := by
    rw [byteOf, List.getD_eq_getElem?_getD, List.getElem?_append_left (by omega),
      ← List.getD_eq_getElem?_getD, byteOf]
  refine listed_cons_zero.mpr ⟨hbyte ▸ hzero, hbyte ▸ hdeleted, ?_, List.take_left' hlen⟩
  rw [hattributes]
  rfl

/-- **Names and entries.** Whatever the directory holds, a name opens no well-formed
entry but the one that is printed like it, exactly when the name is plain or no
well-formed entry is compared equal to it. Two such names open different entries. -/
theorem fat12Open_printed_iff (name : List Byte) :
    (OpensPrinted name ↔ Unambiguous name) ∧
      ∀ name', Unambiguous name → Unambiguous name' → ∀ fs env env' node node',
        ReadsBlocks fs.blockDev → env.dirEntries.length = 512 → env'.dirEntries.length = 512 →
        fat12Open (some (rootOf fs)) (some name) env = some node →
        fat12Open (some (rootOf fs)) (some name') env' = some node' →
        WellFormed83 (node.dirEntry.take 11) → node'.dirEntry = node.dirEntry → name' = name := by
  have hprinted : ∀ {name}, Unambiguous name → OpensPrinted name := by
    intro name hname fs env node hdev hlen hopen hwell
    rw [fat12Open_take hdev hlen hopen] at hwell ⊢
    rcases hname with hplain | hill
    · exact hplain.printed.symm
    · exact absurd hwell hill
  refine ⟨⟨fun hopens => ?_, hprinted⟩, ?_⟩
  · by_contra hnot
    obtain ⟨hplain, hwell⟩ := not_or.mp hnot
    have hwell := not_not.mp hwell
    obtain ⟨node, hopen⟩ := fat12Open_volumeNamed hwell
    have hdev := volumeNamed_reads name
    have htake := fat12Open_take hdev List.length_replicate hopen
    have hname := hopens _ _ node hdev List.length_replicate hopen (htake ▸ hwell)
    rw [htake] at hname
    exact hplain (hname ▸ hwell.plainName)
  · intro name' hname hname' fs env env' node node' hdev hlen hlen' hopen hopen' hwell hsame
    have heq := hprinted hname fs env node hdev hlen hopen hwell
    have heq' := hprinted hname' fs env' node' hdev hlen' hopen' (hsame ▸ hwell)
    rw [heq', hsame, ← heq]

/-- The name `A.B` opens the file that is printed `A.B`. -/
theorem fat12Open_printed_iff_plain : OpensPrinted [0x41, 0x2E, 0x42] :=
  (fat12Open_printed_iff _).1.mpr (.inl ⟨[0x41], [0x42], by decide, rfl⟩)

/-- `ABCDEFGHI` and `ABCDEFGH.I` open the same file, and it is printed like the second. -/
theorem long_base_opens :
    let long : List Byte := [0x41, 0x42, 0x43, 0x44, 0x45, 0x46, 0x47, 0x48, 0x49]
    let short : List Byte := [0x41, 0x42, 0x43, 0x44, 0x45, 0x46, 0x47, 0x48, 0x2E, 0x49]
    ∃ fs node node', ReadsBlocks fs.blockDev ∧
      fat12Open (some (rootOf fs)) (some long) ⟨List.replicate 512 0, true, true⟩ = some node ∧
      fat12Open (some (rootOf fs)) (some short) ⟨List.replicate 512 0, true, true⟩ = some node' ∧
      node'.dirEntry = node.dirEntry ∧ node'.dirSector = node.dirSector ∧
      node'.dirOffset = node.dirOffset ∧ WellFormed83 (node.dirEntry.take 11) ∧
      fat12_8_3toNormal (node.dirEntry.take 11) = short ∧ ¬OpensPrinted long := by
  intro long short
  have halike : fat12NormalTo8_3 short = fat12NormalTo8_3 long := by decide
  have hwell : WellFormed83 (fat12NormalTo8_3 long) :=
    ⟨long.take 8, long.drop 8, by decide, by decide⟩
  have hdev := volumeNamed_reads long
  obtain ⟨node, hopen⟩ := fat12Open_volumeNamed hwell
  have hwell' : WellFormed83 (fat12NormalTo8_3 short) := halike ▸ hwell
  obtain ⟨node', hopen'⟩ := fat12Open_volumeNamed hwell'
  rw [halike] at hopen'
  have htake := fat12Open_take hdev List.length_replicate hopen
  obtain ⟨hentry, hsector, hoffset⟩ := fat12Open_same hdev List.length_replicate (by decide)
    (by decide) halike hopen hopen'
  have hshort : fat12_8_3toNormal (node.dirEntry.take 11) = short := by
    rw [htake]
    decide
  refine ⟨_, node, node', hdev, hopen, hopen', hentry, hsector, hoffset, htake ▸ hwell, hshort,
    fun hopens => ?_⟩
  have hlong := hopens _ _ node hdev List.length_replicate hopen (htake ▸ hwell)
  rw [hshort] at hlong
  exact absurd hlong (by decide)

end Leenix
