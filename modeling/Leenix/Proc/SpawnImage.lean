import Leenix.Mm.Sharing
import Leenix.Proc.Coherence
import Leenix.Proc.ElfImage
import Leenix.Proc.Privilege

/-!
# The image of a spawned process

`process_spawn` loads a file into the directory of the process that it makes, while
the directory of its caller stays active: regions are allocated in the one, and bytes
are stored through the other.

- `processSpawn_returned`: the address spaces after a spawn are those that `elf_load`
  left, and the new process has the directory it was given.
- `elfLoadSegsLog_empty`: segments without bytes only allocate.
- `elfLoadSegsLog_elsewhere`: where the caller has all of the user's memory mapped, the
  new directory's own pages keep what their frames held before.
- `processSpawn_apart_iff`: a spawn loads into the new process and only there, for every
  caller, exactly when the file has nothing to load.
-/

namespace Leenix

namespace Kernel

variable {P : Platform} {s s' s₁ : Kernel} {p t : Ptr}

/-! ## The address spaces after a spawn -/

/-- The address spaces and the directories of the processes are the same. -/
structure SpacesKept (s s' : Kernel) : Prop where
  vm : s'.vm = s.vm
  dirs : s'.dirOf = s.dirOf

theorem SpacesKept.trans (h : SpacesKept s s₁) (h' : SpacesKept s₁ s') : SpacesKept s s' :=
  ⟨h'.vm.trans h.vm, h'.dirs.trans h.dirs⟩

theorem SpacesKept.of_eq (hvm : s'.vm = s.vm) (hprocs : s'.procs = s.procs) : SpacesKept s s' :=
  ⟨hvm, by simp only [dirOf, hprocs]⟩

theorem SpacesKept.of_stores (h : Stores s s') : SpacesKept s s' := by
  obtain ⟨hprocs, -, hvm⟩ := h.same
  exact .of_eq hvm hprocs

theorem SpacesKept.updateProcess {f : Process → Process} (h : s.updateProcess p f = some s')
    (hf : ∀ pr, (f pr).dir = pr.dir) : SpacesKept s s' := by
  obtain ⟨pr, hp, rfl⟩ := Option.map_eq_some_iff.mp h
  refine ⟨rfl, ?_⟩
  show proj Process.dir (s.procs.insert p (f pr)) = s.dirOf
  rw [proj_insert, hf]
  exact Function.update_eq_iff.mpr ⟨by simp [dirOf, proj, hp], fun _ _ => rfl⟩

theorem SpacesKept.threadCreate {entry arg stack : Nat} {thread r : Option Ptr}
    (h : s.threadCreate P p entry arg thread stack = some (r, s')) : SpacesKept s s' := by
  obtain ⟨t, rfl, ⟨-, -, rfl⟩ | ⟨-, -, pr, hp, rfl⟩⟩ := threadCreate_eq_some h
  · exact .of_eq rfl rfl
  · have hhead : SpacesKept s
        { s with procs := s.procs.insert p { pr with threads := some t } } :=
      .updateProcess (f := fun pr => { pr with threads := some t })
        (Option.map_eq_some_iff.mpr ⟨pr, hp, rfl⟩) fun _ => rfl
    exact hhead.trans ⟨rfl, rfl⟩

/-- A spawn that returns a pid: the new process has the new directory, and the address
spaces are as `elf_load` left them. -/
theorem processSpawn_returned {openFile : List Byte → Option File} {filename : List Byte}
    {alloc : Alloc} {junk : StackJunk} {r : Int}
    (h : s.processSpawn P openFile filename alloc junk = some (r, s')) (hr : r ≠ -1) :
    ∃ p d vm vm₁ e, alloc.process = some p ∧ P.vmm.createAddressSpace s.vm = (some d, vm) ∧
      vm.copyEntries P.vmm.kerneldir d SharedIndex = some vm₁ ∧
      elfLoad P.vmm vm₁ (openFile filename) (some d) junk = some (0, some e, s'.vm) ∧
      s'.dirOf p = some (some d) := by
  obtain ⟨p, s₁, pr, result, entry, vm, hp, hs₁, hpr, hload, hcases⟩ := processSpawn_cases h
  obtain ⟨d, vm₀, vm₁, hcreate, hcopy, rfl⟩ := processCreate_eq_some hs₁
  obtain rfl := Option.some.inj ((Finmap.lookup_insert _).symm.trans hpr)
  rcases hcases with ⟨-, hfail, -⟩ |
    ⟨rfl, e, t, s₂, s₃, pr', rfl, hthread, hupdate, hpost, -, -⟩
  · exact absurd hfail hr
  have hkept := ((SpacesKept.threadCreate hthread).trans
    (.updateProcess hupdate fun _ => rfl)).trans (.of_stores (schedulerPost_stores hpost))
  refine ⟨p, d, vm₀, vm₁, e, hp, hcreate, hcopy, ?_, ?_⟩
  · rw [hkept.vm]
    exact hload
  · rw [hkept.dirs]
    simp [dirOf, proj]

end Kernel

/-! ## Segments without bytes -/

section Empty

variable {V : Vmm} {content : List Byte} {vm : Vm} {d : Ptr} {phdr : ElfPhdr} {i j : Nat}

/-- The segment has no bytes, and its region has no page below 4 MB. -/
def ElfPhdr.Harmless (phdr : ElfPhdr) : Prop :=
  phdr.pMemsz = 0 ∧ (phdr.pVaddr % pageSize = 0 ∨ 0x400000 ≤ phdr.pVaddr)

/-- A region of a user segment has user entries. -/
theorem ElfPhdr.Valid.entry_lt (h : phdr.Valid content)
    (hR : Vm.RegionPage phdr.regionStart phdr.regionSize i j) : i < Vm.userEntries := by
  obtain ⟨-, -, hend⟩ := phdr.region_eq h.user
  exact Vm.entry_lt_of_covers hend hR.2

theorem ElfPhdr.Harmless.entry_ne_zero (h : phdr.Harmless) (hvalid : phdr.Valid content)
    (hR : Vm.RegionPage phdr.regionStart phdr.regionSize i j) : i ≠ 0 := by
  obtain ⟨hempty, hplace⟩ := h
  obtain ⟨hj, hlo, hhi⟩ := hR
  obtain ⟨hend, -, -⟩ := phdr.region_eq hvalid.user
  have huser := hvalid.user
  rw [hend] at hhi
  simp only [regionStart, pageAlignUp, pageAlignDwn, u32, pageSize, kernelBase] at *
  omega

/-- A segment without bytes is a request and nothing else. -/
theorem elfLoadSegLog_empty (content : List Byte) (hfile : phdr.pFilesz ≤ phdr.pMemsz)
    (hempty : phdr.pMemsz = 0) {granted : Bool} {vm₁ : Vm}
    (hregion : V.allocRegion vm d phdr.regionStart phdr.regionSize segFlags = (granted, vm₁)) :
    ∃ events file, elfLoadSegLog V vm (File.ofContent content) (some d) phdr =
      (events, some (if granted then 0 else -1, file, vm₁)) := by
  obtain ⟨n, offset, hread, -⟩ := vfsRead_contentAt content phdr.pOffset phdr.pVaddr phdr.pFilesz
  have hread : vfsRead { File.ofContent content with offset := phdr.pOffset } (phdr.pVaddr = 0)
      phdr.pFilesz = _ := hread
  have hbytes : readBytes content phdr.pOffset phdr.pVaddr phdr.pFilesz = [] := by
    rw [readBytes, show phdr.pFilesz = 0 by omega]
    simp
  have hzero : ¬phdr.pFilesz < phdr.pMemsz := by omega
  cases granted with
  | false => exact ⟨_, _, by simp only [elfLoadSegLog, hregion]; rfl⟩
  | true =>
    refine ⟨[.request d phdr.regionStart phdr.regionSize true, .store phdr.pVaddr 0],
      File.contentAt content offset, ?_⟩
    simp only [elfLoadSegLog, hregion, hread, hbytes, hzero, if_false, Vm.storeBytes,
      Option.bind_eq_bind, Option.bind_some, Option.pure_def]
    rfl

/-- **Empty segments.** They are requested one after the other, and nothing is stored. -/
theorem elfLoadSegsLog_empty (hV : V.Contract) {phdrs : List ElfPhdr}
    (hvalid : ∀ phdr ∈ phdrs, phdr.Valid content) (hempty : ∀ phdr ∈ phdrs, phdr.pMemsz = 0)
    (vm : Vm) :
    ∃ events r vm', elfLoadSegsLog V content (some d) phdrs vm = (events, some (r, vm')) ∧
      vm.AllocEffect vm' d (fun i j =>
        ∃ phdr ∈ phdrs, Vm.RegionPage phdr.regionStart phdr.regionSize i j) ∧
      (V.AlwaysAllocates → vm.dirs.lookup d ≠ none → r = 0 ∧ ∀ phdr ∈ phdrs, ∀ a,
        phdr.regionStart ≤ a → a < phdr.regionStart + phdr.regionSize →
          vm'.frameOf d a ≠ none) := by
  induction phdrs generalizing vm with
  | nil => exact ⟨[], 0, vm, rfl, .refl vm d _, fun _ _ => ⟨rfl, by simp⟩⟩
  | cons phdr phdrs ih =>
    rcases hregion : V.allocRegion vm d phdr.regionStart phdr.regionSize segFlags with
      ⟨granted, vm₁⟩
    obtain ⟨events, file, hseg⟩ := elfLoadSegLog_empty content
      (hvalid phdr List.mem_cons_self).filesz_le (hempty phdr List.mem_cons_self) hregion
    have heffect := hV.alloc _ _ _ _ _ _ _ hregion
    have hfirst : vm.AllocEffect vm₁ d (fun i j =>
        ∃ phdr' ∈ phdr :: phdrs, Vm.RegionPage phdr'.regionStart phdr'.regionSize i j) :=
      heffect.mono fun i j hR => ⟨phdr, List.mem_cons_self, hR⟩
    cases granted with
    | false =>
      refine ⟨events, -1, vm₁, ?_, hfirst, fun hgrant hlive => ?_⟩
      · simp only [elfLoadSegsLog, hseg, Bool.false_eq_true, if_false, if_true]
      · have hgranted := hgrant vm d phdr.regionStart phdr.regionSize segFlags hlive
        rw [hregion] at hgranted
        cases hgranted
    | true =>
      obtain ⟨events', r, vm', hsegs, hrest, hall⟩ := ih
        (fun q hq => hvalid q (List.mem_cons_of_mem phdr hq))
        (fun q hq => hempty q (List.mem_cons_of_mem phdr hq)) vm₁
      refine ⟨events ++ events', r, vm', ?_, hfirst.trans (hrest.mono ?_),
        fun hgrant hlive => ?_⟩
      · simp only [elfLoadSegsLog, hseg, hsegs, if_true]
        rfl
      · rintro i j ⟨q, hq, hR⟩
        exact ⟨q, List.mem_cons_of_mem phdr hq, hR⟩
      · obtain ⟨hr, hmapped⟩ := hall hgrant (heffect.live hlive)
        refine ⟨hr, fun q hq a hlo hhi => ?_⟩
        rcases List.mem_cons.mp hq with rfl | hq
        · -- the pages of the first segment stay mapped
          obtain ⟨f, hf⟩ := Option.ne_none_iff_exists'.mp
            (hV.mapped _ _ _ _ _ _ hregion q.regionStart_aligned a hlo hhi)
          exact fun hnone => Option.some_ne_none f ((hrest.page_mono hf).symm.trans hnone)
        · exact hmapped q hq a hlo hhi

end Empty

/-! ## Stores through another directory -/

namespace Vm

/-- No user address is mapped to the frame through `k`. -/
def Outside (m : Vm) (k : Ptr) (f : Frame) : Prop := ∀ a, a < kernelBase → m.frameOf k a ≠ some f

/-- Directory `d` is a process's, while `k` is active and maps all of the user's memory:
the frames that `k` does not map hold the byte `b` all over, and the pages that `d` has
for itself have such frames. -/
structure Elsewhere (m : Vm) (k d : Ptr) (b : Byte) : Prop where
  loadable : m.Loadable k
  process : m.ProcessDir k d
  mapped : ∀ a, a < kernelBase → m.frameOf k a ≠ none
  kept : ∀ f, m.Outside k f → ∀ o, m.phys f o = b
  fresh : ∀ a f, 0x400000 ≤ a → a < kernelBase → m.frameOf d a = some f → m.Outside k f

variable {m m' : Vm} {k d : Ptr} {b : Byte} {R : Nat → Nat → Prop}

theorem outside_congr (h : ∀ a, a < kernelBase → m'.frameOf k a = m.frameOf k a) (f : Frame) :
    m'.Outside k f ↔ m.Outside k f :=
  forall₂_congr fun a ha => by rw [h a ha]

theorem Elsewhere.entry_zero (h : m.Elsewhere k d b) : m.tableOf k 0 ≠ none := by
  intro hnone
  refine h.mapped 0 (by decide) ?_
  rw [frameOf, show dirIndex 0 = 0 from rfl, hnone, Option.bind_none]

/-- Below 4 MB, `d` sees what `k` sees. Above, it sees the byte `b`. -/
theorem Elsewhere.byteAt (h : m.Elsewhere k d b) {a : Nat} {c : Byte} (ha : a < kernelBase)
    (hc : m.byteAt d a = some c) : c = b ∨ m.byteAt k a = some c := by
  obtain ⟨f, hf, hphys⟩ := byteAt_eq_some.mp hc
  by_cases hlow : a < 0x400000
  · refine .inr (byteAt_eq_some.mpr ⟨f, ?_, hphys⟩)
    have hzero : dirIndex a = 0 := by
      simp only [dirIndex]
      omega
    rw [frameOf_eq_page, hzero] at hf ⊢
    rw [← h.process.page_shared h.entry_zero, hf]
  · exact .inl (hphys ▸ h.kept f (h.fresh a f (by omega) ha hf) _)

/-- Stores through `k`. -/
theorem Elsewhere.stored (h : m.Elsewhere k d b) (hmaps : m.SameMaps m')
    (hphys : ∀ f, m.Outside k f → m'.phys f = m.phys f) : m'.Elsewhere k d b where
  loadable := hmaps.loadable h.loadable
  process := h.process.congr hmaps.dirs
  mapped a ha := by
    rw [hmaps.frameOf]
    exact h.mapped a ha
  kept f hf o := by
    have hf := (outside_congr (fun a _ => hmaps.frameOf k a) f).mp hf
    rw [hphys f hf, h.kept f hf o]
  fresh a f hlo hhi hf := by
    rw [hmaps.frameOf] at hf
    exact (outside_congr (fun a _ => hmaps.frameOf k a) f).mpr (h.fresh a f hlo hhi hf)

/-- An allocation of user pages in `d` that writes no frame. -/
theorem Elsewhere.allocated (h : m.Elsewhere k d b) (halloc : m.AllocEffect m' d R)
    (hphys : m'.phys = m.phys) (hR : ∀ i j, R i j → i < userEntries ∧ j < 1024) :
    m'.Elsewhere k d b := by
  have hpages : ∀ i j, m'.page k i j = m.page k i j := by
    refine fun i j => halloc.page_other h.process.ne.symm (fun i' hi' => ?_) i
    obtain ⟨huser, hj⟩ := hR i' j hi'
    by_cases hzero : i' = 0
    · -- the pages of the shared table are there
      subst hzero
      refine .inr ?_
      rw [h.process.page_shared h.entry_zero, ← m.frameOf_page k 0 hj]
      refine h.mapped _ ?_
      simp only [pageSize, kernelBase]
      omega
    · exact .inl (h.process.own i' huser fun h0 => absurd h0 hzero)
  have hframes : ∀ a, a < kernelBase → m'.frameOf k a = m.frameOf k a := fun a _ => hpages _ _
  have hentries : ∀ i, m'.tableOf k i = m.tableOf k i :=
    tableOf_congr (halloc.other k h.process.ne.symm)
  refine ⟨⟨?_, halloc.active.trans h.loadable.active,
      h.loadable.unaliased.congr hentries fun i j _ => hpages i j⟩,
    h.process.alloc halloc h.process.ne, fun a ha => ?_, fun f hf o => ?_,
    fun a f hlo hhi hf => ?_⟩
  · rw [halloc.other k h.process.ne.symm]
    exact h.loadable.live
  · rw [hframes a ha]
    exact h.mapped a ha
  · rw [hphys, h.kept f ((outside_congr hframes f).mp hf) o]
  · refine (outside_congr hframes f).mpr ?_
    by_cases huse : m.InUse f
    · obtain ⟨t, ht, hj⟩ := page_eq_some.mp hf
      obtain ⟨ht, hj⟩ := halloc.page_old huse ht hj
      exact h.fresh a f hlo hhi (page_eq_some.mpr ⟨t, ht, hj⟩)
    · intro a' _ hf'
      obtain ⟨t, ht, hj⟩ := page_eq_some.mp hf'
      exact huse (inUse_of_page ht hj)

end Vm

section Elsewhere

variable (kd : Ptr) {content : List Byte} {vm : Vm} {k d : Ptr} {b : Byte} {phdr : ElfPhdr}

/-- A segment is loaded into `d`, and its bytes are stored through `k`. -/
theorem elfLoadSegLog_elsewhere (h : vm.Elsewhere k d b) (hvalid : phdr.Valid content) :
    ∃ events file vm', elfLoadSegLog (.reference kd) vm (File.ofContent content) (some d) phdr =
      (events, some (0, file, vm')) ∧ vm'.Elsewhere k d b := by
  have hgranted := Vmm.reference_alwaysAllocates kd vm d phdr.regionStart phdr.regionSize
    segFlags h.process.live
  have hphys := Vmm.reference_phys kd vm d phdr.regionStart phdr.regionSize segFlags
  rcases hregion : (Vmm.reference kd).allocRegion vm d phdr.regionStart phdr.regionSize segFlags
    with ⟨r, vm₀⟩
  rw [hregion] at hgranted hphys
  obtain rfl : r = true := hgranted
  have heffect := (Vmm.reference_contract kd).alloc _ _ _ _ _ _ _ hregion
  have hvm₀ : vm₀.Elsewhere k d b :=
    h.allocated heffect hphys fun i j hR => ⟨hvalid.entry_lt hR, hR.1⟩
  have huser := hvalid.user
  obtain ⟨stores, file, vm', hload, -, hmaps, hother, -⟩ :=
    elfLoadSegLog_granted hvalid hregion hvm₀.loadable fun a _ hhi => hvm₀.mapped a (by omega)
  exact ⟨_, file, vm', hload, hvm₀.stored hmaps hother⟩

/-- **Segments.** They are loaded into `d`, and all of their bytes are stored through `k`. -/
theorem elfLoadSegsLog_elsewhere {phdrs : List ElfPhdr} (h : vm.Elsewhere k d b)
    (hvalid : ∀ phdr ∈ phdrs, phdr.Valid content) :
    ∃ events vm', elfLoadSegsLog (.reference kd) content (some d) phdrs vm =
      (events, some (0, vm')) ∧ vm'.Elsewhere k d b := by
  induction phdrs generalizing vm with
  | nil => exact ⟨[], vm, rfl, h⟩
  | cons phdr phdrs ih =>
    obtain ⟨events, file, vm₁, hseg, hvm₁⟩ :=
      elfLoadSegLog_elsewhere kd h (hvalid phdr List.mem_cons_self)
    obtain ⟨events', vm', hsegs, hvm'⟩ :=
      ih hvm₁ fun q hq => hvalid q (List.mem_cons_of_mem phdr hq)
    refine ⟨events ++ events', vm', ?_, hvm'⟩
    simp only [elfLoadSegsLog, hseg, hsegs]
    rfl

end Elsewhere

/-! ## Spawning -/

namespace Kernel

/-- Paging is set up: the kernel directory is live, and so is the active one, which is the
caller's. -/
def Paged (P : Platform) (s : Kernel) : Prop :=
  s.vm.dirs.lookup P.vmm.kerneldir ≠ none ∧ s.vm.dirs.lookup s.vm.active ≠ none

/-- A spawn of the file that returns a pid has built its image in the new process, and
the caller finds its translations and the bytes of its user memory as they were. -/
def SpawnsApart (P : Platform) (content : List Byte) (s : Kernel) : Prop :=
  ∀ openFile filename alloc junk r s', openFile filename = some (File.ofContent content) →
    s.processSpawn P openFile filename alloc junk = some (r, s') → r ≠ -1 →
    (∃ p d, alloc.process = some p ∧ s'.dirOf p = some (some d) ∧
      ∀ phdr ∈ elfLoads content, ∀ a, phdr.pVaddr ≤ a → a < phdr.pVaddr + phdr.pMemsz →
        s'.vm.byteAt d a = phdr.imageByte content a) ∧
    (∀ va, s'.vm.translate s.vm.active va = s.vm.translate s.vm.active va) ∧
    ∀ va, va < kernelBase → s'.vm.byteAt s.vm.active va = s.vm.byteAt s.vm.active va

variable {P : Platform} {s s' : Kernel} {content : List Byte}

/-- A file without bytes to load is spawned apart, if its regions lie above 4 MB. -/
theorem spawnsApart_of_harmless (hV : P.vmm.Contract) (hvalid : ElfValid content)
    (hharmless : ∀ phdr ∈ elfLoads content, phdr.Harmless) (hpaged : s.Paged P) :
    SpawnsApart P content s := by
  intro openFile filename alloc junk r s' hopen hspawn hr
  obtain ⟨p, d, vm, vm₁, e, hp, hcreate, hcopy, hload, hdir⟩ := processSpawn_returned hspawn hr
  have hcopied := Vm.CopyEffect.of_create (hV.create _ _ _ hcreate) hcopy hpaged.1
  have hne : s.vm.active ≠ d := fun hd => hpaged.2 (hd ▸ hcopied.fresh)
  have hprocess : vm₁.ProcessDir P.vmm.kerneldir d :=
    hcopied.processDir hpaged.1 (.inl rfl) fun i hi hI => hI.eq_zero hi
  obtain ⟨events, result, vm₂, hsegs, heffect, -⟩ := elfLoadSegsLog_empty (d := d) hV
    hvalid.segments (fun phdr hphdr => (hharmless phdr hphdr).1) vm₁
  rw [hopen, elfLoad_eq hvalid junk hsegs] at hload
  obtain rfl : vm₂ = s'.vm := by
    by_cases hfail : result = -1
    · simp [hfail] at hload
    · simp only [hfail, if_false, Option.some.injEq, Prod.mk.injEq] at hload
      exact hload.2.2
  have hpages : ∀ i j, s'.vm.page s.vm.active i j = s.vm.page s.vm.active i j := by
    intro i j
    rw [heffect.page_other hne fun i' hR => ?_, hcopied.page_other hne]
    obtain ⟨phdr, hphdr, hR⟩ := hR
    have hsegment := hvalid.segments phdr hphdr
    exact .inl (hprocess.own i' (hsegment.entry_lt hR) fun hzero =>
      absurd hzero ((hharmless phdr hphdr).entry_ne_zero hsegment hR))
  refine ⟨⟨p, d, hp, hdir, fun phdr hphdr a hlo hhi => ?_⟩,
    fun va => Vm.translate_congr (hpages _ _), fun va _ => ?_⟩
  · have hempty := (hharmless phdr hphdr).1
    omega
  · refine Vm.byteAt_congr (hpages _ _) fun f hf => ?_
    have hpage := (hcopied.page_other hne _ _).trans hf
    obtain ⟨t, ht, hj⟩ := Vm.page_eq_some.mp hf
    obtain ⟨t₁, ht₁, hj₁⟩ := Vm.page_eq_some.mp hpage
    rw [heffect.phys f (Vm.inUse_of_page ht₁ hj₁), hcopied.phys f (Vm.inUse_of_page ht hj)]

/-! ## Callers that lose memory -/

end Kernel

namespace Vm

/-- One directory, 256, which is active, and frames that hold the byte `b` all over. -/
def oneDir (entries : PageEntries) (tables : Frame → PageEntries) (b : Byte) (bound : Frame)
    (hbound : 256 < bound) (hentries : ∀ i t, entries i = some t → t < bound)
    (htables : ∀ t j f, tables t j = some f → f < bound) : Vm where
  dirs := Finmap.singleton 256 entries
  tables := tables
  phys _ _ := b
  active := 256
  bound := bound
  dirs_lt d pd h := by
    obtain ⟨rfl, rfl⟩ := eq_of_lookup_singleton h
    exact ⟨hbound, hentries⟩
  tables_lt := htables

/-- All of the user's memory is mapped, each page to a frame of its own. -/
def fullUser (b : Byte) : Vm :=
  oneDir (fun i => if i < 768 then some (1000 + i) else none)
    (fun (t j : Nat) =>
      if 1000 ≤ t ∧ t < 1768 ∧ j < 1024 then some (2000 + (t - 1000) * 1024 + j) else none)
    b 800000 (by decide)
    (fun i t h => by
      split at h
      · obtain rfl := Option.some.inj h
        show (1000 + i : Nat) < 800000
        omega
      · cases h)
    fun t j f h => by
      split at h
      case isTrue hrange =>
        obtain ⟨hfirst, hlast, hj⟩ := hrange
        obtain rfl := Option.some.inj h
        show (2000 + (t - 1000) * 1024 + j : Nat) < 800000
        omega
      case isFalse => cases h

/-- The kernel directory has a table for the first 4 MB, and the table is empty. -/
def emptyTable : Vm :=
  oneDir (fun i => if i = 0 then some 257 else none) (fun _ _ => none) 0 258 (by decide)
    (fun i t h => by
      split at h
      · obtain rfl := Option.some.inj h
        decide
      · cases h)
    fun _ _ _ h => by cases h

theorem fullUser_tableOf (b : Byte) (i : Nat) :
    (fullUser b).tableOf 256 i = if i < 768 then some (1000 + i) else none := by
  simp [tableOf, fullUser, oneDir]

theorem fullUser_page (b : Byte) {i : Nat} (hi : i < 768) (j : Nat) :
    (fullUser b).page 256 i j = if j < 1024 then some (2000 + i * 1024 + j) else none := by
  have hrange : 1000 ≤ 1000 + i ∧ 1000 + i < 1768 := by omega
  rw [page, fullUser_tableOf, if_pos hi]
  simp [fullUser, oneDir, hrange]

theorem fullUser_loadable (b : Byte) : (fullUser b).Loadable 256 := by
  refine ⟨by simp [fullUser, oneDir], rfl, fun i i' t hi hi' ht ht' => ?_,
    fun i j i' j' f hi hi' hf hf' => ?_⟩
  · rw [fullUser_tableOf, if_pos (show i < 768 from hi)] at ht
    rw [fullUser_tableOf, if_pos (show i' < 768 from hi')] at ht'
    have hsame : 1000 + i = 1000 + i' := Option.some.inj (ht.trans ht'.symm)
    omega
  · rw [fullUser_page b hi] at hf
    rw [fullUser_page b hi'] at hf'
    split at hf
    case isFalse => cases hf
    case isTrue hj =>
      split at hf'
      case isFalse => cases hf'
      case isTrue hj' =>
        have hsame : 2000 + i * 1024 + j = 2000 + i' * 1024 + j' :=
          Option.some.inj (hf.trans hf'.symm)
        omega

theorem fullUser_mapped (b : Byte) {a : Nat} (ha : a < kernelBase) :
    (fullUser b).byteAt 256 a = some b := by
  have hpage := fullUser_page b (dirIndex_lt ha) (tableIndex a)
  rw [if_pos (show tableIndex a < 1024 from Nat.mod_lt _ (by decide))] at hpage
  exact byteAt_eq_some.mpr ⟨_, hpage, rfl⟩

variable {M vm : Vm} {k d : Ptr} {b : Byte}

/-- The kernel's entries can be copied into a new directory. -/
theorem newDir_copy (I : Nat → Prop) [DecidablePred I] (hk : M.dirs.lookup k ≠ none) :
    ∃ vm, M.newDir.copyEntries k M.bound I = some vm := by
  have hcreate := (Vmm.reference_contract k).create M M.bound M.newDir rfl
  have hne : k ≠ M.bound := fun h => hk (h ▸ hcreate.fresh)
  refine copyEntries_isSome I ?_ hcreate.live
  rw [hcreate.other k hne]
  exact hk

/-- A new directory next to an active one that maps all of the user's memory. -/
theorem Elsewhere.created (hloadable : M.Loadable k) (hmapped : ∀ a, a < kernelBase →
    M.frameOf k a ≠ none) (hphys : ∀ f o, M.phys f o = b)
    (hcopy : M.newDir.copyEntries k M.bound Kernel.SharedIndex = some vm) :
    vm.Elsewhere k M.bound b := by
  have hcopied := CopyEffect.of_create
    ((Vmm.reference_contract k).create M M.bound M.newDir rfl) hcopy hloadable.live
  have hne := hcopied.ne_kernel hloadable.live
  have hpages : ∀ i j, vm.page k i j = M.page k i j := hcopied.page_other hne.symm
  have hframes : ∀ a, vm.frameOf k a = M.frameOf k a := fun a => hpages _ _
  obtain ⟨-, -, -, -, -, -, hphys', -⟩ := copyEntries_eq_some hcopy
  refine ⟨⟨?_, hcopied.active.trans hloadable.active, hloadable.unaliased.congr
      (tableOf_congr (hcopied.other k hne.symm)) fun i j _ => hpages i j⟩,
    hcopied.processDir hloadable.live (.inl rfl) fun i hi hI => hI.eq_zero hi,
    fun a ha => ?_, fun f _ o => ?_, fun a f hlo hhi hf => ?_⟩
  · rw [hcopied.other k hne.symm]
    exact hloadable.live
  · rw [hframes]
    exact hmapped a ha
  · rw [hphys']
    exact hphys f o
  · -- above 4 MB the new directory is empty
    have hentry : ¬Kernel.SharedIndex (dirIndex a) := by
      simp only [Kernel.SharedIndex, dirIndex, kernelBase] at *
      omega
    rw [frameOf, hcopied.empty _ hentry] at hf
    cases hf

end Vm

namespace Kernel

variable {content : List Byte} {phdr : ElfPhdr}

/-- The sample kernel with other address spaces returns pid 2 from a spawn, if the file
can be loaded. -/
theorem sample_spawns {M vm vm' : Vm} (openFile : List Byte → Option File)
    (filename : List Byte) {junk : StackJunk} {e : Nat}
    (hcopy : M.newDir.copyEntries 256 M.bound SharedIndex = some vm)
    (hload : elfLoad (.reference 256) vm (openFile filename) (some M.bound) junk =
      some (0, some e, vm')) :
    ∃ s', { sample with vm := M }.processSpawn samplePlatform openFile filename
        ⟨some 2, some 2, 4096⟩ junk = some (2, s') ∧
      s'.vm = vm' ∧ s'.dirOf 2 = some (some M.bound) := by
  have hcreate : { sample with vm := M }.processCreate samplePlatform 2 filename
      processPriDefault = some { sample with
        procs := sample.procs.insert 2
          ⟨2, filename.take 31, none, processPriDefault, some M.bound, .ready⟩
        currentPid := 3
        processTable := tableInsert sample.processTable 2
        vm := vm } := by
    show Option.bind (M.newDir.copyEntries 256 M.bound SharedIndex) _ = _
    rw [hcopy]
    rfl
  have hspawn : { sample with vm := M }.processSpawn samplePlatform openFile filename
      ⟨some 2, some 2, 4096⟩ junk = Option.bind ({ sample with vm := M }.processCreate
        samplePlatform 2 filename processPriDefault) _ := rfl
  rw [hspawn, hcreate]
  show ∃ s', Option.bind (elfLoad (.reference 256) vm (openFile filename) (some M.bound) junk) _ =
    some (2, s') ∧ _
  rw [hload]
  exact ⟨_, rfl, rfl, rfl⟩

/-- A file with bytes to load: they go to the caller, or miss the new process. -/
theorem not_spawnsApart_of_bytes (hvalid : ElfValid content) (hphdr : phdr ∈ elfLoads content)
    (hbytes : phdr.pMemsz ≠ 0) :
    ∃ b, ¬SpawnsApart samplePlatform content { sample with vm := .fullUser b } := by
  have hsegment := hvalid.segments phdr hphdr
  have huser := hsegment.user
  obtain ⟨c, hc⟩ := hsegment.imageByte_eq_some (Nat.le_refl phdr.pVaddr)
  -- a caller whose memory holds another byte than the segment's first
  refine ⟨c + 1, fun hapart => ?_⟩
  have hloadable := Vm.fullUser_loadable (c + 1)
  have hmapped : ∀ a, a < kernelBase → (Vm.fullUser (c + 1)).frameOf 256 a ≠ none := by
    intro a ha hnone
    have hbyte := Vm.fullUser_mapped (c + 1) ha
    rw [Vm.byteAt_eq_none.mpr hnone] at hbyte
    cases hbyte
  obtain ⟨vm, hcopy⟩ := Vm.newDir_copy SharedIndex hloadable.live
  have hbefore := Vm.Elsewhere.created hloadable hmapped (fun _ _ => rfl) hcopy
  obtain ⟨events, vm', hsegs, hafter⟩ := elfLoadSegsLog_elsewhere 256 hbefore hvalid.segments
  obtain ⟨s', hspawn, rfl, hdir⟩ := sample_spawns (fun _ => some (.ofContent content)) [] hcopy
    (elfLoad_eq hvalid ⟨[], []⟩ hsegs)
  obtain ⟨⟨p, d, hp, hd, himage⟩, -, hkept⟩ := hapart _ _ _ _ _ s' rfl hspawn (by decide)
  obtain rfl := Option.some.inj hp
  obtain rfl := Option.some.inj (Option.some.inj (hdir.symm.trans hd))
  have hbyte := himage phdr hphdr phdr.pVaddr (Nat.le_refl _) (by omega)
  rw [hc] at hbyte
  rcases hafter.byteAt (by omega) hbyte with heq | hcaller
  · exact byte_succ_ne c heq.symm
  · have hsame := hkept phdr.pVaddr (by omega)
    have hold := Vm.fullUser_mapped (c + 1) (show phdr.pVaddr < kernelBase by omega)
    exact byte_succ_ne c (Option.some.inj ((hold.symm.trans hsame.symm).trans hcaller))

/-- A file with nothing to load, and a region below 4 MB: the caller gets the page. -/
theorem not_spawnsApart_of_page (hvalid : ElfValid content)
    (hempty : ∀ phdr ∈ elfLoads content, phdr.pMemsz = 0) (hphdr : phdr ∈ elfLoads content)
    (hinside : phdr.pVaddr % pageSize ≠ 0) (hlow : phdr.pVaddr < 0x400000) :
    ¬SpawnsApart samplePlatform content { sample with vm := .emptyTable } := by
  intro hapart
  have hlive : Vm.emptyTable.dirs.lookup 256 ≠ none := by decide
  obtain ⟨vm, hcopy⟩ := Vm.newDir_copy SharedIndex hlive
  have hcopied := Vm.CopyEffect.of_create
    ((Vmm.reference_contract 256).create Vm.emptyTable _ _ rfl) hcopy hlive
  have hprocess : vm.ProcessDir 256 Vm.emptyTable.bound :=
    hcopied.processDir hlive (.inl rfl) fun i hi hI => hI.eq_zero hi
  have hne := hcopied.ne_kernel hlive
  obtain ⟨events, r, vm', hsegs, heffect, hall⟩ := elfLoadSegsLog_empty
    (d := Vm.emptyTable.bound) (Vmm.reference_contract 256) hvalid.segments hempty vm
  obtain ⟨rfl, hmapped⟩ := hall (Vmm.reference_alwaysAllocates 256) hcopied.live
  obtain ⟨s', hspawn, rfl, -⟩ := sample_spawns (fun _ => some (.ofContent content)) [] hcopy
    (elfLoad_eq hvalid ⟨[], []⟩ hsegs)
  obtain ⟨-, hsame, -⟩ := hapart _ _ _ _ _ s' rfl hspawn (by decide)
  -- the page of the segment's address is in the table of both directories
  have hregion : phdr.regionStart + phdr.regionSize = phdr.regionStart + pageSize := by
    obtain ⟨hend, -, -⟩ := phdr.region_eq (hvalid.segments phdr hphdr).user
    rw [hend, hempty phdr hphdr]
    simp only [ElfPhdr.regionStart, pageAlignDwn, pageAlignUp, u32, pageSize] at *
    omega
  have hpage := hmapped phdr hphdr phdr.regionStart (Nat.le_refl _) (by
    rw [hregion]
    simp only [pageSize]
    omega)
  have hzero : dirIndex phdr.regionStart = 0 := by
    have hstart := phdr.regionStart_le
    simp only [dirIndex]
    omega
  have hentry : s'.vm.tableOf 256 0 ≠ none := by
    rw [Vm.tableOf_congr (heffect.other 256 hne.symm), Vm.tableOf_congr (hcopied.other 256 hne.symm)]
    decide
  rw [Vm.frameOf_eq_page, hzero,
    (hprocess.alloc heffect hprocess.ne).page_shared hentry] at hpage
  have hbefore : Vm.emptyTable.translate 256 phdr.regionStart = none := by
    have hnone : Vm.emptyTable.page 256 0 (tableIndex phdr.regionStart) = none := rfl
    rw [Vm.translate, Vm.frameOf_eq_page, hzero, hnone, Option.map_none]
  have hafter : s'.vm.translate 256 phdr.regionStart = none :=
    (hsame phdr.regionStart).trans hbefore
  rw [Vm.translate, Vm.frameOf_eq_page, hzero, Option.map_eq_none_iff] at hafter
  exact hpage hafter

/-- **Spawning.** For a valid file, `process_spawn` loads into the new process and only
there, whatever the memory manager and the address space of the caller, if and only if
the file has no bytes to load, and no empty segment that starts inside a page below
4 MB. -/
theorem processSpawn_apart_iff (hvalid : ElfValid content) :
    (∀ P s, P.vmm.Contract → Paged P s → SpawnsApart P content s) ↔
      ∀ phdr ∈ elfLoads content, phdr.Harmless := by
  constructor
  · intro hapart
    have hpaged : ∀ M : Vm, M.dirs.lookup 256 ≠ none → M.active = 256 →
        SpawnsApart samplePlatform content { sample with vm := M } := by
      intro M hlive hactive
      refine hapart samplePlatform _ (Vmm.reference_contract 256) ⟨hlive, ?_⟩
      show M.dirs.lookup M.active ≠ none
      rw [hactive]
      exact hlive
    have hempty : ∀ phdr ∈ elfLoads content, phdr.pMemsz = 0 := by
      intro phdr hphdr
      by_contra hbytes
      obtain ⟨b, hnot⟩ := not_spawnsApart_of_bytes hvalid hphdr hbytes
      exact hnot (hpaged (.fullUser b) (Vm.fullUser_loadable b).live rfl)
    refine fun phdr hphdr => ⟨hempty phdr hphdr, ?_⟩
    by_contra hplace
    obtain ⟨hinside, hlow⟩ := not_or.mp hplace
    exact not_spawnsApart_of_page hvalid hempty hphdr hinside (Nat.not_le.mp hlow)
      (hpaged .emptyTable (by decide) rfl)
  · exact fun hharmless P s hV hpaged => spawnsApart_of_harmless hV hvalid hharmless hpaged

/-- A file with a segment at 4 MB. -/
theorem processSpawn_apart_iff_sample :
    (∀ P s, P.vmm.Contract → Paged P s → SpawnsApart P (sampleElf 0x40) s) ↔
      ∀ phdr ∈ elfLoads (sampleElf 0x40), phdr.Harmless :=
  processSpawn_apart_iff (sampleElf_valid 0x40)

/-- A program at 1 MB, spawned from the kernel: the first byte of the file is at 1 MB in
the kernel's address space, where nothing was mapped. -/
theorem spawned_into_caller : ElfValid (sampleElf 0x10) ∧ Paged samplePlatform sample ∧
    sample.processSpawn samplePlatform (openContent (sampleElf 0x10)) []
      ⟨some 2, some 2, 4096⟩ ⟨[], []⟩ = some (2, spawned (sampleElf 0x10)) ∧
    sample.vm.active = 256 ∧ sample.vm.byteAt 256 0x100000 = none ∧
    (spawned (sampleElf 0x10)).vm.byteAt 256 0x100000 = some 0x7F ∧
    ¬SpawnsApart samplePlatform (sampleElf 0x10) sample := by
  have hspawn : sample.processSpawn samplePlatform (openContent (sampleElf 0x10)) []
      ⟨some 2, some 2, 4096⟩ ⟨[], []⟩ = some (2, spawned (sampleElf 0x10)) := rfl
  have hbefore : sample.vm.byteAt 256 0x100000 = none := by decide
  have hafter : (spawned (sampleElf 0x10)).vm.byteAt 256 0x100000 = some 0x7F := by decide
  have hpaged : Paged samplePlatform sample :=
    ⟨show Finmap.lookup _ _ ≠ none by decide, show Finmap.lookup _ _ ≠ none by decide⟩
  refine ⟨sampleElf_valid 0x10, hpaged, hspawn, rfl, hbefore, hafter, fun hapart => ?_⟩
  obtain ⟨-, -, hkept⟩ := hapart _ _ _ _ _ _ rfl hspawn (by decide)
  have hsame : (spawned (sampleElf 0x10)).vm.byteAt 256 0x100000 = sample.vm.byteAt 256 0x100000 :=
    hkept 0x100000 (by decide)
  rw [hbefore, hafter] at hsame
  cases hsame

end Kernel

end Leenix
