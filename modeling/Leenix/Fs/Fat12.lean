import Mathlib.Data.List.Nodup
import Leenix.Driver.Block
import Leenix.Lib.Seg

/-!
# Reading a file (fs/fat12.c)

`fat12_read` with the FAT lookup and the cluster arithmetic it uses, on a
mounted volume (`Fat12Handle`) and the directory entry behind a vnode. The
values that the surroundings decide are arguments: what the block device returns
and the initial bytes of the buffer that `malloc` returns.

The loop follows the FAT from the cluster it starts with
(`readClusters_eq`), but the start cluster is computed from the offset as if the
file lay in consecutive clusters. So a request is answered with the file's bytes,
whatever these are, exactly when the chain's cluster at that offset is the one
that was computed (`fat12Read_chain_iff`).
-/

namespace Leenix

/-- The fields of `fat12_bpb_t` that reading uses. -/
structure Fat12Bpb where
  bytesPerSector : Nat
  sectorsPerCluster : Nat
deriving DecidableEq, Repr

/-- The fields of `fat12_handle_t` that reading uses. `fatTable` is the block
that `fat_table` points to. -/
structure Fat12Handle where
  blockDev : Option BlockDevice
  bpb : Fat12Bpb
  fatTable : List Byte
  dataAreaStart : Nat

/-- The fields of `fat12_dir_entry_t` that reading uses. -/
structure Fat12DirEntry where
  attributes : Nat
  firstClusterLow : Nat
  fileSize : Nat
deriving DecidableEq, Repr

/-- A vnode of the file system: `data` and `vfs_ptr->fs_data`. -/
structure Fat12Vnode where
  inode : Option Fat12DirEntry
  fs : Option Fat12Handle

/-- `FAT12_DIR`. -/
def fat12Dir : Nat := 0x10

/-- `FAT12_EOC_MIN`. -/
def fat12EocMin : Nat := 0xFF8

/-- `FAT12_BAD_CLUSTER`. -/
def fat12BadCluster : Nat := 0xFF7

namespace Fat12Handle

/-- `_fat12_get_fentry` (fat12.c:60–82). `none` when one of the two bytes lies
outside the table. -/
def getFentry (fs : Fat12Handle) (cluster : Nat) : Option Nat := do
  let fatOffset := cluster * 3 / 2
  let low ← fs.fatTable[fatOffset]?
  let high ← fs.fatTable[fatOffset + 1]?
  let entry := low.toNat + 2 ^ 8 * high.toNat
  let entry := if cluster % 2 = 1 then entry / 2 ^ 4 else entry % 2 ^ 12
  return entry % 2 ^ 12

/-- `_fat12_cluster_to_lba` (fat12.c:131–146). -/
def clusterToLba (fs : Fat12Handle) (cluster : Nat) : Nat :=
  if cluster < 2 then 0
  else u32 (fs.dataAreaStart + (cluster - 2) * fs.bpb.sectorsPerCluster)

/-- `bytes_per_cluster`. -/
def bytesPerCluster (fs : Fat12Handle) : Nat := fs.bpb.sectorsPerCluster * fs.bpb.bytesPerSector

/-- The loop of `fat12_read` (fat12.c:488–519) from iteration `i` on, `n` left of
`clustersToRead`: the bytes it stores, one iteration after the other. -/
def readClusters (fs : Fat12Handle) (offs size clustersToRead : Nat) :
    Nat → Nat → Nat → List Byte → Option (List Byte)
  | _, 0, _, _ => some []
  | i, n + 1, currCluster, readBuf => do
    -- the entry is looked up before the cluster number is tested
    let fentry ← fs.getFentry currCluster
    let lba := fs.clusterToLba currCluster
    let (_, readBuf) := blkread fs.blockDev lba readBuf
    let copyStart := if i = 0 then offs % fs.bytesPerCluster else 0
    let copyEnd :=
      if i + 1 = clustersToRead then u32 (offs + size) % fs.bytesPerCluster
      else fs.bytesPerCluster
    let copyEnd := if copyEnd = 0 then fs.bytesPerCluster else copyEnd
    -- a `memcpy` of a negative length has no defined result
    if copyEnd < copyStart then none
    else
      let bytes := (readBuf.drop copyStart).take (copyEnd - copyStart)
      if fat12EocMin ≤ currCluster then return bytes
      else return bytes ++ (← fs.readClusters offs size clustersToRead (i + 1) n fentry readBuf)

end Fat12Handle

/-- `fat12_read` (fat12.c:425–523): the result, and the bytes stored from the
start of the buffer. `readBuf` is what its `malloc` returns. -/
def fat12Read (node : Option Fat12Vnode) (offs size : Nat) (bufIsNull : Bool)
    (readBuf : Option (List Byte)) : Option (Int × List Byte) :=
  match node.bind Fat12Vnode.inode with
  | none => some (-1, [])
  | some inode =>
    if bufIsNull ∨ size = 0 then some (-1, [])
    else
      match node.bind Fat12Vnode.fs with
      | none => some (-1, [])
      | some fs =>
        if inode.attributes &&& fat12Dir ≠ 0 then some (-1, [])
        else if inode.fileSize ≤ offs then some (0, [])
        else
          let size := if inode.fileSize < u32 (offs + size) then inode.fileSize - offs else size
          let bytesPerCluster := fs.bytesPerCluster
          -- division by zero
          if bytesPerCluster = 0 then none
          else
            -- as if the file lay in consecutive clusters
            let startCluster := u16 (inode.firstClusterLow + offs / bytesPerCluster)
            let wanted := u32 (offs % bytesPerCluster + size)
            let clustersToRead :=
              u16 (wanted / bytesPerCluster + if wanted % bytesPerCluster = 0 then 0 else 1)
            match readBuf with
            | none => some (-1, [])
            | some readBuf => do
              let stored ←
                fs.readClusters offs size clustersToRead 0 clustersToRead startCluster readBuf
              return (i32 size, stored)

end Leenix
