import OuicheFs.Mkfs

/-!
# inode.c: inodes and directories of a mounted volume

The state of the mounted file system: the superblock information, the buffers
of the volume and the inode cache. The outcomes of disk reads are given per
place in the code: `bread 0` is the read of the parent directory, `bread 1`
that of the inode store or of the index block, `bread 2` and on what follows.
A result `none` means that an inode of the call does not exist or that the C
code would leave the memory of its buffers.
-/
namespace OuicheInode

open CInt ByteBuffer IndexEntry Allocator FileContext Mkfs

def errNomem : Int := 12
def errPerm : Int := 1
def errExist : Int := 17
def errMlink : Int := 31
def errNametoolong : Int := 36
def errNotempty : Int := 39

def filenameLen : Nat := 28
def maxSubfiles : Nat := 128

def sIfmt : Nat := 0o170000
def sIfdir : Nat := 0o040000
def sIfreg : Nat := 0o100000
def sIsgid : Nat := 0o002000

def sIsdir (mode : Nat) : Bool := mode &&& sIfmt = sIfdir
def sIsreg (mode : Nat) : Bool := mode &&& sIfmt = sIfreg

structure World where
  sbi : SbInfo
  disk : Store
  icache : Nat → Option Inode

/-- Who makes the call, and whether `iget_locked` returns an inode. It needs memory only
for one that is not cached. -/
structure Caller where
  fsuid : Nat
  fsgid : Nat
  memory : Bool

namespace World

/-- Change the in-memory inode `ino`. -/
def modify (w : World) (ino : Nat) (f : Inode → Inode) : World :=
  { w with icache := fun i => if i = ino then (w.icache i).map f else w.icache i }

def cache (w : World) (ino : Nat) (node : Inode) : World :=
  { w with icache := fun i => if i = ino then some node else w.icache i }

def setBlock (w : World) (b : Nat) (block : Buffer) : World :=
  { w with disk := w.disk.set b block }

/-- A call on the open file with the inode `node`. -/
def ctx (w : World) (node : Inode) (io : Io) : Ctx := ⟨w.sbi, w.disk, node, io, []⟩

/-- The state after a call on the open file `ino`. -/
def withCtx (w : World) (ino : Nat) (s : Ctx) : World :=
  { (w.cache ino s.node) with sbi := s.sbi, disk := s.disk }

end World

theorem modify_self {w : World} {ino : Nat} {node : Inode} (f : Inode → Inode)
    (h : w.icache ino = some node) : (w.modify ino f).icache ino = some (f node) := by
  simp [World.modify, h]

theorem modify_of_ne (w : World) {ino j : Nat} (f : Inode → Inode) (h : j ≠ ino) :
    (w.modify ino f).icache j = w.icache j := by
  simp [World.modify, h]

/-- The inode at a place of the inode store. `umode_t` has 16 bits. -/
def inodeAt (b : Buffer) (off : Nat) : Inode where
  iMode := (le32 b off).toNat % 65536
  iUid := (le32 b (off + 4)).toNat
  iGid := (le32 b (off + 8)).toNat
  iSize := (le32 b (off + 12)).toNat
  iCtime := ⟨(le32 b (off + 16)).toNat, (le64 b (off + 24)).toInt⟩
  iAtime := ⟨(le32 b (off + 32)).toNat, (le64 b (off + 40)).toInt⟩
  iMtime := ⟨(le32 b (off + 48)).toNat, (le64 b (off + 56)).toInt⟩
  iBlocks := (le32 b (off + 64)).toNat
  iNlink := (le32 b (off + 68)).toNat
  indexBlock := (le32 b (off + 72)).toNat

def ouichefsIget (w : World) (who : Caller) (okStore : Bool) (ino : Nat) : Except Int World :=
  let inodeBlock := ino / inodesPerBlock + 1
  let inodeShift := ino % inodesPerBlock
  if ino ≥ w.sbi.nrInodes then .error (-errInval) else
  -- a caller without memory fails here whether or not the inode is cached
  if who.memory = false then .error (-errNomem) else
  match w.icache ino with
  | some _ => .ok w
  | none =>
    if okStore = false then .error (-errIo) else
    .ok (w.cache ino (inodeAt (w.disk inodeBlock) (80 * inodeShift)))

/-- `inode_init_owner` of the kernel: a set-group-id directory passes its group
on, and to directories the bit itself. -/
def inodeInitOwner (who : Caller) (dir : Option Inode) (mode : Nat) (node : Inode) : Inode :=
  match dir with
  | some d =>
    if d.iMode &&& sIsgid ≠ 0 then
      { node with
        iUid := who.fsuid, iGid := d.iGid
        iMode := if sIsdir mode then mode ||| sIsgid else mode }
    else { node with iUid := who.fsuid, iGid := who.fsgid, iMode := mode }
  | none => { node with iUid := who.fsuid, iGid := who.fsgid, iMode := mode }

/-- The initialisation of a new inode. -/
def initInode (who : Caller) (dir : Inode) (mode bno : Nat) (now : Timespec) (node : Inode) :
    Inode :=
  let node := inodeInitOwner who (some dir) mode { node with indexBlock := bno }
  let node := { node with iBlocks := 1, iCtime := now, iAtime := now, iMtime := now }
  if sIsdir mode then { node with iSize := blockSize, iNlink := 2 }
  else { node with iSize := 0, iNlink := 1 }

/-- The world with the new inode in the cache and its number, or the world
after the clean-up and an error. -/
def ouichefsNewInode (w : World) (who : Caller) (io : Io) (dir : Inode) (mode : Nat) :
    World × Except Int Nat :=
  if sIsdir mode = false ∧ sIsreg mode = false then (w, .error (-errInval)) else
  if w.sbi.nrFreeInodes = 0 ∨ w.sbi.nrFreeBlocks = 0 then (w, .error (-errNospc)) else
  let r := getFreeInode w.sbi
  let w := { w with sbi := r.2 }
  if r.1 = 0 then (w, .error (-errNospc)) else
  match ouichefsIget w who (io.bread 1) r.1 with
  | .error ret => ({ w with sbi := putInode w.sbi r.1 }, .error ret)
  | .ok w =>
    let b := getFreeBlock w.sbi
    let w := { w with sbi := b.2 }
    if b.1 = 0 then ({ w with sbi := putInode w.sbi r.1 }, .error (-errNospc)) else
    (w.modify r.1 (initInode who dir mode b.1 io.now), .ok r.1)

/-- `dblock->files[i].inode` -/
def fileInode (dblock : Buffer) (i : Nat) : Nat := (le32 dblock (32 * i)).toNat

/-- `strscpy`: at most `size - 1` bytes and a terminating zero. -/
def strscpy (b : Buffer) (off size : Nat) (src : List Byte) : Buffer :=
  let n := min src.length (size - 1)
  blit b off (n + 1) (fun k => if k < n then src.getD k 0 else 0)

/-- The first unused slot; the first argument counts the slots left. -/
def freeSlotLoop (dblock : Buffer) : Nat → Nat → Nat
  | 0, i => i
  | n + 1, i => if fileInode dblock i = 0 then i else freeSlotLoop dblock n (i + 1)

/-- The world after the call and the returned value. -/
def ouichefsCreate (w : World) (who : Caller) (io : Io) (dir : Nat) (name : List Byte)
    (mode : Nat) : Option (World × Int) :=
  (w.icache dir).bind fun d =>
  if name.length > filenameLen then some (w, -errNametoolong) else
  if io.bread 0 = false then some (w, -errIo) else
  if fileInode (w.disk d.indexBlock) (maxSubfiles - 1) ≠ 0 then some (w, -errMlink) else
  match ouichefsNewInode w who io d mode with
  | (w, .error ret) => some (w, ret)
  | (w, .ok ino) =>
    (w.icache ino).bind fun node =>
    if io.bread 2 = false then
      some ({ w with sbi := putInode (putBlock w.sbi node.indexBlock) ino }, -errIo) else
    let w := w.setBlock node.indexBlock (fill (w.disk node.indexBlock) 0 blockSize 0)
    let dblock := w.disk d.indexBlock
    let i := freeSlotLoop dblock maxSubfiles 0
    let dblock := putLe32 dblock (32 * i) (BitVec.ofNat 32 ino)
    let dblock := strscpy dblock (32 * i + 4) filenameLen name
    let w := w.setBlock d.indexBlock dblock
    let w := w.modify dir (fun d => { d with
      iMtime := io.now, iAtime := io.now, iCtime := io.now
      iNlink := if sIsdir mode then u32 (d.iNlink + 1 : Nat) else d.iNlink })
    some (w, 0)

def ouichefsMkdir (w : World) (who : Caller) (io : Io) (dir : Nat) (name : List Byte)
    (mode : Nat) : Option (World × Int) :=
  ouichefsCreate w who io dir name (mode ||| sIfdir)

/-- The search in the parent: the last slot that names the inode, if any, and
the number of subfiles. The first argument counts the slots left. -/
def findSubLoop (dblock : Buffer) (ino : Nat) : Nat → Nat → Option Nat → Option Nat × Nat
  | 0, i, fId => (fId, i)
  | n + 1, i, fId =>
    if fileInode dblock i = ino then findSubLoop dblock ino n (i + 1) (some i)
    else if fileInode dblock i = 0 then (fId, i)
    else findSubLoop dblock ino n (i + 1) fId

/-- Close the gap at `fId` and clear the last slot in use. -/
def removeSub (dblock : Buffer) (fId nrSubs : Nat) : Buffer :=
  let moved := if fId ≠ maxSubfiles - 1 then
    blit dblock (32 * fId) ((nrSubs - fId - 1) * 32) (fun k => dblock (32 * (fId + 1) + k))
    else dblock
  fill moved (32 * (nrSubs - 1)) 32 0

/-- A scrubbed block has no entry. -/
theorem fill_block_zero (b : Buffer) {i : Nat} (h : i < 1024) :
    le32 (fill b 0 blockSize 0) (4 * i) = 0 := by
  have hzero : le32 (fun _ => 0 : Buffer) (4 * i) = 0 := by
    change (0#8 ++ 0#8 ++ 0#8 ++ 0#8 : BitVec 32) = 0
    decide
  rw [← hzero]
  apply le32_congr
  intro k lo hi
  exact blit_inside b _ (by omega) (by simp only [blockSize]; omega)

/-- Give the blocks of the file back and scrub them. The first argument counts
the iterations of `i < inode->i_blocks - 1`. -/
def putBlocksLoop (bno : Nat) (ok : Nat → Bool) : Nat → Nat → World → World
  | 0, _, w => w
  | n + 1, i, w =>
    let e := le32 (w.disk bno) (4 * i)
    if e = 0 then putBlocksLoop bno ok n (i + 1) w else
    let w := { w with sbi := putBlock w.sbi (getBlockNumber e) }
    if ok i = false then putBlocksLoop bno ok n (i + 1) w else
    putBlocksLoop bno ok n (i + 1)
      (w.setBlock (getBlockNumber e) (fill (w.disk (getBlockNumber e)) 0 blockSize 0))

def cleanInode (node : Inode) : Inode :=
  { iMode := 0, iUid := 0, iGid := 0, iSize := 0, iCtime := ⟨0, 0⟩, iAtime := ⟨0, 0⟩,
    iMtime := ⟨0, 0⟩, iBlocks := 0, iNlink := u32 ((node.iNlink : Int) - 1), indexBlock := 0 }

/-- From the read of the index block to the label `clean_inode`. -/
def scrubBlocks (w : World) (io : Io) (inode : Inode) : World :=
  let bno := inode.indexBlock
  if io.bread 1 = false then w else
  let w := if sIsdir inode.iMode then w
    else putBlocksLoop bno (fun i => io.bread (i + 2)) (u64 ((inode.iBlocks : Int) - 1)) 0 w
  w.setBlock bno (fill (w.disk bno) 0 blockSize 0)

theorem putBlocksLoop_icache (bno : Nat) (ok : Nat → Bool) (n : Nat) : ∀ (i : Nat) (w : World),
    (putBlocksLoop bno ok n i w).icache = w.icache := by
  induction n with
  | zero => exact fun _ _ => rfl
  | succ n ih =>
    intro i w
    rw [putBlocksLoop]
    simp only
    split
    · exact ih (i + 1) w
    split
    · exact ih (i + 1) _
    · exact ih (i + 1) _

theorem scrubBlocks_icache (w : World) (io : Io) (inode : Inode) :
    (scrubBlocks w io inode).icache = w.icache := by
  unfold scrubBlocks
  simp only
  split
  · rfl
  split
  · rfl
  · exact putBlocksLoop_icache _ _ _ _ _

/-- The parent `dir` has to name the inode `ino`: without a slot the code would
move memory in front of the block. -/
def ouichefsUnlink (w : World) (io : Io) (dir ino : Nat) : Option (World × Int) :=
  (w.icache dir).bind fun d =>
  (w.icache ino).bind fun inode =>
  if io.bread 0 = false then some (w, -errIo) else
  match findSubLoop (w.disk d.indexBlock) ino maxSubfiles 0 none with
  | (none, _) => none
  | (some fId, nrSubs) =>
    let w := w.setBlock d.indexBlock (removeSub (w.disk d.indexBlock) fId nrSubs)
    let w := w.modify dir (fun d => { d with
      iMtime := io.now, iAtime := io.now, iCtime := io.now
      iNlink := if sIsdir inode.iMode then u32 ((d.iNlink : Int) - 1) else d.iNlink })
    let w := scrubBlocks w io inode
    let w := w.modify ino cleanInode
    some ({ w with sbi := putInode (putBlock w.sbi inode.indexBlock) ino }, 0)

/-- The first read is its own, the others are those of the removal. -/
def ouichefsRmdir (w : World) (io : Io) (dir ino : Nat) : Option (World × Int) :=
  (w.icache ino).bind fun inode =>
  if inode.iNlink > 2 then some (w, -errNotempty) else
  if io.bread 0 = false then some (w, -errIo) else
  if fileInode (w.disk inode.indexBlock) 0 ≠ 0 then some (w, -errNotempty) else
  ouichefsUnlink w { io with bread := fun n => io.bread (n + 1) } dir ino

/-- The bytes of a name in memory. -/
def cString (name : List Byte) : Nat → Byte := fun k => name.getD k 0

/-- `dblock->files[i].filename` -/
def fileName (dblock : Buffer) (i : Nat) : Nat → Byte := fun k => dblock (32 * i + 4 + k)

/-- `strncmp` of the kernel; the first argument is the bound. -/
def strncmp : Nat → (Nat → Byte) → (Nat → Byte) → Int
  | 0, _, _ => 0
  | n + 1, cs, ct =>
    if cs 0 ≠ ct 0 then (if cs 0 < ct 0 then -1 else 1) else
    if cs 0 = 0 then 0 else strncmp n (fun k => cs (k + 1)) (fun k => ct (k + 1))

/-- The inode of the first slot with the name; the first number counts the slots
left. -/
def lookupLoop (dblock : Buffer) (name : List Byte) : Nat → Nat → Option Nat
  | 0, _ => none
  | n + 1, i =>
    if fileInode dblock i = 0 then none else
    if strncmp filenameLen (fileName dblock i) (cString name) = 0 then some (fileInode dblock i)
    else lookupLoop dblock name n (i + 1)

/-- The inode that the dentry is filled with, if any. With an inode that cannot be
read `d_add` would follow an error pointer. -/
def ouichefsLookup (w : World) (who : Caller) (io : Io) (dir : Nat) (name : List Byte) :
    Option (World × Except Int (Option Nat)) :=
  (w.icache dir).bind fun d =>
  if name.length > filenameLen then some (w, .error (-errNametoolong)) else
  if io.bread 0 = false then some (w, .error (-errIo)) else
  match lookupLoop (w.disk d.indexBlock) name maxSubfiles 0 with
  | none => some (w.modify dir (fun d => { d with iAtime := io.now }), .ok none)
  | some ino =>
    match ouichefsIget w who (io.bread 1) ino with
    | .error _ => none
    | .ok w => some (w.modify dir (fun d => { d with iAtime := io.now }), .ok (some ino))

def renameExchange : Nat := 2
def renameWhiteout : Nat := 4

/-- The scan of the new directory: `f_pos` and `new_pos` where they are set, or
`none` if the new name exists. The first number counts the slots left. -/
def renameScan (dblock : Buffer) (same : Bool) (oldName newName : List Byte) :
    Nat → Nat → Option Nat → Option Nat → Option (Option Nat × Option Nat)
  | 0, _, fPos, newPos => some (fPos, newPos)
  | n + 1, i, fPos, newPos =>
    let fPos := if same ∧ strncmp filenameLen (fileName dblock i) (cString oldName) = 0 then some i
      else fPos
    if strncmp filenameLen (fileName dblock i) (cString newName) = 0 then none else
    let newPos := if newPos = none ∧ fileInode dblock i = 0 then some i else newPos
    renameScan dblock same oldName newName n (i + 1) fPos newPos

/-- The search in the old directory has no bound: it ends at an unused slot, or it
leaves the block. -/
def ouichefsRename (w : World) (io : Io) (oldDir : Nat) (oldName : List Byte) (newDir : Nat)
    (newName : List Byte) (src flags : Nat) : Option (World × Int) :=
  (w.icache oldDir).bind fun ciOld =>
  (w.icache newDir).bind fun ciNew =>
  (w.icache src).bind fun inode =>
  if flags &&& (renameExchange ||| renameWhiteout) ≠ 0 then some (w, -errInval) else
  if newName.length > filenameLen then some (w, -errNametoolong) else
  if io.bread 0 = false then some (w, -errIo) else
  let dblock := w.disk ciNew.indexBlock
  match renameScan dblock (newDir = oldDir) oldName newName maxSubfiles 0 none none with
  | none => some (w, -errExist)
  | some (fPos, newPos) =>
    if oldDir = newDir then
      fPos.map fun fPos =>
        (w.setBlock ciNew.indexBlock (strscpy dblock (32 * fPos + 4) filenameLen newName), 0)
    else
    match newPos with
    | none => some (w, -errMlink)
    | some newPos =>
      let dblock := putLe32 dblock (32 * newPos) (BitVec.ofNat 32 src)
      let dblock := strscpy dblock (32 * newPos + 4) filenameLen newName
      let w := w.setBlock ciNew.indexBlock dblock
      let w := w.modify newDir (fun d => { d with
        iAtime := io.now, iCtime := io.now, iMtime := io.now
        iNlink := if sIsdir inode.iMode then u32 (d.iNlink + 1 : Nat) else d.iNlink })
      if io.bread 1 = false then some (w, -errIo) else
      let dblock := w.disk ciOld.indexBlock
      match findSubLoop dblock src maxSubfiles 0 none with
      | (none, _) => none
      | (some fId, nrSubs) =>
        if nrSubs = maxSubfiles then none else
        let w := w.setBlock ciOld.indexBlock (removeSub dblock fId nrSubs)
        let w := w.modify oldDir (fun d => { d with
          iAtime := io.now, iCtime := io.now, iMtime := io.now
          iNlink := if sIsdir inode.iMode then u32 ((d.iNlink : Int) - 1) else d.iNlink })
        some (w, 0)

end OuicheInode
