import OuicheFs.FileContext
import OuicheFs.Lib.Loop

/-!
# file.c: block mapping, position search, page cache and open

`ouichefsFileGetBlock` is what the page cache asks for the block behind a page.
`findBlockPos` walks the entries with the number of bytes still to skip. The
position is narrowed to `int` first. `ouichefsWriteEnd` gives back the blocks
behind the end of a file that has become shorter. `ouichefsOpen` releases the
blocks of a file opened with `O_TRUNC`; its loop is bounded only by the first
zero entry.
-/
namespace OuicheFile

open CInt ByteBuffer IndexEntry Allocator FileContext Loop

/-- The return value and the block that `bh_result` is mapped to, if any. -/
def ouichefsFileGetBlock (s : Ctx) (iblock : Nat) (create : Bool) : Ctx × Int × Option Nat :=
  if iblock ≥ indexSlots then (s, -errFbig, none) else
  if s.io.bread 0 = false then (s.popBread, -errIo, none) else
  let s := s.popBread.touch iblock
  if s.blocks iblock = 0 then
    if create = false then (s, 0, none) else
    let r := getFreeBlock s.sbi
    let s := { s with sbi := r.2 }
    if r.1 = 0 then (s, -errNospc, none)
    else (s.setBlocks iblock (setBlockNumber (s.blocks iblock) r.1), 0, some r.1)
  else (s, 0, some (getBlockNumber (s.blocks iblock)))

/-- The search loop. The first argument counts the iterations left until
`current_block` equals `nb_blocks`. -/
def findBlockPosLoop (blocks : Nat → Word) : Nat → Nat → Int → Option (Nat × Int)
  | 0, current, remaining => if remaining = 0 then some (current, remaining) else none
  | n + 1, current, remaining =>
    if remaining = 0 then some (current, remaining) else
    let left := i32 (remaining - getBlockSize (blocks current))
    if left ≤ 0 then some (current, remaining)
    else findBlockPosLoop blocks n (current + 1) left

/-- `none` is the return value 1. `current_block` counts up from 0 until it
equals `nb_blocks` as an `int`, hence `nb_blocks` modulo 2^32 iterations. -/
def findBlockPos (pos : Nat) (blocks : Nat → Word) (nbBlocks : Int) : Option (Nat × Int) :=
  findBlockPosLoop blocks (u32 nbBlocks) 0 (i32 pos)

/-- `i_blocks` for a file of `iSize` bytes: the blocks of its data and its index
block. -/
def blocksOfSize (iSize : Nat) : Nat :=
  if iSize % blockSize ≠ 0 then iSize / blockSize + 1 + 1 else iSize / blockSize + 1

/-- `blockWriteBegin` stands for `block_write_begin`, which asks
`ouichefs_file_get_block` for the block it writes to. -/
def ouichefsWriteBegin (blockWriteBegin : Ctx → Nat → Nat → Ctx × Int) (s : Ctx)
    (pos len : Nat) : Ctx × Int :=
  if pos + len > maxFilesize then (s, -errNospc) else
  let nrAllocs := u32 (max (pos + len) s.node.iSize / blockSize : Nat)
  let held := u64 ((s.node.iBlocks : Int) - 1)
  let nrAllocs := if nrAllocs > held then u32 ((nrAllocs : Int) - held) else 0
  if nrAllocs > s.sbi.nrFreeBlocks then (s, -errNospc) else
  blockWriteBegin s pos len

/-- The loop of `ouichefs_write_end` over the entries behind the end of the file;
the first argument counts the entries left. `put_block` gets the whole word. -/
def dropLoop : Nat → Nat → Ctx → Ctx
  | 0, _, s => s
  | n + 1, i, s =>
    let s := { s with sbi := putBlock s.sbi (s.blocks i).toNat }
    dropLoop n (i + 1) (s.setBlocks i 0)

/-- `genericWriteEnd` of the kernel finishes the write in the page cache: from the
inode, the position, the length and the number of bytes copied it gives the size
of the file and the return value. The latter is compared with `len` as an
unsigned number. -/
def ouichefsWriteEnd (genericWriteEnd : Inode → Nat → Nat → Nat → Nat × Int) (s : Ctx)
    (pos len copied : Nat) : Ctx × Int :=
  let r := genericWriteEnd s.node pos len copied
  let s := { s with node := { s.node with iSize := r.1 } }
  if u32 r.2 < len then (s, r.2) else
  let nrBlocksOld := u32 s.node.iBlocks
  let s := { s with node := { s.node with
    iBlocks := blocksOfSize s.node.iSize, iMtime := s.io.now, iCtime := s.io.now } }
  if nrBlocksOld > s.node.iBlocks then
    if s.io.bread 0 = false then (s.popBread, r.2)
    else (dropLoop (nrBlocksOld - s.node.iBlocks) (s.node.iBlocks - 1) s.popBread, r.2)
  else (s, r.2)

/-- One iteration of the release loop of `ouichefs_open`. -/
def releaseStep (p : Ctx × Nat) : Ctl Ctx (Ctx × Nat) :=
  let s := p.1.touch p.2
  if s.blocks p.2 = 0 then .done s
  else
    let s := { s with sbi := putBlock s.sbi (getBlockNumber (s.blocks p.2)) }
    .next (s.setBlocks p.2 0, p.2 + 1)

def ouichefsOpen (fuel : Nat) (s : Ctx) (fFlags : Nat) : Option (Ctx × Int) :=
  let wronly := fFlags &&& oWronly ≠ 0
  let rdwr := fFlags &&& oRdwr ≠ 0
  let trunc := fFlags &&& oTrunc ≠ 0
  if (wronly ∨ rdwr) ∧ trunc ∧ s.node.iSize ≠ 0 then
    if s.io.bread 0 then
      (iterate releaseStep fuel (s.popBread, 0)).map
        (fun s => ({ s with node := { s.node with iSize := 0, iBlocks := 0 } }, 0))
    else some (s.popBread, -errIo)
  else some (s, 0)

end OuicheFile
