import OuicheFs.File

/-!
# write.c: plain write and write with insertion

Every local of the C functions that is unsigned or narrower than its operands
is converted explicitly. `logical_pos` never exceeds a block size here, because
the position has passed the check against the maximal file size.
-/
namespace OuicheWrite

open CInt ByteBuffer IndexEntry Allocator FileContext OuicheFile

/-- `O_RDONLY` is 0, so the second test never fires. -/
def writeFlags (s : Ctx) (fFlags pos : Nat) : Option Nat :=
  let pos := if fFlags &&& oAppend ≠ 0 then s.node.iSize else pos
  if fFlags &&& oRdonly ≠ 0 then none else some pos

/-- Allocate the unallocated slots among `n` slots from `bli` on. The second
component is set when the allocator ran dry. -/
def reserveEmptyBlocks : Nat → Nat → Ctx → Ctx × Bool
  | _, 0, s => (s, false)
  | bli, n + 1, s =>
    let s := s.touch bli
    if s.blocks bli ≠ 0 then reserveEmptyBlocks (bli + 1) n s else
    let r := getFreeBlock s.sbi
    let s := { s with sbi := r.2 }
    if r.1 = 0 then (s, true) else
    let s := s.setBlocks bli (setBlockNumber (s.blocks bli) r.1)
    let s := s.setBlocks bli (setBlockSize (s.blocks bli) 0)
    reserveEmptyBlocks (bli + 1) n
      { s with node := { s.node with iBlocks := u64 ((s.node.iBlocks : Int) + 1) } }

def spaceAvailable (s : Ctx) (nbAllocs : Nat) : Int :=
  if u64 ((nbAllocs : Int) + s.node.iBlocks - 1) > indexSlots then -errNospc
  else if nbAllocs > s.sbi.nrFreeBlocks then -errNospc
  else 0

structure WriteResult where
  ctx : Ctx
  ret : Int
  pos : Nat

/-! ## Plain write -/

def reserveWriteBlocks (s : Ctx) (nbAllocs : Nat) : Ctx × Bool :=
  let allocStart := (max (i32 s.node.iBlocks - 1) 0).toNat
  reserveEmptyBlocks allocStart nbAllocs s

/-- The copy loop of `ouichefs_write`; the first argument counts the data
blocks from `logical_block_index` on. Returns what is left to write. -/
def writeLoop (buff : List Byte) : Nat → Ctx → Nat → Nat → Nat → Ctx × Nat
  | 0, s, _, _, remaining => (s, remaining)
  | n + 1, s, lbi, lp, remaining =>
    if remaining = 0 then (s, remaining) else
    let s := s.touch lbi
    let bno := (s.blocks lbi).toNat
    if s.io.bread 0 = false then (s.popBread, remaining) else
    let s := s.popBread
    let len := min (blockSize - lp) remaining
    let r := s.copyFromUser bno lp len
      (fun k => buff.getD (buff.length - remaining + k) 0)
    if r.2 = false then (r.1, remaining)
    else writeLoop buff n r.1 (lbi + 1) 0 (remaining - len)

/-- The part of `ouichefs_write` between the space check and `write_end`. -/
def writeBody (s : Ctx) (buff : List Byte) (pos nbAllocs : Nat) : Ctx × Nat :=
  if s.io.bread 0 = false then (s.popBread, buff.length) else
  let r := reserveWriteBlocks s.popBread nbAllocs
  if r.2 = true then (r.1, buff.length) else
  let nbBlocks := i32 ((r.1.node.iBlocks : Int) - 1)
  let lbi := pos / blockSize
  writeLoop buff (nbBlocks - lbi).toNat r.1 lbi (pos % blockSize) buff.length

def ouichefsWrite (s : Ctx) (fFlags : Nat) (buff : List Byte) (pos : Nat) : WriteResult :=
  match writeFlags s fFlags pos with
  | none => ⟨s, -errInval, pos⟩
  | some pos =>
    if pos + buff.length > maxFilesize then ⟨s, -errNospc, pos⟩ else
    let needed := idivCeil (u32 (max (pos + u32 buff.length) s.node.iSize : Nat)) blockSize
    let nbAllocs := (max ((needed : Int) - (i32 s.node.iBlocks - 1)) 0).toNat
    if spaceAvailable s nbAllocs < 0 then ⟨s, -errNospc, pos⟩ else
    let r := writeBody s buff pos nbAllocs
    let s := r.1
    let written := buff.length - r.2
    let s := if pos + written > s.node.iSize then
      { s with node := { s.node with iSize := pos + written } } else s
    let s := if written > 0 then
      { s with node := { s.node with iMtime := s.io.now, iCtime := s.io.now } } else s
    ⟨s, written, pos + written⟩

/-! ## Write with insertion -/

/-- Shift the `n` slots that end at `blockIndex + n - 1` by `nbShift`, last first. -/
def shiftBlocksLoop (blockIndex nbShift : Nat) : Nat → Ctx → Ctx
  | 0, s => s
  | n + 1, s =>
    let bli := blockIndex + n
    let s := s.setBlocks (bli + nbShift) (s.blocks bli)
    shiftBlocksLoop blockIndex nbShift n (s.setBlocks bli 0)

def shiftBlocks (s : Ctx) (blockIndex nbShift lastBli : Nat) : Ctx :=
  shiftBlocksLoop blockIndex nbShift (lastBli + 1 - blockIndex) s

def moveOldContentTo (s : Ctx) (from_ to_ lp : Nat) : Ctx × Int :=
  let s := (s.touch from_).touch to_
  let toCopy := getBlockSize (s.blocks from_) - lp
  let bhFrom := getBlockNumber (s.blocks from_)
  let bhTo := getBlockNumber (s.blocks to_)
  let okFrom := s.io.bread 0
  let s := s.popBread
  let okTo := s.io.bread 0
  let s := s.popBread
  if okFrom = false ∨ okTo = false then (s, -errIo) else
  let s := s.memcpy bhTo 0 bhFrom lp toCopy
  let s := s.memset bhFrom lp toCopy
  let s := s.setBlocks from_ (subBlockSize (s.blocks from_) toCopy)
  let s := s.setBlocks to_ (setBlockSize (s.blocks to_) toCopy)
  (s, 0)

/-- The filling loop, with the last value of `bli`. The first argument bounds
the iterations: `bli` is an `int` and would overflow after as many. -/
def fillLoop (toFill : Nat) : Nat → Ctx → Nat → Nat → Ctx × Nat × Nat
  | 0, s, bli, filled => (s, bli, filled)
  | n + 1, s, bli, filled =>
    if filled < toFill then
      let s := s.touch bli
      let remaining := blockSize - getBlockSize (s.blocks bli)
      let size := min (toFill - filled) remaining
      fillLoop toFill n (s.setBlocks bli (addBlockSize (s.blocks bli) size))
        (bli + 1) (filled + size)
    else (s, bli, filled)

/-- `none` when there is not enough space, else the logical block index and
position of the cursor. -/
def fillToReachPos (s : Ctx) (pos : Nat) : Ctx × Option (Nat × Nat) :=
  let lastBli := (max (i32 s.node.iBlocks - 2) 0).toNat
  let s := s.touch lastBli
  let lastBlockSize := getBlockSize (s.blocks lastBli)
  let availableSize := if s.blocks lastBli = 0 then 0 else blockSize - lastBlockSize
  let toFill := pos - s.node.iSize
  let nbBlocksToFill := idivCeil (toFill - availableSize) blockSize
  if spaceAvailable s nbBlocksToFill < 0 then (s, none) else
  let allocStart := (max (i32 s.node.iBlocks - 1) 0).toNat
  let s := (reserveEmptyBlocks allocStart nbBlocksToFill s).1
  let bli := if availableSize > 0 then allocStart - 1 else allocStart
  let r := fillLoop toFill (2147483648 - bli) s bli 0
  let bli := r.2.1 - 1
  let s := { r.1 with node := { r.1.node with iSize := r.1.node.iSize + r.2.2 } }
  let s := s.touch bli
  if getBlockSize (s.blocks bli) = blockSize then (s, some (bli + 1, 0))
  else (s, some (bli, getBlockSize (s.blocks bli)))

/-- The copy loop of `ouichefs_light_write`. Returns the error code and what is
left to write. -/
def lightWriteLoop (buff : List Byte) : Nat → Ctx → Nat → Nat → Nat → Ctx × Int × Nat
  | 0, s, _, _, remaining => (s, 0, remaining)
  | n + 1, s, lbi, lp, remaining =>
    if remaining = 0 then (s, 0, remaining) else
    let s := s.touch lbi
    let bno := getBlockNumber (s.blocks lbi)
    if s.io.bread 0 = false then (s.popBread, -errIo, remaining) else
    let s := s.popBread
    let available := u64 ((blockSize : Int) - lp)
    if available = 0 then (s, -errNodata, remaining) else
    let len := min available remaining
    let r := s.copyFromUser bno lp len
      (fun k => buff.getD (buff.length - remaining + k) 0)
    if r.2 = false then (r.1, -errIo, remaining) else
    let s := r.1.setBlocks lbi (setBlockSize (r.1.blocks lbi) ((lp : Int) + len))
    lightWriteLoop buff n s (lbi + 1) 0 (remaining - len)

/-- From the computation of the number of blocks needed to `free_bh_index`. -/
def lightWriteInsert (s : Ctx) (buff : List Byte) (lbi lp : Nat)
    (moveOldContent shiftOldContent : Bool) (lastBli : Nat) : Ctx × Int × Nat :=
  let size := buff.length
  let remainingSize := (max ((size : Int) - ((blockSize : Int) - lp)) 0).toNat
  let nbAllocs := idivCeil remainingSize blockSize + moveOldContent.toNat
  let s := s.touch lbi
  let nbAllocs := if s.blocks lbi = 0 then nbAllocs + 1 else nbAllocs
  if spaceAvailable s nbAllocs < 0 then (s, -errNospc, size) else
  let allocIndexStart := if s.blocks lbi = 0 then lbi else lbi + 1
  let s := if shiftOldContent = true ∧ nbAllocs > 0 then
    shiftBlocks s allocIndexStart nbAllocs lastBli else s
  let s := (reserveEmptyBlocks allocIndexStart nbAllocs s).1
  let r := if moveOldContent then moveOldContentTo s lbi (lbi + nbAllocs) lp else (s, 0)
  if r.2 < 0 then (r.1, r.2, size) else
  let nbBlocks := i32 ((r.1.node.iBlocks : Int) - 1)
  lightWriteLoop buff (nbBlocks - lbi).toNat r.1 lbi lp size

/-- From the test of the position to `free_bh_index`. -/
def lightWriteBody (s : Ctx) (buff : List Byte) (pos : Nat) : Ctx × Int × Nat :=
  if pos > s.node.iSize then
    match fillToReachPos s pos with
    | (s, none) => (s, -errNospc, buff.length)
    | (s, some (lbi, lp)) => lightWriteInsert s buff lbi lp false false 0
  else
    let found := findBlockPos pos s.blocks (i32 ((s.node.iBlocks : Int) - 1))
    let lbi := (found.map Prod.fst).getD s.io.uninit.1
    let lp := (found.map (fun p => p.2.toNat)).getD s.io.uninit.2
    let s := { s with touched := (List.range (lbi + 1)).map Int.ofNat ++ s.touched }
    let toCopy := u64 ((getBlockSize (s.blocks lbi) : Int) - lp)
    let lastBli := (max (i32 s.node.iBlocks - 2) 0).toNat
    lightWriteInsert s buff lbi lp (decide (toCopy > 0)) (decide (lbi ≠ lastBli)) lastBli

def ouichefsLightWrite (s : Ctx) (fFlags : Nat) (buff : List Byte) (pos : Nat) :
    WriteResult :=
  match writeFlags s fFlags pos with
  | none => ⟨s, -errInval, pos⟩
  | some pos =>
    if pos + buff.length > maxFilesize then ⟨s, -errNospc, pos⟩ else
    let r := if s.io.bread 0 = false then (s.popBread, -errIo, buff.length)
      else lightWriteBody s.popBread buff pos
    let s := r.1
    let written := buff.length - r.2.2
    let s := if written > 0 then
      { s with node := { s.node with
          iSize := s.node.iSize + written, iMtime := s.io.now, iCtime := s.io.now } } else s
    ⟨s, if r.2.1 = 0 then written else r.2.1, pos + written⟩

end OuicheWrite
