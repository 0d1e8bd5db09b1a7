import OuicheFs.File

/-!
# read.c and the file information of ioctl.c

The readers walk the data blocks from the cursor on. `ouichefsRead` takes the
words of the index as plain block numbers; `ouichefsLightRead` decodes them and
stops at a block that has no byte left behind the cursor. `ouichefsReadCached`
takes the bytes from the page cache.
-/
namespace OuicheRead

open CInt ByteBuffer IndexEntry Allocator FileContext OuicheFile

structure ReadResult where
  ctx : Ctx
  ret : Int
  pos : Nat
  data : List Byte

def readFlags (fFlags : Nat) : Bool := fFlags &&& oWronly = 0

/-- Bytes behind a pointer `off` away from the start of a buffer. What precedes
the buffer is not part of the volume and reads as `before`. -/
def peek (before : Nat → Byte) (b : Buffer) (off : Int) (len : Nat) : List Byte :=
  (List.range len).map fun (k : Nat) =>
    if 0 ≤ off + (k : Int) then b (off + k).toNat else before (-(off + k)).toNat

/-- The copy loop of `ouichefs_light_read`; the first argument counts the data
blocks from `logical_block_index` on. -/
def lightReadLoop (before : Nat → Byte) : Nat → Ctx → Nat → Int → Nat → Ctx × List Byte
  | 0, s, _, _, _ => (s, [])
  | n + 1, s, lbi, lp, remaining =>
    if remaining = 0 then (s, []) else
    let s := s.touch lbi
    let bno := s.blocks lbi
    if s.io.bread 0 = false then (s.popBread, []) else
    let s := s.popBread
    let available := u64 ((getBlockSize bno : Int) - lp)
    if available = 0 then (s, []) else
    let len := min available remaining
    if s.io.ucopy 0 ≠ none then (s.popUcopy, []) else
    let rest := lightReadLoop before n s.popUcopy (lbi + 1) 0 (remaining - len)
    (rest.1, peek before (s.disk (getBlockNumber bno)) lp len ++ rest.2)

def ouichefsLightRead (before : Nat → Byte) (s : Ctx) (fFlags size pos : Nat) : ReadResult :=
  if readFlags fFlags = false then ⟨s, -errInval, pos, []⟩ else
  if s.io.bread 0 = false then ⟨s.popBread, 0, pos, []⟩ else
  let s := s.popBread
  let nbBlocks := i32 ((s.node.iBlocks : Int) - 1)
  match findBlockPos pos s.blocks nbBlocks with
  | none => ⟨s, 0, pos, []⟩
  | some (lbi, lp) =>
    let r := lightReadLoop before (nbBlocks - lbi).toNat s lbi lp size
    ⟨r.1, r.2.length, pos + r.2.length, r.2⟩

/-- The copy loop of `ouichefs_read`. A huge position narrows to a negative
`logical_block_index`. -/
def readLoop (before : Nat → Byte) (nbBlocks lastBlockSize : Int) :
    Nat → Ctx → Int → Int → Nat → Ctx × List Byte
  | 0, s, _, _, _ => (s, [])
  | n + 1, s, lbi, lp, remaining =>
    if remaining = 0 then (s, []) else
    let s := s.touch lbi
    let bno := if 0 ≤ lbi then (s.blocks lbi.toNat).toNat
      else (le32 before (4 * (-lbi).toNat)).toNat
    if s.io.bread 0 = false then (s.popBread, []) else
    let s := s.popBread
    let available := if lbi = nbBlocks - 1 then u64 (lastBlockSize - lp)
      else u64 ((blockSize : Int) - lp)
    if available = 0 then (s, []) else
    let len := min available remaining
    if s.io.ucopy 0 ≠ none then (s.popUcopy, []) else
    let rest := readLoop before nbBlocks lastBlockSize n s.popUcopy (lbi + 1) 0
      (remaining - len)
    (rest.1, peek before (s.disk bno) lp len ++ rest.2)

def ouichefsRead (before : Nat → Byte) (s : Ctx) (fFlags size pos : Nat) : ReadResult :=
  if readFlags fFlags = false then ⟨s, -errInval, pos, []⟩ else
  if s.io.bread 0 = false then ⟨s.popBread, 0, pos, []⟩ else
  let s := s.popBread
  let lastBlockSize : Nat :=
    if s.node.iSize % blockSize = 0 ∧ s.node.iSize ≠ 0 then blockSize
    else s.node.iSize % blockSize
  let nbBlocks := i32 ((s.node.iBlocks : Int) - 1)
  let lbi := i32 (pos / blockSize : Nat)
  let r := readLoop before nbBlocks lastBlockSize (nbBlocks - lbi).toNat s lbi
    (pos % blockSize : Nat) size
  ⟨r.1, r.2.length, pos + r.2.length, r.2⟩

/-! ## Reading through the page cache -/

/-- The result of a call that is given the user buffer; `buff` is the buffer
afterwards. -/
structure CachedResult where
  ctx : Ctx
  ret : Int
  pos : Nat
  buff : Buffer

/-- The copy loop of `ouichefs_read_cached`. `page i` is what
`read_mapping_page` returns for the page `i`. Every copy goes to the start of
the user buffer. A negative length is no valid user range. -/
def cachedReadLoop (before : Nat → Byte) (page : Nat → Option Buffer) :
    Nat → Ctx → Nat → Int → Int → Buffer → Ctx × Int × Buffer
  | 0, s, _, _, remaining, buff => (s, remaining, buff)
  | n + 1, s, lbi, lp, remaining, buff =>
    if remaining = 0 then (s, remaining, buff) else
    match page lbi with
    | none => (s, remaining, buff)
    | some bytes =>
      let s := s.touch lbi
      let available := (getBlockSize (s.blocks lbi) : Int) - lp
      if available ≤ 0 then (s, remaining, buff) else
      let len := min available remaining
      if len < 0 ∨ s.io.ucopy 0 ≠ none then (s.popUcopy, remaining, buff) else
      let chunk := peek before bytes lp len.toNat
      cachedReadLoop before page n s.popUcopy (lbi + 1) 0 (remaining - len)
        (blit buff 0 len.toNat (fun k => chunk.getD k 0))

def ouichefsReadCached (before : Nat → Byte) (page : Nat → Option Buffer) (s : Ctx)
    (fFlags size pos : Nat) (buff : Buffer) : CachedResult :=
  if readFlags fFlags = false then ⟨s, -errInval, pos, buff⟩ else
  let remaining := i32 size
  let r :=
    if s.io.bread 0 = false then (s.popBread, remaining, buff) else
    let s := s.popBread
    let nbBlocks := i32 ((s.node.iBlocks : Int) - 1)
    match findBlockPos pos s.blocks nbBlocks with
    | none => (s, remaining, buff)
    | some (lbi, lp) =>
      cachedReadLoop before page (nbBlocks - lbi).toNat s lbi lp remaining buff
  let readen := u64 ((size : Int) - r.2.1)
  ⟨r.1, readen, pos + readen, r.2.2⟩

/-! ## File information -/

structure FileInfo where
  wasted : Nat
  nbBlocks : Nat

/-- The sum of the unused bytes of `n` slots from `i` on, as a `uint32_t`. -/
def wastedLoop (blocks : Nat → Word) : Nat → Nat → Nat → Nat
  | 0, _, totalWasted => totalWasted
  | n + 1, i, totalWasted =>
    let wasted := blockSize - getBlockSize (blocks i)
    wastedLoop blocks n (i + 1) (u32 ((totalWasted + wasted : Nat) : Int))

/-- The values `ouichefs_ioctl_file_info` hands to the user. -/
def ouichefsIoctlFileInfo (s : Ctx) : Except Int FileInfo :=
  if s.io.ucopy 0 ≠ none then .error (-errFault) else
  if s.io.bread 0 = false then .error (-errFault) else
  let n := u64 ((s.node.iBlocks : Int) - 1)
  if s.io.ucopy 1 ≠ none then .error (-errFault) else
  .ok ⟨wastedLoop s.blocks n 0 0, n⟩

end OuicheRead
