import OuicheFs.Write

/-!
# defrag.c

The first pass moves data to the left and bubbles empty blocks to the end of
the index; its loop has a `continue` without progress in `bli`, so it runs
under fuel. The second pass frees what lies behind the last block in use.
-/
namespace OuicheDefrag

open CInt ByteBuffer IndexEntry Allocator FileContext Loop

/-- The number of bytes moved, or a negative error code. The ranges of the second
`memcpy` may overlap. -/
def moveShiftBlockContentTo (s : Ctx) (from_ to_ lp : Nat) : Ctx × Int :=
  let s := s.touch from_
  let fromLen := getBlockSize (s.blocks from_)
  let toCopy := min fromLen (blockSize - lp)
  if toCopy = 0 then (s, 0) else
  let s := s.touch to_
  let bhFrom := getBlockNumber (s.blocks from_)
  let bhTo := getBlockNumber (s.blocks to_)
  let okFrom := s.io.bread 0
  let s := s.popBread
  let okTo := s.io.bread 0
  let s := s.popBread
  if okFrom = false ∨ okTo = false then (s, -errIo) else
  let s := s.memcpy bhTo lp bhFrom 0 toCopy
  let s := s.setBlocks from_ (subBlockSize (s.blocks from_) toCopy)
  let s := s.setBlocks to_ (addBlockSize (s.blocks to_) toCopy)
  let s := s.memcpy bhFrom 0 bhFrom toCopy (fromLen - toCopy)
  let s := s.memset bhFrom (fromLen - toCopy) toCopy
  (s, toCopy)

def bubbleUpLoop : Nat → Nat → Ctx → Ctx
  | 0, _, s => s
  | n + 1, bli, s =>
    let tmp := s.blocks bli
    let s := s.setBlocks bli (s.blocks (bli + 1))
    bubbleUpLoop n (bli + 1) (s.setBlocks (bli + 1) tmp)

def bubbleUpBlock (s : Ctx) (blockIndex : Nat) (nbBlocks : Int) : Ctx :=
  bubbleUpLoop (nbBlocks - 1 - blockIndex).toNat blockIndex s

structure Pass where
  ctx : Ctx
  bli : Nat
  dataMoved : Nat
  logicalPos : Nat

/-- One iteration of the first pass; it ends with the error code of the pass. -/
def passStep (p : Pass) : Ctl (Pass × Int) Pass :=
  let s := p.ctx
  if p.dataMoved < s.node.iSize ∧ p.bli < u64 ((s.node.iBlocks : Int) - 2) then
    let s := s.touch (p.bli + 1)
    if blockEmpty (s.blocks (p.bli + 1)) then
      .next { p with
        ctx := bubbleUpBlock s (p.bli + 1) (i32 ((s.node.iBlocks : Int) - 1)) }
    else
      let r := moveShiftBlockContentTo s (p.bli + 1) p.bli p.logicalPos
      if r.2 < 0 then .done ({ p with ctx := r.1 }, -errIo) else
      let dataMoved := p.dataMoved + r.2.toNat
      let logicalPos := p.logicalPos + r.2.toNat
      if logicalPos = blockSize then
        let size := getBlockSize (r.1.blocks (p.bli + 1))
        .next ⟨r.1.touch (p.bli + 1), p.bli + 1, dataMoved + size, size⟩
      else .next ⟨r.1, p.bli, dataMoved, logicalPos⟩
  else .done (p, 0)

/-- Free `n` slots from `bli` on. -/
def freeLoop : Nat → Nat → Ctx → Ctx
  | 0, _, s => s
  | n + 1, bli, s =>
    let s := { s with sbi := putBlock s.sbi (getBlockNumber (s.blocks bli)) }
    freeLoop n (bli + 1) (s.setBlocks bli 0)

/-- The second pass and the update of the inode. `bli` counts up as an `int`
that is compared as an unsigned 64-bit number. -/
def secondPass (p : Pass) : Ctx :=
  let s := p.ctx.touch p.bli
  let bli := if blockEmpty (s.blocks p.bli) then p.bli else p.bli + 1
  let blockRemoved := u64 ((s.node.iBlocks : Int) - 1) - bli
  let s := freeLoop blockRemoved bli s
  { s with node := { s.node with
      iBlocks := u64 ((s.node.iBlocks : Int) - blockRemoved)
      iMtime := s.io.now, iCtime := s.io.now } }

def ouichefsDefrag (fuel : Nat) (s : Ctx) : Option (Ctx × Int) :=
  if s.io.bread 0 = false then some (s.popBread, -errIo) else
  let s := s.popBread.touch 0
  let dataMoved := getBlockSize (s.blocks 0)
  (iterate passStep fuel ⟨s, 0, dataMoved, dataMoved⟩).map fun r =>
    if r.2 < 0 then (r.1.ctx, r.2) else (secondPass r.1, 0)

end OuicheDefrag
