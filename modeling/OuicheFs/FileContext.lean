import OuicheFs.Lib.ByteBuffer
import OuicheFs.IndexEntry
import OuicheFs.Allocator

/-!
# State of a call on one open file

A file operation works on the mounted superblock, on the buffers of the volume
(`sb_bread` hands out one shared buffer per block) and on one in-memory inode.
Whether a disk read or a user copy succeeds is not up to the file system: the
outcomes are read off two streams, so every pattern of failures is a value of
them. `touched` only records the index slots that are accessed.
-/
namespace FileContext

open ByteBuffer IndexEntry Allocator

def blockSize : Nat := 4096
def maxFilesize : Nat := 4194304
def indexSlots : Nat := 1024

def errIo : Int := 5
def errInval : Int := 22
def errFault : Int := 14
def errFbig : Int := 27
def errNospc : Int := 28
def errNodata : Int := 61

def oRdonly : Nat := 0
def oWronly : Nat := 1
def oRdwr : Nat := 2
def oTrunc : Nat := 512
def oAppend : Nat := 1024

structure Timespec where
  tvSec : Int
  tvNsec : Int

/-- The in-memory inode together with the index block number of its container. -/
structure Inode where
  iMode : Nat
  iUid : Nat
  iGid : Nat
  iSize : Nat
  iCtime : Timespec
  iAtime : Timespec
  iMtime : Timespec
  iBlocks : Nat
  iNlink : Nat
  indexBlock : Nat

/-- Outcomes of the calls a file operation makes outside the file system.
`bread n` tells whether the n-th `sb_bread` from now on succeeds; `ucopy n` is
`none` when the n-th user copy is complete and `some k` when only k bytes
arrive. `uninit` is what uninitialised locals hold. `overlap dst dstOff srcOff
len old k` is the k-th byte that a `memcpy` within the block `dst`, holding
`old`, leaves at its destination when the two ranges overlap: its contract
promises nothing there. -/
structure Io where
  bread : Nat → Bool
  ucopy : Nat → Option Nat
  uninit : Nat × Nat
  now : Timespec
  overlap : Nat → Nat → Nat → Nat → Buffer → Nat → Byte

def Io.NoReadFails (io : Io) : Prop := ∀ n, io.bread n = true

def Io.NoCopyFails (io : Io) : Prop := ∀ n, io.ucopy n = none

/-- In `io'` some of the outcomes of reads in `io` have been used up. -/
def Io.Later (io io' : Io) : Prop := ∃ k, ∀ n, io'.bread n = io.bread (n + k)

theorem Io.Later.refl (io : Io) : io.Later io := ⟨0, fun _ => rfl⟩

theorem Io.Later.trans {io io' io'' : Io} (h : io.Later io') (h' : io'.Later io'') :
    io.Later io'' := by
  obtain ⟨k, hk⟩ := h
  obtain ⟨k', hk'⟩ := h'
  refine ⟨k' + k, fun n => ?_⟩
  rw [hk', hk, Nat.add_assoc]

/-- Where every read has the same outcome, this stays so. -/
theorem Io.Later.const {io io' : Io} (h : io.Later io') {v : Bool} (all : ∀ n, io.bread n = v)
    (n : Nat) : io'.bread n = v := by
  obtain ⟨k, hk⟩ := h
  rw [hk, all]

/-- Whatever overlapping ranges hold, `memcpy` leaves the byte `a` in all of the destination. -/
def Io.Smears (io : Io) (a : Byte) : Prop :=
  ∀ dst dstOff srcOff len old k, io.overlap dst dstOff srcOff len old k = a

/-- Nothing fails, and overlapping ranges are copied as `memmove` copies them. -/
def calmIo : Io :=
  ⟨fun _ => true, fun _ => none, (0, 0), ⟨0, 0⟩, fun _ _ srcOff _ old k => old (srcOff + k)⟩

structure Ctx where
  sbi : SbInfo
  disk : Store
  node : Inode
  io : Io
  touched : List Int

namespace Ctx

/-- The outcome of a disk read has been used up. -/
def popBread (s : Ctx) : Ctx :=
  { s with io := { s.io with bread := fun n => s.io.bread (n + 1) } }

def popUcopy (s : Ctx) : Ctx :=
  { s with io := { s.io with ucopy := fun n => s.io.ucopy (n + 1) } }

def touch (s : Ctx) (i : Int) : Ctx := { s with touched := i :: s.touched }

/-- `index->blocks[i]`, read from the buffer of the index block. -/
def blocks (s : Ctx) (i : Nat) : Word := le32 (s.disk s.node.indexBlock) (4 * i)

def setBlocks (s : Ctx) (i : Nat) (e : Word) : Ctx :=
  { s with
    disk := s.disk.set s.node.indexBlock
      (putLe32 (s.disk s.node.indexBlock) (4 * i) e)
    touched := (i : Int) :: s.touched }

/-- The bytes that `memcpy` puts into its destination. -/
def copied (s : Ctx) (dst dstOff src srcOff len : Nat) : Nat → Byte :=
  if dst = src ∧ dstOff < srcOff + len ∧ srcOff < dstOff + len then
    s.io.overlap dst dstOff srcOff len (s.disk src)
  else fun k => s.disk src (srcOff + k)

def memcpy (s : Ctx) (dst dstOff src srcOff len : Nat) : Ctx :=
  { s with
    disk := s.disk.set dst (blit (s.disk dst) dstOff len (s.copied dst dstOff src srcOff len)) }

theorem copied_of_ne (s : Ctx) {dst src : Nat} (dstOff srcOff len : Nat) (ne : dst ≠ src) :
    s.copied dst dstOff src srcOff len = fun k => s.disk src (srcOff + k) :=
  if_neg fun h => ne h.1

def memset (s : Ctx) (dst dstOff len : Nat) : Ctx :=
  { s with disk := s.disk.set dst (fill (s.disk dst) dstOff len 0) }

/-- `copy_from_user` into a data block. A copy that faults after k bytes zeroes
the rest of the destination and reports failure. -/
def copyFromUser (s : Ctx) (dst dstOff len : Nat) (src : Nat → Byte) : Ctx × Bool :=
  match s.io.ucopy 0 with
  | none => ({ s.popUcopy with disk := s.disk.set dst (blit (s.disk dst) dstOff len src) }, true)
  | some k =>
    let arrived := fun i => if i < k then src i else 0
    ({ s.popUcopy with disk := s.disk.set dst (blit (s.disk dst) dstOff len arrived) }, false)

/-- The entries of the data blocks of the file: the first `i_blocks - 1`. -/
def entries (s : Ctx) : List Word := (List.range (s.node.iBlocks - 1)).map s.blocks

end Ctx

/-- The recorded bytes of one entry. -/
def entryBytes (disk : Store) (e : Word) : List Byte :=
  slice (disk (getBlockNumber e)) 0 (getBlockSize e)

def bytesOf (disk : Store) (es : List Word) : List Byte := es.flatMap (entryBytes disk)

def total (es : List Word) : Nat := (es.map getBlockSize).sum

/-- The logical content of an insert-mode file. -/
def Ctx.content (s : Ctx) : List Byte := bytesOf s.disk s.entries

end FileContext
