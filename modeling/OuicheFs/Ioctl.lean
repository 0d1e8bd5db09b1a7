import OuicheFs.PageCache

/-!
# ioctl.c

`ouichefs_ioctl` hands a command to one of three functions. Two of them write to
the kernel log: the texts are lists of bytes here, as `pr_buf` prints bytes of
the file. The structure of the user is a buffer, since a copy may stop within it.
-/
namespace OuicheIoctl

open CInt Bits ByteBuffer IndexEntry Allocator FileContext Layout OuicheFile OuicheDefrag OuicheInode
  OuicheSuper Mkfs FileRun Compaction Ownership VolumeRun Hierarchy WholeVolume FileSystem FileTree
  PageCache Overlap

def ouichefsIoctlMagic : Nat := 78

/-- `_IOC`: the direction, the size, the type and the number of a command. -/
def ioc (dir type nr size : Nat) : Nat := 1073741824 * dir + 65536 * size + 256 * type + nr

def iocType (cmd : Nat) : Nat := cmd / 256 % 256

def sizeofFileInfo : Nat := 12

def ouichefsIocFileInfo : Nat := ioc 3 ouichefsIoctlMagic 1 sizeofFileInfo
def ouichefsIocDefrag : Nat := ioc 0 ouichefsIoctlMagic 2 0
def ouichefsIocFileBlockPrint : Nat := ioc 0 ouichefsIoctlMagic 3 0

theorem commands_ne : ouichefsIocFileInfo ≠ ouichefsIocDefrag ∧
    ouichefsIocFileInfo ≠ ouichefsIocFileBlockPrint ∧
    ouichefsIocDefrag ≠ ouichefsIocFileBlockPrint := by
  decide

def text (s : String) : List Byte := s.toList.map fun c => BitVec.ofNat 8 c.toNat

/-- `%u` and `%llu`. -/
def decimal (n : Nat) : List Byte := (Nat.toDigits 10 n).map fun c => BitVec.ofNat 8 c.toNat

/-- `%d` and `%lld`. -/
def signedDecimal (n : Int) : List Byte :=
  if n < 0 then text "-" ++ decimal n.natAbs else decimal n.natAbs

/-- The kernel's `isprint` on a byte taken as an unsigned character. -/
def isprint (b : Byte) : Bool := (32 ≤ b.toNat && b.toNat ≤ 126) || 160 ≤ b.toNat

def prBuf : Nat → List Byte → List Byte
  | _, [] => []
  | newLine, b :: buf =>
    let lead := if newLine > 100 then text "\n\t\t" else []
    let newLine := if newLine > 100 then 0 else newLine
    lead ++
      if isprint b then b :: prBuf (newLine + 1) buf
      else if b = 0 then text "\\0" ++ prBuf (newLine + 2) buf
      else if b = 10 then text "\\n" ++ prBuf (newLine + 2) buf
      else text "?" ++ prBuf (newLine + 1) buf

/-- `argp` is the structure of the user and `log` what has been printed. -/
structure IoctlResult where
  ctx : Ctx
  ret : Int
  argp : Buffer
  log : List Byte

/-- The loop of `ouichefs_ioctl_file_info`: its text, `total_wasted` and
`nb_partial_block`. The first argument counts the blocks from `i` on. -/
def fileInfoLoop (blocks : Nat → Word) (nb : Nat) : Nat → Nat → Nat → Nat → List Byte × Nat × Nat
  | 0, _, totalWasted, nbPartial => ([], totalWasted, nbPartial)
  | n + 1, i, totalWasted, nbPartial =>
    let block := blocks i
    let size := getBlockSize block
    let wasted := blockSize - size
    let line := decimal (getBlockNumber block) ++ text ":" ++ decimal size ++
      (if i + 1 < nb then text ", " else []) ++ (if i % 10 = 9 then text "\n" else [])
    let rest := fileInfoLoop blocks nb n (i + 1) (u32 ((totalWasted + wasted : Nat) : Int))
      (if wasted ≠ 0 then u32 ((nbPartial + 1 : Nat) : Int) else nbPartial)
    (line ++ rest.1, rest.2)

/-- `user_file_info` with the values of this call. -/
def userFileInfo (argp : Buffer) (wasted nbBlocks : Nat) : Buffer :=
  putLe32 (putLe32 argp 0 (BitVec.ofNat 32 wasted)) 4 (BitVec.ofNat 32 nbBlocks)

def ouichefsIoctlFileInfo (s : Ctx) (argp : Buffer) : IoctlResult :=
  let prefixed := text "ouichefs:ouichefs_ioctl_file_info: "
  if s.io.ucopy 0 ≠ none then
    ⟨s.popUcopy, -errFault, argp, prefixed ++ text "copy_from_user() failed\n"⟩ else
  let s := s.popUcopy
  let display := le32 argp 8 = 0
  let nb := u64 ((s.node.iBlocks : Int) - 1)
  let head := if display then prefixed ++ text "File information:\n\tsize: " ++
    decimal s.node.iSize ++ text "\n\tdata blocks number: " ++ decimal nb ++ text "\n\tblocks: " else []
  if s.io.bread 0 = false then
    ⟨s.popBread, -errFault, argp, head ++ prefixed ++ text "could not read index block\n"⟩ else
  let s := s.popBread
  let r := fileInfoLoop s.blocks nb nb 0 0 0
  let body := if display then (if s.node.iBlocks > 10 then text "\n" else []) ++ r.1 ++
    text "\n\twasted: " ++ signedDecimal (i32 r.2.1) ++ text "\n\tpartial block: " ++
    signedDecimal (i32 r.2.2) ++ text "\n" else []
  let info := userFileInfo argp r.2.1 nb
  match s.io.ucopy 0 with
  | none => ⟨s.popUcopy, 0, info, head ++ body⟩
  | some k => ⟨s.popUcopy, -errFault, fun i => if i < k then info i else argp i,
      head ++ body ++ prefixed ++ text "copy_to_user() failed\n"⟩

/-- What is printed of one block. -/
def blockTitle (i number size : Nat) : List Byte :=
  text "\t" ++ decimal i ++ text ": block with id " ++ decimal number ++ text " and size " ++
    decimal size ++ text ":\n"

def blockLines (i number : Nat) (bytes : List Byte) : List Byte :=
  blockTitle i number bytes.length ++ text "\t\t" ++ prBuf 0 bytes ++ text "\n"

/-- The loop of `ouichefs_ioctl_file_block_print`. -/
def blockPrintLoop : Nat → Nat → Ctx → Ctx × List Byte
  | 0, _, s => (s, [])
  | n + 1, i, s =>
    let s := s.touch i
    let bno := s.blocks i
    if s.io.bread 0 = false then
      (s.popBread, blockTitle i (getBlockNumber bno) (getBlockSize bno)) else
    let s := s.popBread
    let bytes := slice (s.disk (getBlockNumber bno)) 0 (getBlockSize bno)
    let rest := blockPrintLoop n (i + 1) s
    (rest.1, blockLines i (getBlockNumber bno) bytes ++ rest.2)

def printHead (iSize nb : Nat) : List Byte :=
  text "ouichefs:ouichefs_ioctl_file_block_print: file information:\n\n\tsize: " ++ decimal iSize ++
    text "\n\tdata blocks number: " ++ decimal nb ++ text "\n\n"

/-- A data block that cannot be read ends the call, which returns 0 all the same. -/
def ouichefsIoctlFileBlockPrint (s : Ctx) (argp : Buffer) : IoctlResult :=
  let nb := u64 ((s.node.iBlocks : Int) - 1)
  let head := printHead s.node.iSize nb
  if s.io.bread 0 = false then
    ⟨s.popBread, -errFault, argp, head ++
      text "ouichefs:ouichefs_ioctl_file_block_print: could not read index block\n"⟩ else
  let r := blockPrintLoop nb 0 s.popBread
  ⟨r.1, 0, argp, head ++ r.2⟩

def ouichefsIoctlDefrag (fuel : Nat) (s : Ctx) : Option (Ctx × Int) := ouichefsDefrag fuel s

def ouichefsIoctl (fuel : Nat) (s : Ctx) (cmd : Nat) (argp : Buffer) : Option IoctlResult :=
  if iocType cmd ≠ ouichefsIoctlMagic then some ⟨s, -errInval, argp, []⟩ else
  if cmd = ouichefsIocFileInfo then some (ouichefsIoctlFileInfo s argp) else
  if cmd = ouichefsIocDefrag then
    (ouichefsIoctlDefrag fuel s).map fun r => ⟨r.1, r.2, argp, []⟩ else
  if cmd = ouichefsIocFileBlockPrint then some (ouichefsIoctlFileBlockPrint s argp) else
  some ⟨s, -errInval, argp, []⟩

/-- What is printed of the blocks from the number `i` on. -/
def printLines : Nat → List (Nat × List Byte) → List Byte
  | _, [] => []
  | i, (number, bytes) :: blocks => blockLines i number bytes ++ printLines (i + 1) blocks

section

variable {s t : Ctx} {es es' : List Word}

theorem fileInfoLoop_wasted (blocks : Nat → Word) (nb n : Nat) : ∀ i totalWasted nbPartial,
    (fileInfoLoop blocks nb n i totalWasted nbPartial).2.1 =
      OuicheRead.wastedLoop blocks n i totalWasted := by
  induction n with
  | zero => exact fun _ _ _ => rfl
  | succ n ih => exact fun i totalWasted nbPartial => ih (i + 1) _ _

/-- The title of the block `n`, where printing has stopped. -/
def stoppedAt (i : Nat) (blocks : List (Nat × List Byte)) (n : Nat) : List Byte :=
  match blocks[n]? with
  | none => []
  | some (number, bytes) => blockTitle (i + n) number bytes.length

/-- The blocks of a file with their recorded bytes. -/
def blockBytes (s : Ctx) (es : List Word) : List (Nat × List Byte) :=
  es.map fun e => (getBlockNumber e, entryBytes s.disk e)

/-- The loop prints a number of blocks, all of them if no read fails, and the title of
the next one. -/
theorem blockPrintLoop_eq (L : List Word) : ∀ (s : Ctx) (k : Nat),
    (∀ i, i < L.length → s.blocks (k + i) = L[i]?.getD 0) →
    Unmoved s (blockPrintLoop L.length k s).1 ∧ ∃ n, (s.io.NoReadFails → L.length ≤ n) ∧
      (blockPrintLoop L.length k s).2 =
        printLines k ((blockBytes s L).take n) ++ stoppedAt k (blockBytes s L) n := by
  induction L with
  | nil => exact fun s k _ => ⟨⟨rfl, rfl, rfl⟩, 0, fun _ => Nat.le_refl _, rfl⟩
  | cons e L ih =>
    intro s k hblocks
    have he : s.blocks k = e := by simpa using hblocks 0 (by simp)
    have hat : (s.touch k).blocks k = e := he
    have hlen : (entryBytes s.disk e).length = getBlockSize e := slice_length _ _ _
    have hcons : blockBytes s (e :: L) = (getBlockNumber e, entryBytes s.disk e) :: blockBytes s L := rfl
    rw [List.length_cons, blockPrintLoop, hat]
    simp only
    by_cases hread : (s.touch k).io.bread 0 = false
    · rw [if_pos hread]
      refine ⟨⟨rfl, rfl, rfl⟩, 0, fun hall => ?_, ?_⟩
      · exact absurd ((hall 0).symm.trans hread) (by simp)
      · rw [hcons, List.take_zero, stoppedAt, List.getElem?_cons_zero]
        simp only [hlen]
        rfl
    · rw [if_neg hread]
      obtain ⟨hsame, n, hall, hlog⟩ := ih (s.touch k).popBread (k + 1) (by
        intro i hi
        have := hblocks (i + 1) (by simpa using hi)
        change s.blocks (k + 1 + i) = _
        rw [Nat.add_assoc, Nat.add_comm 1 i, this, List.getElem?_cons_succ])
      refine ⟨⟨hsame.sbi, hsame.disk, hsame.node⟩, n + 1, fun hreads => ?_, ?_⟩
      · exact Nat.succ_le_succ (hall fun m => hreads (m + 1))
      · rw [hlog, hcons, List.take_succ_cons, printLines, stoppedAt, stoppedAt,
          List.getElem?_cons_succ, show k + 1 + n = k + (n + 1) by omega, List.append_assoc]
        rfl

theorem FileInv.unmoved (h : FileInv s es) (u : Unmoved s t) : FileInv t es := by
  refine ⟨h.shape.congr (fun i _ => blocks_congr (by rw [u.node]) (by rw [u.disk]) i) (by rw [u.node])
    (by rw [u.node]), ⟨?_, ?_, ?_⟩, ?_, ?_⟩
  · rw [u.sbi]
    exact h.held.ok
  · rw [u.sbi]
    exact h.held.data
  · rw [u.sbi, u.node]
    exact h.held.index
  · rw [u.node]
    exact h.size
  · rw [u.sbi]
    exact h.small

theorem FileInv.nbBlocks (h : FileInv s es) : u64 ((s.node.iBlocks : Int) - 1) = es.length := by
  have hl := h.shape.length_le
  have hib := h.shape.iBlocks
  rw [u64_pred (by omega) (by omega)]
  omega

theorem fileInfo_unmoved (s : Ctx) (argp : Buffer) : Unmoved s (ouichefsIoctlFileInfo s argp).ctx := by
  unfold ouichefsIoctlFileInfo
  split
  · exact ⟨rfl, rfl, rfl⟩
  simp only
  split
  · exact ⟨rfl, rfl, rfl⟩
  split
  · exact ⟨rfl, rfl, rfl⟩
  · exact ⟨rfl, rfl, rfl⟩

/-- With all that it prints, the call succeeds exactly where `OuicheRead` has it succeed,
and hands over the values that are computed there. -/
theorem fileInfo_cases (s : Ctx) (argp : Buffer) :
    (OuicheRead.ouichefsIoctlFileInfo s = .error (-errFault) ∧
      (ouichefsIoctlFileInfo s argp).ret = -errFault) ∨
    ∃ info, OuicheRead.ouichefsIoctlFileInfo s = .ok info ∧
      (ouichefsIoctlFileInfo s argp).ret = 0 ∧
      (ouichefsIoctlFileInfo s argp).argp = userFileInfo argp info.wasted info.nbBlocks ∧
      (le32 argp 8 ≠ 0 → (ouichefsIoctlFileInfo s argp).log = []) := by
  unfold ouichefsIoctlFileInfo OuicheRead.ouichefsIoctlFileInfo
  by_cases hcopy : s.io.ucopy 0 ≠ none
  · rw [if_pos hcopy, if_pos hcopy]
    exact Or.inl ⟨rfl, rfl⟩
  rw [if_neg hcopy, if_neg hcopy]
  simp only
  by_cases hread : s.io.bread 0 = false
  · rw [if_pos hread, if_pos (show s.popUcopy.io.bread 0 = false from hread)]
    exact Or.inl ⟨rfl, rfl⟩
  rw [if_neg hread, if_neg (show ¬ s.popUcopy.io.bread 0 = false from hread)]
  -- the second copy is the one that the first has left to come
  cases hback : s.popUcopy.popBread.io.ucopy 0 with
  | some k =>
    rw [if_pos (show s.io.ucopy 1 ≠ none by rw [show s.io.ucopy 1 = some k from hback]; simp)]
    exact Or.inl ⟨rfl, rfl⟩
  | none =>
    rw [if_neg (show ¬ s.io.ucopy 1 ≠ none by rw [show s.io.ucopy 1 = none from hback]; simp)]
    refine Or.inr ⟨_, rfl, rfl, ?_, fun hhide => ?_⟩
    · simp only [fileInfoLoop_wasted]
      rfl
    · simp only [if_neg hhide]
      rfl

/-- A call that returns 0 has told the number of blocks and the bytes they waste, and
has printed nothing if that was not wanted. -/
theorem fileInfo_reports (h : FileInv s es) (argp : Buffer)
    (done : (ouichefsIoctlFileInfo s argp).ret = 0) :
    (le32 (ouichefsIoctlFileInfo s argp).argp 4).toNat = es.length ∧
      (le32 (ouichefsIoctlFileInfo s argp).argp 0).toNat + s.node.iSize = 4096 * es.length ∧
      (le32 argp 8 ≠ 0 → (ouichefsIoctlFileInfo s argp).log = []) := by
  have hl := h.shape.length_le
  have ht := total_le es
  have hsize := h.size
  rcases fileInfo_cases s argp with ⟨_, hfails⟩ | ⟨info, hinfo, _, hargp, hlog⟩
  · exact absurd (hfails.symm.trans done) (by decide)
  obtain ⟨hnb, hwasted⟩ := ouichefsIoctlFileInfo_eq h hinfo
  rw [hargp, hnb, hwasted]
  refine ⟨?_, ?_, hlog⟩
  · rw [userFileInfo, le32_putLe32_self, BitVec.toNat_ofNat]
    omega
  · rw [userFileInfo, le32_putLe32_of_disjoint _ _ (by omega), le32_putLe32_self,
      BitVec.toNat_ofNat]
    omega

/-- The text for a file of `iSize` bytes in these blocks, where printing stops at the
block `n`. -/
def printed (iSize : Nat) (blocks : List (Nat × List Byte)) (n : Nat) : List Byte :=
  printHead iSize blocks.length ++ (printLines 0 (blocks.take n) ++ stoppedAt 0 blocks n)

theorem blockPrint_eq (h : FileInv s es) (argp : Buffer) :
    Unmoved s (ouichefsIoctlFileBlockPrint s argp).ctx ∧
      ((ouichefsIoctlFileBlockPrint s argp).ret = 0 → ∃ n, (s.io.NoReadFails → es.length ≤ n) ∧
        (ouichefsIoctlFileBlockPrint s argp).log = printed s.node.iSize (blockBytes s es) n) := by
  have hl := h.shape.length_le
  have hlen : (blockBytes s es).length = es.length := List.length_map _
  obtain ⟨hsame, n, hall, hlog⟩ := blockPrintLoop_eq es s.popBread 0 (by
    intro i hi
    rw [Nat.zero_add]
    exact h.shape.slots i (by omega))
  unfold ouichefsIoctlFileBlockPrint printed
  simp only [FileInv.nbBlocks h, hlen]
  by_cases hread : s.io.bread 0 = false
  · rw [if_pos hread]
    exact ⟨⟨rfl, rfl, rfl⟩, fun done => absurd done (show -errFault ≠ 0 by decide)⟩
  · rw [if_neg hread]
    refine ⟨⟨hsame.sbi, hsame.disk, hsame.node⟩, fun _ => ⟨n, fun hreads => ?_, ?_⟩⟩
    · exact hall fun m => hreads (m + 1)
    · exact congrArg (printHead s.node.iSize es.length ++ ·) hlog

/-- A call as the user sees it. -/
structure Answer where
  cmd : Nat
  argp : Buffer
  ret : Int
  result : Buffer
  log : List Byte

/-- Any command on an open file; any disk read and any user copy may fail. -/
inductive IoctlStep : Ctx → Answer → Ctx → Prop
  | call (s : Ctx) (io : Io) (fuel cmd : Nat) (argp : Buffer) (r : IoctlResult) :
      ouichefsIoctl fuel { s with io := io } cmd argp = some r →
      IoctlStep s ⟨cmd, argp, r.ret, r.argp, r.log⟩ r.ctx

/-- The file is in no more blocks, with the same bytes if they can be moved apart. -/
structure Repacked (s : Ctx) (es : List Word) (t : Ctx) (es' : List Word) : Prop where
  inv : FileInv t es'
  bytes : Drainable s → bytesOf t.disk es' = bytesOf s.disk es
  drainable : Drainable s → Drainable t
  size : t.node.iSize = s.node.iSize
  fewer : es'.length ≤ es.length

/-- What an answer tells of a file with `nb` blocks before and `nb'` blocks after the
call. -/
structure Tells (bytes : List Byte) (iSize nb nb' : Nat) (a : Answer) : Prop where
  unknown : a.cmd ≠ ouichefsIocFileInfo → a.cmd ≠ ouichefsIocDefrag →
    a.cmd ≠ ouichefsIocFileBlockPrint → a.ret = -errInval ∧ a.result = a.argp ∧ a.log = []
  info : a.cmd = ouichefsIocFileInfo → a.ret = 0 → (le32 a.result 4).toNat = nb ∧ nb' = nb ∧
    (le32 a.result 0).toNat + iSize = 4096 * nb ∧ (le32 a.argp 8 ≠ 0 → a.log = [])
  defrag : a.cmd = ouichefsIocDefrag → a.ret = 0 → nb' = (iSize + 4095) / 4096
  print : a.cmd = ouichefsIocFileBlockPrint → a.ret = 0 →
    ∃ (blocks : List (Nat × List Byte)) (n : Nat), a.log = printed iSize blocks n ∧
      blocks.flatMap Prod.snd = bytes

theorem Repacked.unmoved (h : FileInv s es) (u : Unmoved s t) : Repacked s es t es :=
  have h' := FileInv.unmoved h u
  ⟨h', fun _ => by rw [u.disk],
    fun hd => (drainable_iff h'.shape).mpr ((drainable_iff h.shape).mp hd), by rw [u.node],
    Nat.le_refl _⟩

theorem defrag_repacked (h : FileInv s es) {fuel : Nat} {r : Ctx × Int}
    (run : ouichefsDefrag fuel s = some r) : ∃ es', Repacked s es r.1 es' ∧
      (r.2 = 0 → es'.length = (s.node.iSize + 4095) / 4096) := by
  obtain ⟨es', htidied, hdone, _⟩ := defrag_tidied h run
  refine ⟨es', ⟨htidied.effect.inv, htidied.bytes, htidied.drainable, htidied.iSize,
    htidied.fewer⟩, fun hret => ?_⟩
  obtain ⟨hfull, hpositive⟩ := hdone hret
  rw [length_of_full hfull hpositive, htidied.size, ← h.size]

theorem IoctlStep.repacks (h : FileInv s es) {a : Answer} (step : IoctlStep s a t) : ∃ es',
    Repacked s es t es' ∧ Tells (bytesOf s.disk es) s.node.iSize es.length es'.length a := by
  obtain ⟨hinfoDefrag, hinfoPrint, hdefragPrint⟩ := commands_ne
  cases step with
  | call io fuel cmd argp r run =>
    have hio := h.withIo io
    have hrefused : r = ⟨{ s with io := io }, -errInval, argp, []⟩ →
        cmd ≠ ouichefsIocFileInfo → cmd ≠ ouichefsIocDefrag → cmd ≠ ouichefsIocFileBlockPrint →
        ∃ es', Repacked s es r.ctx es' ∧ Tells (bytesOf s.disk es) s.node.iSize es.length es'.length
          ⟨cmd, argp, r.ret, r.argp, r.log⟩ := by
      rintro rfl hinfo hdefrag hprint
      exact ⟨es, Repacked.unmoved h ⟨rfl, rfl, rfl⟩, fun _ _ _ => ⟨rfl, rfl, rfl⟩,
        fun heq => absurd heq hinfo, fun heq => absurd heq hdefrag, fun heq => absurd heq hprint⟩
    unfold ouichefsIoctl at run
    by_cases htype : iocType cmd ≠ ouichefsIoctlMagic
    · rw [if_pos htype] at run
      refine hrefused (Option.some.inj run).symm ?_ ?_ ?_
      · rintro rfl
        exact htype (by decide)
      · rintro rfl
        exact htype (by decide)
      · rintro rfl
        exact htype (by decide)
    rw [if_neg htype] at run
    by_cases hinfo : cmd = ouichefsIocFileInfo
    · subst hinfo
      rw [if_pos rfl] at run
      obtain rfl := Option.some.inj run
      refine ⟨es, Repacked.unmoved h ?_, fun hne => absurd rfl hne, fun _ done => ?_,
        fun heq => absurd heq hinfoDefrag, fun heq => absurd heq hinfoPrint⟩
      · have := fileInfo_unmoved { s with io := io } argp
        exact ⟨this.sbi, this.disk, this.node⟩
      · obtain ⟨hnb, hwasted, hhide⟩ := fileInfo_reports hio argp done
        exact ⟨hnb, rfl, hwasted, hhide⟩
    rw [if_neg hinfo] at run
    by_cases hdefrag : cmd = ouichefsIocDefrag
    · subst hdefrag
      rw [if_pos rfl] at run
      obtain ⟨q, hq, rfl⟩ := Option.map_eq_some_iff.mp run
      obtain ⟨es', hrep, hcount⟩ := defrag_repacked hio hq
      exact ⟨es', ⟨hrep.inv, hrep.bytes, hrep.drainable, hrep.size, hrep.fewer⟩, fun _ hne => absurd rfl hne,
        fun heq => absurd heq.symm hinfoDefrag, fun _ done => hcount done,
        fun heq => absurd heq hdefragPrint⟩
    rw [if_neg hdefrag] at run
    by_cases hprint : cmd = ouichefsIocFileBlockPrint
    · subst hprint
      rw [if_pos rfl] at run
      obtain rfl := Option.some.inj run
      obtain ⟨hsame, hprinted⟩ := blockPrint_eq hio argp
      refine ⟨es, Repacked.unmoved h ⟨hsame.sbi, hsame.disk, hsame.node⟩,
        fun _ _ hne => absurd rfl hne, fun heq => absurd heq.symm hinfoPrint,
        fun heq => absurd heq.symm hdefragPrint, fun _ done => ?_⟩
      obtain ⟨n, _, hlog⟩ := hprinted done
      exact ⟨blockBytes s es, n, hlog, List.flatMap_map ..⟩
    · rw [if_neg hprint] at run
      exact hrefused (Option.some.inj run).symm hinfo hdefrag hprint

theorem Repacked.trans {u : Ctx} {es'' : List Word} (r : Repacked s es t es')
    (r' : Repacked t es' u es'') : Repacked s es u es'' :=
  ⟨r'.inv, fun hd => (r'.bytes (r.drainable hd)).trans (r.bytes hd),
    fun hd => r'.drainable (r.drainable hd), r'.size.trans r.size, Nat.le_trans r'.fewer r.fewer⟩

/-- The number of blocks an answer reports. -/
def Answer.reported (a : Answer) : Option Nat :=
  if a.cmd = ouichefsIocFileInfo ∧ a.ret = 0 then some (le32 a.result 4).toNat else none

theorem run_repacks {answers : List Answer} (run : Loop.Run IoctlStep s answers t) :
    ∀ {es : List Word}, FileInv s es → ∃ es', Repacked s es t es' ∧
      (∀ a ∈ answers, ∃ bytes nb nb', (Drainable s → bytes = bytesOf s.disk es) ∧
        Tells bytes s.node.iSize nb nb' a) ∧
      (∀ nb ∈ answers.filterMap Answer.reported, nb ≤ es.length) ∧
      (answers.filterMap Answer.reported).Pairwise (· ≥ ·) := by
  induction run with
  | nil s =>
    intro es h
    refine ⟨es, Repacked.unmoved h ⟨rfl, rfl, rfl⟩, ?_, ?_, List.Pairwise.nil⟩
    · exact fun a ha => absurd ha List.not_mem_nil
    · exact fun nb hnb => absurd hnb List.not_mem_nil
  | @cons s t u a answers step _ ih =>
    intro es h
    obtain ⟨es₁, hrep, htells⟩ := step.repacks h
    obtain ⟨es', hrest, hall, hle, hdown⟩ := ih hrep.inv
    rw [hrep.size] at hall
    have hle' : ∀ nb ∈ answers.filterMap Answer.reported, nb ≤ es.length :=
      fun nb hnb => Nat.le_trans (hle nb hnb) hrep.fewer
    refine ⟨es', hrep.trans hrest, ?_, ?_, ?_⟩
    · intro a' ha'
      rcases List.mem_cons.mp ha' with rfl | hmem
      · exact ⟨_, _, _, fun _ => rfl, htells⟩
      · obtain ⟨bytes, nb, nb', hbytes, htell⟩ := hall a' hmem
        exact ⟨bytes, nb, nb', fun hd => (hbytes (hrep.drainable hd)).trans (hrep.bytes hd), htell⟩
    · rw [List.filterMap_cons]
      cases hreport : a.reported with
      | none => exact hle'
      | some n =>
        unfold Answer.reported at hreport
        split at hreport
        · rename_i hinfo
          obtain rfl := Option.some.inj hreport
          intro nb hnb
          rcases List.mem_cons.mp hnb with rfl | hmem
          · exact Nat.le_of_eq (htells.info hinfo.1 hinfo.2).1
          · exact hle' nb hmem
        · cases hreport
    · rw [List.filterMap_cons]
      cases hreport : a.reported with
      | none => exact hdown
      | some n =>
        unfold Answer.reported at hreport
        split at hreport
        · rename_i hinfo
          obtain rfl := Option.some.inj hreport
          refine List.Pairwise.cons (fun nb hnb => ?_) hdown
          rw [(htells.info hinfo.1 hinfo.2).1]
          exact hle' nb hnb
        · cases hreport

end

/-! The file of the sample is measured, defragmented, measured again and printed. -/

def sampleIoctl (s : Ctx) (cmd : Nat) : Option IoctlResult :=
  ouichefsIoctl 10 { s with io := calmIo } cmd fun _ => 0

def answerOf (cmd : Nat) (r : IoctlResult) : Answer := ⟨cmd, fun _ => 0, r.ret, r.argp, r.log⟩

def sampleAnswers (r₁ r₂ r₃ r₄ : IoctlResult) : List Answer :=
  [answerOf ouichefsIocFileInfo r₁, answerOf ouichefsIocDefrag r₂, answerOf ouichefsIocFileInfo r₃,
    answerOf ouichefsIocFileBlockPrint r₄]

theorem sampleIoctls : ∃ image w₀ w dirty calls node r₁ r₂ r₃ r₄,
    mkfs (fun _ => true) 409600 (fun _ => zeroBlock) = some image ∧
    ouichefsFillSuper image ⟨0, 0, true⟩ (fun _ => true) (fun _ => true) = .ok w₀ ∧
    Loop.Run FsStep (clean w₀) calls ⟨w, dirty⟩ ∧ live w 2 = some node ∧
    sIsreg node.iMode = true ∧ node.iSize = 3 ∧ Drainable (w.ctx node calmIo) ∧
    (w.ctx node calmIo).content = [66, 68, 67] ∧
    (r₁.ret = 0 ∧ r₂.ret = 0 ∧ r₃.ret = 0 ∧ r₄.ret = 0) ∧
    ((le32 r₁.argp 4).toNat = 2 ∧ (le32 r₃.argp 4).toNat = 1) ∧
    Loop.Run IoctlStep (w.ctx node calmIo) (sampleAnswers r₁ r₂ r₃ r₄) r₄.ctx := by
  have hsample : (sampleFile.bind fun p => (live p.2 2).bind fun node =>
      (sampleIoctl (p.2.ctx node calmIo) ouichefsIocFileInfo).bind fun r₁ =>
      (sampleIoctl r₁.ctx ouichefsIocDefrag).bind fun r₂ =>
      (sampleIoctl r₂.ctx ouichefsIocFileInfo).bind fun r₃ =>
      (sampleIoctl r₃.ctx ouichefsIocFileBlockPrint).map fun r₄ => decide (node.iSize = 3) &&
        decide (Drainable (p.2.ctx node calmIo)) &&
        decide ((p.2.ctx node calmIo).content = [66, 68, 67]) &&
        decide (r₁.ret = 0 ∧ r₂.ret = 0 ∧ r₃.ret = 0 ∧ r₄.ret = 0) &&
        decide ((le32 r₁.argp 4).toNat = 2 ∧ (le32 r₃.argp 4).toNat = 1)) = some true := by
    decide +kernel
  obtain ⟨image, w₀, w, dirty, node, himage, hw₀, hrun, hfile, hlive, hreg⟩ := sampleFile_run
  rw [hfile, Option.bind_some, hlive, Option.bind_some] at hsample
  obtain ⟨r₁, h₁, hsample⟩ := Option.bind_eq_some_iff.mp hsample
  obtain ⟨r₂, h₂, hsample⟩ := Option.bind_eq_some_iff.mp hsample
  obtain ⟨r₃, h₃, hsample⟩ := Option.bind_eq_some_iff.mp hsample
  obtain ⟨r₄, h₄, hall⟩ := Option.map_eq_some_iff.mp hsample
  simp only [Bool.and_eq_true, decide_eq_true_eq] at hall
  obtain ⟨⟨⟨⟨hsize, hapart⟩, hcontent⟩, hrets⟩, hreports⟩ := hall
  exact ⟨image, w₀, w, dirty, _, node, r₁, r₂, r₃, r₄, himage, hw₀, hrun.mono fun _ _ _ h => h.1,
    hlive, hreg, hsize, hapart, hcontent, hrets, hreports,
    .cons (.call _ calmIo 10 _ _ r₁ h₁) (.cons (.call _ calmIo 10 _ _ r₂ h₂)
      (.cons (.call _ calmIo 10 _ _ r₃ h₃) (.single (.call _ calmIo 10 _ _ r₄ h₄))))⟩

/-- After a defragmentation that has succeeded the file stays on as few blocks as hold
its bytes, whatever commands follow: every later report says so, and less than one
block is wasted. -/
theorem defrag_reported (ok : Nat → Bool) (stSize : Nat) (disk image : Store) (who : Caller)
    (readable : Nat → Bool) (memory : Fin 4 → Bool) (w₀ w : World) (dirty : Nat → Bool)
    (calls : List (Call Nat Name Byte)) (formatted : mkfs ok stSize disk = some image)
    (mount : ouichefsFillSuper image who readable memory = .ok w₀)
    (small : stSize / 4096 ≤ 524288) (run : Loop.Run FsStep (clean w₀) calls ⟨w, dirty⟩)
    (ino : Nat) (node : Inode)
    (own : live w ino = some node) (reg : sIsreg node.iMode = true) (io : Io)
    (before after : List Answer) (d : Answer) (s : Ctx)
    (ioctls : Loop.Run IoctlStep (w.ctx node io) (before ++ d :: after) s)
    (cmd : d.cmd = ouichefsIocDefrag) (done : d.ret = 0) :
    s.node.iBlocks = (node.iSize + 4095) / 4096 + 1 ∧
      ∀ a ∈ after, a.cmd = ouichefsIocFileInfo → a.ret = 0 →
        (le32 a.result 4).toNat = (node.iSize + 4095) / 4096 ∧ (le32 a.result 0).toNat < 4096 := by
  obtain ⟨⟨⟨t, h⟩, _⟩, _⟩ := run_session (formatted_session formatted mount small) run
  obtain ⟨es, hinv, _⟩ := h.world.fileInv own reg io
  obtain ⟨u, hfirst, hlater⟩ := ioctls.split
  obtain ⟨es₁, hrep₁, _⟩ := run_repacks hfirst hinv
  cases hlater with
  | @cons _ v _ _ _ step hlast =>
    obtain ⟨es₂, hrep₂, htells⟩ := step.repacks hrep₁.inv
    have hsize : u.node.iSize = node.iSize := hrep₁.size
    have hcount : es₂.length = (node.iSize + 4095) / 4096 := hsize ▸ htells.defrag cmd done
    obtain ⟨es', hrep, hall, hle, _⟩ := run_repacks hlast hrep₂.inv
    have hsize' : v.node.iSize = node.iSize := hrep₂.size.trans hsize
    -- fewer blocks than these cannot hold the bytes
    have hleast : es'.length = (node.iSize + 4095) / 4096 := by
      have htotal := total_le es'
      rw [← hrep.inv.size, hrep.size, hsize'] at htotal
      have := hrep.fewer
      omega
    refine ⟨?_, fun a ha hinfo hret => ?_⟩
    · rw [hrep.inv.shape.iBlocks, hleast]
    · obtain ⟨_, nb, nb', _, htell⟩ := hall a ha
      obtain ⟨hnb, _, hwasted, _⟩ := htell.info hinfo hret
      have hmem : (le32 a.result 4).toNat ∈ after.filterMap Answer.reported :=
        List.mem_filterMap.mpr ⟨a, ha, if_pos ⟨hinfo, hret⟩⟩
      have hmost := hle _ hmem
      rw [hsize'] at hwasted
      omega

theorem defrag_reported_sample : ∃ (s : Ctx) (result : Buffer), s.node.iBlocks = 2 ∧
    (le32 result 4).toNat = 1 ∧ (le32 result 0).toNat < 4096 := by
  obtain ⟨image, w₀, w, dirty, calls, node, r₁, r₂, r₃, r₄, himage, hw₀, hrun, hn, hreg, hthree, _, _,
    ⟨_, h₂, h₃, _⟩, _, hioctls⟩ := sampleIoctls
  obtain ⟨hblocks, hinfo⟩ := defrag_reported _ _ _ _ _ _ _ w₀ w dirty calls himage hw₀ (by decide)
    hrun 2 node hn hreg calmIo [_] [_, _] _ _ hioctls rfl h₂
  obtain ⟨hone, hless⟩ := hinfo (answerOf ouichefsIocFileInfo r₃) List.mem_cons_self rfl h₃
  rw [hthree] at hblocks hone
  exact ⟨r₄.ctx, r₃.argp, hblocks, hone, hless⟩

end OuicheIoctl
