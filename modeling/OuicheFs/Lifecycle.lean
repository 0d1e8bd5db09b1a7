import OuicheFs.Ownership

/-!
# Creating and removing inodes

A new inode takes one number and one block; a removal gives back the number
and every block the inode holds. Both also rewrite the block of the parent
directory. Without a failing read the blocks stay settled.
-/
namespace Lifecycle

open CInt Bits ByteBuffer IndexEntry Allocator FileContext Layout OuicheInode Mkfs FileRun Ownership

/-! ## Numbers and superblock -/

/-- The block half of the superblock information is the same. -/
structure SameBlocks (a b : SbInfo) : Prop where
  layout : SameLayout a b
  bitmap : b.bfreeBitmap = a.bfreeBitmap
  count : b.nrFreeBlocks = a.nrFreeBlocks

theorem SameBlocks.blocksOk {a b : SbInfo} (h : SameBlocks a b) (ok : BlocksOk a) :
    BlocksOk b := by
  refine ⟨h.bitmap ▸ ok.zero_used, ?_, h.layout.nrBlocks ▸ ok.range⟩
  rw [h.count, h.bitmap, h.layout.nrBlocks]
  exact ok.counter

/-- An inode number is taken from the bitmap, or there is none. -/
theorem getFreeInode_spec (sbi : SbInfo) :
    SameBlocks sbi (getFreeInode sbi).2 ∧
    (((getFreeInode sbi).1 = 0 ∧
        ∀ i, 0 < i → (getFreeInode sbi).2.ifreeBitmap i = sbi.ifreeBitmap i) ∨
      (0 < (getFreeInode sbi).1 ∧ (getFreeInode sbi).1 < sbi.nrInodes ∧
        sbi.ifreeBitmap (getFreeInode sbi).1 = true ∧
        (getFreeInode sbi).2.ifreeBitmap = clearBit sbi.ifreeBitmap (getFreeInode sbi).1)) := by
  obtain ⟨f, hf⟩ : ∃ f, f = findFirstBit sbi.ifreeBitmap sbi.nrInodes := ⟨_, rfl⟩
  have hle := findFirstBit_le sbi.ifreeBitmap sbi.nrInodes
  rw [← hf] at hle
  unfold getFreeInode getFirstFreeBit
  simp only [← hf]
  by_cases hall : f = sbi.nrInodes
  · rw [if_pos hall, if_neg (by simp)]
    exact ⟨⟨⟨rfl, rfl, rfl, rfl, rfl⟩, rfl, rfl⟩, Or.inl ⟨rfl, fun _ _ => rfl⟩⟩
  rw [if_neg hall]
  by_cases hz : f = 0
  · rw [if_neg (by simp [hz])]
    refine ⟨⟨⟨rfl, rfl, rfl, rfl, rfl⟩, rfl, rfl⟩, Or.inl ⟨hz, fun i hi => ?_⟩⟩
    exact clearBit_of_ne _ (by omega)
  · rw [if_pos hz]
    refine ⟨⟨⟨rfl, rfl, rfl, rfl, rfl⟩, rfl, rfl⟩, Or.inr ⟨Nat.pos_of_ne_zero hz, by
      change f < _; omega, ?_, rfl⟩⟩
    change sbi.ifreeBitmap f = true
    rw [hf]
    exact findFirstBit_set (by omega)

theorem putInode_spec {sbi : SbInfo} {ino : Nat} (h : ino ≤ sbi.nrInodes) :
    SameBlocks sbi (putInode sbi ino) ∧
      (putInode sbi ino).ifreeBitmap = setBit sbi.ifreeBitmap ino := by
  have hput : putInode sbi ino = { sbi with
      ifreeBitmap := setBit sbi.ifreeBitmap ino
      nrFreeInodes := u32 ((sbi.nrFreeInodes : Int) + 1) } := by
    simp [putInode, putFreeBit, Nat.not_lt.mpr h]
  rw [hput]
  exact ⟨⟨⟨rfl, rfl, rfl, rfl, rfl⟩, rfl, rfl⟩, rfl⟩

theorem SameBlocks.trans {a b c : SbInfo} (h : SameBlocks a b) (h' : SameBlocks b c) :
    SameBlocks a c :=
  ⟨h.layout.trans h'.layout, h'.bitmap.trans h.bitmap, h'.count.trans h.count⟩

section

variable {w w' : World}

/-- The invariant does not depend on the counters of inodes or on bit 0. -/
theorem worldInv_congr (h : WorldInv w) (blocks : SameBlocks w.sbi w'.sbi)
    (inodes : ∀ i, 0 < i → w'.sbi.ifreeBitmap i = w.sbi.ifreeBitmap i)
    (disk : w'.disk = w.disk) (icache : w'.icache = w.icache) : WorldInv w' := by
  have hin : ∀ j, InUse w'.sbi j ↔ InUse w.sbi j := by
    intro j
    rcases Nat.eq_zero_or_pos j with hz | hpos
    · exact ⟨fun h => absurd h.1 (by omega), fun h => absurd h.1 (by omega)⟩
    · exact inUse_congr blocks.layout (inodes j hpos)
  have h0 : ¬ InUse w'.sbi 0 := fun h => absurd h.1 (lt_irrefl 0)
  have hnone : live w' 0 = none := if_neg h0
  have hnone' : live w 0 = none := if_neg (fun h => absurd h.1 (lt_irrefl 0))
  refine h.change 0 blocks.layout (blocks.blocksOk h.blocks) ?_ (fun h => absurd h h0) ?_ ?_ ?_ ?_ ?_
  · intro j _
    exact ⟨hin j, fun hc => icache ▸ hc, fun node hc => ⟨node, icache ▸ hc, rfl, rfl, rfl, rfl,
      fun _ => by rw [disk]⟩⟩
  · intro node hl
    rw [hnone] at hl
    cases hl
  · intro node _ hc
    exact h.orphans 0 node (fun h => absurd h.1 (lt_irrefl 0)) (icache ▸ hc)
  · rw [holds_none hnone]
    exact List.nodup_nil
  · rw [holds_none hnone]
    intro b hb
    cases hb
  · intro b
    rw [holds_none hnone, holds_none hnone', blocks.bitmap]
    simp

/-! ## New inodes -/

theorem sIsdir_sgid (mode : Nat) : sIsdir (mode ||| sIsgid) = sIsdir mode := by
  unfold sIsdir
  rw [Nat.and_or_distrib_right, show sIsgid &&& sIfmt = 0 from rfl, Nat.or_zero]

theorem sIsreg_sgid (mode : Nat) : sIsreg (mode ||| sIsgid) = sIsreg mode := by
  unfold sIsreg
  rw [Nat.and_or_distrib_right, show sIsgid &&& sIfmt = 0 from rfl, Nat.or_zero]

/-- What a new inode looks like, whatever the cache or the store held before. -/
structure Initial (mode bno : Nat) (node : Inode) : Prop where
  index : node.indexBlock = bno
  iBlocks : node.iBlocks = 1
  dir : sIsdir node.iMode = sIsdir mode
  reg : sIsreg node.iMode = sIsreg mode
  empty : sIsdir mode = false → node.iSize = 0
  links : sIsdir mode = true → node.iNlink = 2

theorem initInode_initial (who : Caller) (d : Inode) (mode bno : Nat) (now : Timespec)
    (node : Inode) : Initial mode bno (initInode who d mode bno now node) := by
  unfold initInode inodeInitOwner
  by_cases hg : d.iMode &&& sIsgid ≠ 0
  · by_cases hd : sIsdir mode = true
    · simp only [if_pos hg, if_pos hd]
      exact ⟨rfl, rfl, sIsdir_sgid mode, sIsreg_sgid mode, fun h => by simp [hd] at h,
        fun _ => rfl⟩
    · simp only [if_pos hg, if_neg hd]
      exact ⟨rfl, rfl, rfl, rfl, fun _ => rfl, fun h => absurd h hd⟩
  · by_cases hd : sIsdir mode = true
    · simp only [if_neg hg, if_pos hd]
      exact ⟨rfl, rfl, rfl, rfl, fun h => by simp [hd] at h, fun _ => rfl⟩
    · simp only [if_neg hg, if_neg hd]
      exact ⟨rfl, rfl, rfl, rfl, fun _ => rfl, fun h => absurd h hd⟩

/-- A new inode has been set up with the block `bno`. -/
structure NewInode (w w' : World) (ino bno mode : Nat) : Prop where
  type : sIsdir mode = true ∨ sIsreg mode = true
  pos : 0 < ino
  lt : ino < w.sbi.nrInodes
  was_free : w.sbi.ifreeBitmap ino = true
  inodes : w'.sbi.ifreeBitmap = clearBit w.sbi.ifreeBitmap ino
  layout : SameLayout w.sbi w'.sbi
  blocks : BlocksOk w.sbi → BlocksOk w'.sbi
  bno_lt : bno < w.sbi.nrBlocks
  bno_free : w.sbi.bfreeBitmap bno = true
  bitmap : w'.sbi.bfreeBitmap = clearBit w.sbi.bfreeBitmap bno
  disk : w'.disk = w.disk
  icache : ∃ node, Initial mode bno node ∧
    w'.icache = fun i => if i = ino then some node else w.icache i

/-- Either way the inode is in the cache afterwards. -/
theorem ouichefsIget_spec (w : World) (who : Caller) (okStore : Bool) (ino : Nat) :
    (∃ ret, ouichefsIget w who okStore ino = .error ret ∧ ret < 0) ∨
      ∃ node, ouichefsIget w who okStore ino = .ok (w.cache ino node) := by
  unfold ouichefsIget
  simp only
  split
  · exact Or.inl ⟨-errInval, rfl, by decide⟩
  split
  · exact Or.inl ⟨-errNomem, rfl, by decide⟩
  split
  · rename_i node hc
    refine Or.inr ⟨node, ?_⟩
    have hsame : (fun i => if i = ino then some node else w.icache i) = w.icache := by
      funext i
      by_cases hi : i = ino
      · rw [hi, hc]
        exact if_pos rfl
      · exact if_neg hi
    rw [World.cache, hsame]
  · split
    · exact Or.inl ⟨-errIo, rfl, by decide⟩
    · exact Or.inr ⟨_, rfl⟩

/-- What remains of an attempt that failed. A free inode may have come into the
cache, unless the counter of free blocks is right. -/
structure Abandoned (w w' : World) : Prop where
  layout : SameLayout w.sbi w'.sbi
  inodes : ∀ i, 0 < i → w'.sbi.ifreeBitmap i = w.sbi.ifreeBitmap i
  taken : ∀ b, w.sbi.bfreeBitmap b = false → w'.sbi.bfreeBitmap b = false
  disk : w'.disk = w.disk
  icache : ∀ i, w.sbi.ifreeBitmap i = false → w'.icache i = w.icache i
  settled : BlocksOk w.sbi → SameBlocks w.sbi w'.sbi ∧ w'.icache = w.icache

theorem Abandoned.refl (w : World) : Abandoned w w :=
  ⟨SameLayout.refl _, fun _ _ => rfl, fun _ h => h, rfl, fun _ _ => rfl,
    fun _ => ⟨⟨SameLayout.refl _, rfl, rfl⟩, rfl⟩⟩

/-- A number that was taken goes back to where it came from. -/
theorem putInode_clear {a b : SbInfo} {ino : Nat} (le : ino ≤ b.nrInodes)
    (free : a.ifreeBitmap ino = true) (clear : b.ifreeBitmap = clearBit a.ifreeBitmap ino) :
    SameBlocks b (putInode b ino) ∧ (putInode b ino).ifreeBitmap = a.ifreeBitmap := by
  obtain ⟨hput, hset⟩ := putInode_spec le
  refine ⟨hput, ?_⟩
  funext i
  rw [hset, clear]
  by_cases hi : i = ino
  · rw [hi, setBit_self, free]
  · rw [setBit_of_ne _ hi, clearBit_of_ne _ hi]

/-- A new inode is set up completely or the attempt is undone. -/
theorem ouichefsNewInode_cases (w : World) (who : Caller) (io : Io) (d : Inode) (mode : Nat) :
    (∃ ret, (ouichefsNewInode w who io d mode).2 = .error ret ∧ ret < 0 ∧
      Abandoned w (ouichefsNewInode w who io d mode).1) ∨
    (∃ ino bno, (ouichefsNewInode w who io d mode).2 = .ok ino ∧
      NewInode w (ouichefsNewInode w who io d mode).1 ino bno mode) := by
  have hnospc : -errNospc < 0 := by decide
  unfold ouichefsNewInode
  split
  · exact Or.inl ⟨-errInval, rfl, by decide, Abandoned.refl w⟩
  rename_i htype
  split
  · exact Or.inl ⟨_, rfl, hnospc, Abandoned.refl w⟩
  rename_i hcounters
  obtain ⟨hsame, hget⟩ := getFreeInode_spec w.sbi
  obtain ⟨r, hr⟩ : ∃ r, r = getFreeInode w.sbi := ⟨_, rfl⟩
  rw [← hr] at hsame hget
  simp only [← hr]
  have hkept : ∀ b, w.sbi.bfreeBitmap b = false → r.2.bfreeBitmap b = false := by
    intro b hb
    rw [hsame.bitmap]
    exact hb
  rcases hget with ⟨hzero, hbits⟩ | ⟨hpos, hlt, hfree, hbits⟩
  · rw [if_pos hzero]
    exact Or.inl ⟨_, rfl, hnospc, hsame.layout, hbits, hkept, rfl, fun _ _ => rfl, fun _ => ⟨hsame, rfl⟩⟩
  rw [if_neg (by omega)]
  have hrange : r.1 ≤ r.2.nrInodes := by
    rw [hsame.layout.nrInodes]
    omega
  rcases ouichefsIget_spec { w with sbi := r.2 } who (io.bread 1) r.1 with
    ⟨ret, higet, hneg⟩ | ⟨node, higet⟩
  · rw [higet]
    obtain ⟨hput, hback⟩ := putInode_clear hrange hfree hbits
    refine Or.inl ⟨ret, rfl, hneg, hsame.layout.trans hput.layout, fun i _ => congrFun hback i, ?_, rfl,
      fun _ _ => rfl, fun _ => ⟨hsame.trans hput, rfl⟩⟩
    intro b hb
    change (putInode r.2 r.1).bfreeBitmap b = false
    rw [hput.bitmap]
    exact hkept b hb
  rw [higet]
  obtain ⟨hlayout, hinodes, hblock⟩ := getFreeBlock_spec r.2
  obtain ⟨b, hb⟩ : ∃ b, b = getFreeBlock r.2 := ⟨_, rfl⟩
  have hgb : getFreeBlock (World.cache { w with sbi := r.2 } r.1 node).sbi = b := hb.symm
  have htaken : BlocksOk w.sbi → Taken r.2 b.2 b.1 := by
    intro hok
    rw [hb]
    exact getFreeBlock_taken (hsame.blocksOk hok) (by rw [hsame.count]; omega)
  rw [← hb] at hlayout hinodes hblock
  simp only [hgb]
  rcases hblock with ⟨hzero, hclear⟩ | ⟨hbpos, hblt, hbfree, hbitmap⟩
  · rw [if_pos hzero]
    obtain ⟨hput, hback⟩ := putInode_clear (by rw [hlayout.nrInodes]; exact hrange)
      hfree (hinodes.trans hbits)
    refine Or.inl ⟨_, rfl, hnospc, (hsame.layout.trans hlayout).trans hput.layout,
      fun i _ => congrFun hback i, ?_, rfl, ?_, ?_⟩
    · intro c hc
      change (putInode b.2 r.1).bfreeBitmap c = false
      rw [hput.bitmap]
      exact hclear c (hkept c hc)
    · intro i hi
      refine if_neg ?_
      rintro rfl
      rw [hfree] at hi
      cases hi
    · intro hok
      have := (htaken hok).pos
      omega
  · rw [if_neg (by omega)]
    refine Or.inr ⟨r.1, b.1, rfl, ?_, hpos, hlt, hfree, hinodes.trans hbits,
      hsame.layout.trans hlayout, ?_, ?_, ?_, ?_, rfl, ?_⟩
    · by_cases hd : sIsdir mode = true
      · exact Or.inl hd
      · exact Or.inr (by simpa [hd] using htype)
    · intro hok
      exact (htaken hok).blocksOk (hsame.blocksOk hok)
    · rw [← hsame.layout.nrBlocks]
      exact hblt
    · rw [← hsame.bitmap]
      exact hbfree
    · rw [← hsame.bitmap]
      exact hbitmap
    · refine ⟨_, initInode_initial who d mode b.1 io.now node, ?_⟩
      funext i
      by_cases hi : i = r.1
      · simp [World.modify, World.cache, hi]
      · simp [World.modify, World.cache, hi]

/-- With the blocks in order an attempt that failed leaves them so. -/
theorem Abandoned.inv (h : WorldInv w) (a : Abandoned w w') : WorldInv w' :=
  worldInv_congr h (a.settled h.blocks).1 a.inodes a.disk (a.settled h.blocks).2

/-- The directory `dir` of a call. -/
structure LiveDir (w : World) (dir : Nat) (d : Inode) : Prop where
  live : live w dir = some d
  type : sIsdir d.iMode = true

/-- The times and the link count of a directory may change. -/
structure Refreshed (d d' : Inode) : Prop where
  mode : d'.iMode = d.iMode
  index : d'.indexBlock = d.indexBlock
  iBlocks : d'.iBlocks = d.iBlocks
  iSize : d'.iSize = d.iSize

/-- An inode other than the one created or removed under `dir`. -/
theorem untouched_of_parent (h : WorldInv w) {dir j : Nat} {d : Inode} (parent : LiveDir w dir d)
    (up : ∃ d', w'.icache dir = some d' ∧ Refreshed d d') (inUse : InUse w'.sbi j ↔ InUse w.sbi j)
    (other : j ≠ dir → w'.icache j = w.icache j)
    (frame : ∀ n, w.icache j = some n → n.indexBlock ≠ d.indexBlock →
      w'.disk n.indexBlock = w.disk n.indexBlock) : Untouched w w' j := by
  have hd := (live_eq_some.mp parent.live).2
  by_cases hjd : j = dir
  · subst hjd
    refine ⟨inUse, fun hc => ?_, fun n hc => ?_⟩
    · rw [hd] at hc
      cases hc
    · obtain rfl : d = n := Option.some.inj (hd.symm.trans hc)
      obtain ⟨d', hd', hfresh⟩ := up
      refine ⟨d', hd', hfresh.mode, hfresh.index, hfresh.iBlocks, hfresh.iSize, fun reg => ?_⟩
      rw [sIsreg_of_sIsdir parent.type] at reg
      cases reg
  · refine ⟨inUse, fun hc => (other hjd).trans hc, fun n hc => ⟨n, (other hjd).trans hc, rfl, rfl,
      rfl, rfl, fun _ => frame n hc fun heq => ?_⟩⟩
    exact (h.index_apart hjd hc).1 (heq ▸ index_mem_holds parent.live)

/-- An empty file or directory with the block `bno` has been added under the
number `ino`; of the others only the block and the inode of `dir` have changed. -/
structure Created (w : World) (dir : Nat) (d : Inode) (ino bno mode : Nat) (w' : World) : Prop where
  new : ∃ w₁, NewInode w w₁ ino bno mode ∧ w'.sbi = w₁.sbi
  own : ∃ node, Initial mode bno node ∧ w'.icache ino = some node
  up : ∃ d', w'.icache dir = some d' ∧ Refreshed d d'
  others : ∀ j, j ≠ ino → j ≠ dir → w'.icache j = w.icache j
  scrubbed : ∀ i, i < 1024 → le32 (w'.disk bno) (4 * i) = 0
  frame : ∀ b, b ≠ bno → b ≠ d.indexBlock → w'.disk b = w.disk b

/-- What remains when a new inode has been given back. It may still be in the
cache, but nobody uses it. -/
structure Undone (w w' : World) : Prop where
  layout : SameLayout w.sbi w'.sbi
  inodes : ∀ i, 0 < i → w'.sbi.ifreeBitmap i = w.sbi.ifreeBitmap i
  taken : ∀ b, w.sbi.bfreeBitmap b = false → w'.sbi.bfreeBitmap b = false
  disk : w'.disk = w.disk
  icache : ∀ i, w.sbi.ifreeBitmap i = false → w'.icache i = w.icache i
  blocks : BlocksOk w.sbi → BlocksOk w'.sbi

theorem Abandoned.undone (a : Abandoned w w') : Undone w w' :=
  ⟨a.layout, a.inodes, a.taken, a.disk, a.icache, fun ok => (a.settled ok).1.blocksOk ok⟩

/-- A new inode whose block cannot be read goes back with its block. -/
theorem NewInode.undone {w₁ : World} {ino bno mode : Nat} (new : NewInode w w₁ ino bno mode) :
    Undone w { w₁ with sbi := putInode (putBlock w₁.sbi bno) ino } := by
  have hbno : bno < w₁.sbi.nrBlocks := by
    rw [new.layout.nrBlocks]
    exact new.bno_lt
  have hgiven := putBlock_given (Nat.le_of_lt hbno)
  obtain ⟨hput, hback⟩ := putInode_clear (by
    rw [hgiven.layout.nrInodes, new.layout.nrInodes]
    exact Nat.le_of_lt new.lt) new.was_free (hgiven.inodes.1.trans new.inodes)
  have hbitmap : (putBlock w₁.sbi bno).bfreeBitmap = w.sbi.bfreeBitmap := by
    funext b
    rw [hgiven.bitmap, new.bitmap]
    by_cases hb : b = bno
    · rw [hb, setBit_self, new.bno_free]
    · rw [setBit_of_ne _ hb, clearBit_of_ne _ hb]
  refine ⟨(new.layout.trans hgiven.layout).trans hput.layout, fun i _ => congrFun hback i, ?_,
    new.disk, ?_, ?_⟩
  · intro b hb
    change (putInode (putBlock w₁.sbi bno) ino).bfreeBitmap b = false
    rw [hput.bitmap, hbitmap]
    exact hb
  · intro i hi
    obtain ⟨node, _, hcache⟩ := new.icache
    change w₁.icache i = w.icache i
    rw [hcache]
    refine if_neg ?_
    rintro rfl
    rw [new.was_free] at hi
    cases hi
  · intro ok
    have hpos : 0 < bno := by
      apply Nat.pos_of_ne_zero
      rintro rfl
      have := new.bno_free
      rw [ok.zero_used] at this
      cases this
    have hused : Used w₁.sbi bno := ⟨hpos, hbno, by rw [new.bitmap, clearBit_self]⟩
    exact hput.blocksOk (hgiven.blocksOk (new.blocks ok) hused).1

/-- The block of a directory with an entry in its first unused slot. -/
def enter (dblock : Buffer) (ino : Nat) (name : List Byte) : Buffer :=
  let i := freeSlotLoop dblock maxSubfiles 0
  strscpy (putLe32 dblock (32 * i) (BitVec.ofNat 32 ino)) (32 * i + 4) filenameLen name

/-- The exits of `ouichefs_create`: it refuses, it gets no inode, it gives the inode
back, or it is done. -/
theorem ouichefsCreate_exits {who : Caller} {io : Io} {dir : Nat} {name : List Byte} {mode : Nat}
    {r : World × Int} (run : ouichefsCreate w who io dir name mode = some r) :
    ∃ d, w.icache dir = some d ∧ ((r.1 = w ∧ r.2 < 0) ∨
      (∃ ret, ouichefsNewInode w who io d mode = (r.1, .error ret) ∧ r.2 = ret) ∨
      ∃ w₁ ino node, ouichefsNewInode w who io d mode = (w₁, .ok ino) ∧
        w₁.icache ino = some node ∧
        ((io.bread 2 = false ∧
          r = ({ w₁ with sbi := putInode (putBlock w₁.sbi node.indexBlock) ino }, -errIo)) ∨
        (io.bread 2 = true ∧
          let w₂ := w₁.setBlock node.indexBlock (fill (w₁.disk node.indexBlock) 0 blockSize 0)
          r = ((w₂.setBlock d.indexBlock (enter (w₂.disk d.indexBlock) ino name)).modify dir
            (fun d => { d with
              iMtime := io.now, iAtime := io.now, iCtime := io.now
              iNlink := if sIsdir mode then u32 (d.iNlink + 1 : Nat) else d.iNlink }), 0)))) := by
  unfold ouichefsCreate at run
  obtain ⟨d, hd, run⟩ := Option.bind_eq_some_iff.mp run
  refine ⟨d, hd, ?_⟩
  by_cases hname : name.length > filenameLen
  · rw [if_pos hname] at run
    cases run
    exact Or.inl ⟨rfl, show -errNametoolong < 0 by decide⟩
  rw [if_neg hname] at run
  by_cases hread : io.bread 0 = false
  · rw [if_pos hread] at run
    cases run
    exact Or.inl ⟨rfl, show -errIo < 0 by decide⟩
  rw [if_neg hread] at run
  by_cases hfull : fileInode (w.disk d.indexBlock) (maxSubfiles - 1) ≠ 0
  · rw [if_pos hfull] at run
    cases run
    exact Or.inl ⟨rfl, show -errMlink < 0 by decide⟩
  rw [if_neg hfull] at run
  right
  obtain ⟨⟨w₁, made⟩, hnew⟩ : ∃ q, ouichefsNewInode w who io d mode = q := ⟨_, rfl⟩
  rw [hnew] at run ⊢
  cases made with
  | error ret =>
    cases run
    exact Or.inl ⟨ret, rfl, rfl⟩
  | ok ino =>
    obtain ⟨node, hnode, run⟩ := Option.bind_eq_some_iff.mp run
    refine Or.inr ⟨w₁, ino, node, rfl, hnode, ?_⟩
    by_cases hindex : io.bread 2 = false
    · rw [if_pos hindex] at run
      cases run
      exact Or.inl ⟨hindex, rfl⟩
    · rw [if_neg hindex] at run
      cases run
      exact Or.inr ⟨by simpa using hindex, rfl⟩

/-- What a call of `ouichefs_create` can do, whichever reads fail. -/
theorem ouichefsCreate_cases {who : Caller} {io : Io} {dir : Nat} {d : Inode} {name : List Byte}
    {mode : Nat} {r : World × Int} (parent : LiveDir w dir d)
    (taken : w.sbi.bfreeBitmap d.indexBlock = false)
    (run : ouichefsCreate w who io dir name mode = some r) :
    (r.2 < 0 ∧ Undone w r.1 ∧ (io.bread 2 = true → Abandoned w r.1)) ∨
      (r.2 = 0 ∧ ∃ ino bno, Created w dir d ino bno mode r.1 ∧
        r.1.disk d.indexBlock = enter (w.disk d.indexBlock) ino name) := by
  have hd := (live_eq_some.mp parent.live).2
  have hsame : Undone w w ∧ (io.bread 2 = true → Abandoned w w) :=
    ⟨(Abandoned.refl w).undone, fun _ => Abandoned.refl w⟩
  have hspec := ouichefsNewInode_cases w who io d mode
  obtain ⟨d', hd', hexits⟩ := ouichefsCreate_exits run
  obtain rfl : d = d' := Option.some.inj (hd.symm.trans hd')
  rcases hexits with ⟨hw, hneg⟩ | ⟨ret, hnew, hret⟩ | ⟨w₁, ino, node, hnew, hino, hend⟩
  · rw [hw]
    exact Or.inl ⟨hneg, hsame⟩
  · rw [hnew] at hspec
    rcases hspec with ⟨ret', hret', hneg, habandoned⟩ | ⟨_, _, hok, _⟩
    · cases hret'
      exact Or.inl ⟨hret ▸ hneg, habandoned.undone, fun _ => habandoned⟩
    · cases hok
  rw [hnew] at hspec
  rcases hspec with ⟨_, herr, _⟩ | ⟨ino', bno, hok, new⟩
  · cases herr
  cases hok
  obtain ⟨node', init, hcache⟩ := new.icache
  obtain rfl : node = node' := by
    rw [hcache] at hino
    exact Option.some.inj (hino.symm.trans (if_pos rfl))
  rcases hend with ⟨hfails, hr⟩ | ⟨_, hr⟩
  · rw [hr, init.index]
    exact Or.inl ⟨show -errIo < 0 by decide, new.undone,
      fun hok => by rw [hok] at hfails; cases hfails⟩
  rw [hr]
  have hne : dir ≠ ino := by
    intro heq
    have := (live_eq_some.mp parent.live).1.2.2
    rw [heq, new.was_free] at this
    cases this
  have hdir : w₁.icache dir = some d := by
    rw [hcache]
    exact (if_neg hne).trans hd
  have happart : node.indexBlock ≠ d.indexBlock := by
    rw [init.index]
    rintro heq
    rw [← heq, new.bno_free] at taken
    cases taken
  refine Or.inr ⟨rfl, ino, bno, ⟨⟨w₁, new, rfl⟩,
    ⟨node, init, (modify_of_ne _ _ hne.symm).trans hino⟩,
    ⟨_, modify_self _ hdir, rfl, rfl, rfl, rfl⟩, ?_, ?_, ?_⟩, ?_⟩
  · intro j hj hjd
    refine (modify_of_ne _ _ hjd).trans ?_
    change w₁.icache j = _
    rw [hcache]
    exact if_neg hj
  · intro i hi
    change le32 (Store.set (Store.set _ _ _) d.indexBlock _ bno) (4 * i) = 0
    rw [init.index] at happart ⊢
    rw [set_of_ne _ _ happart, set_self, fill_block_zero _ hi]
  · intro b hb hbd
    change Store.set (Store.set w₁.disk _ _) d.indexBlock _ b = _
    rw [set_of_ne _ _ hbd, init.index, set_of_ne _ _ hb, new.disk]
  · change Store.set _ d.indexBlock _ d.indexBlock = _
    have hblock : (w₁.setBlock node.indexBlock
        (fill (w₁.disk node.indexBlock) 0 blockSize 0)).disk d.indexBlock = w.disk d.indexBlock :=
      (set_of_ne _ _ happart.symm).trans (by rw [new.disk])
    rw [set_self, hblock]

/-- The new inode is the only one under its number, and holds one block. -/
theorem Created.holds_eq {dir ino bno mode : Nat} {d : Inode} (c : Created w dir d ino bno mode w') :
    InUse w'.sbi ino ∧ live w ino = none ∧ holds w' ino = [bno] := by
  obtain ⟨w₁, new, sbi⟩ := c.new
  obtain ⟨node, init, own⟩ := c.own
  have hin : InUse w'.sbi ino := by
    rw [sbi]
    refine ⟨new.pos, by rw [new.layout.nrInodes]; exact new.lt, ?_⟩
    rw [new.inodes, clearBit_self]
  have hout : live w ino = none := by
    refine if_neg fun hin => ?_
    have := hin.2.2
    rw [new.was_free] at this
    cases this
  have hentries : numbers (w'.ctx node calmIo).entries = [] := by
    unfold Ctx.entries
    change numbers ((List.range (node.iBlocks - 1)).map _) = []
    rw [init.iBlocks]
    rfl
  refine ⟨hin, hout, ?_⟩
  rw [holds_live (live_eq_some.mpr ⟨hin, own⟩), nodeBlocks, hentries, init.index]
  split <;> rfl

/-- A new regular file has an empty index. -/
theorem Created.shape {dir ino bno mode : Nat} {d node : Inode}
    (c : Created w dir d ino bno mode w') (init : Initial mode bno node) :
    Shape (w'.ctx node calmIo) [] := by
  refine ⟨by simp, ?_, init.iBlocks, by simp, by simp⟩
  intro i hi
  change le32 (w'.disk node.indexBlock) (4 * i) = _
  rw [init.index, c.scrubbed i hi]
  rfl

theorem created_inv (h : WorldInv w) {ino bno mode dir : Nat} {d : Inode}
    (c : Created w dir d ino bno mode w') (parent : LiveDir w dir d) : WorldInv w' := by
  obtain ⟨hin, hout, hholds⟩ := c.holds_eq
  obtain ⟨w₁, new, sbi⟩ := c.new
  obtain ⟨node, init, own⟩ := c.own
  have hl : live w' ino = some node := live_eq_some.mpr ⟨hin, own⟩
  refine h.change ino (sbi ▸ new.layout) (sbi ▸ new.blocks h.blocks) ?_ (fun _ => ⟨node, own⟩) ?_
    (fun _ hno _ => absurd hin hno) ?_ ?_ ?_
  · intro j hj
    have hbit : w'.sbi.ifreeBitmap j = w.sbi.ifreeBitmap j := by
      rw [sbi, new.inodes, clearBit_of_ne _ hj]
    refine untouched_of_parent h parent c.up (inUse_congr (sbi ▸ new.layout) hbit) (c.others j hj) ?_
    intro n hc hne
    refine c.frame _ ?_ hne
    rintro rfl
    have hnfree := (h.index_apart hj hc).2
    rw [new.bno_free] at hnfree
    cases hnfree
  · intro n hn
    obtain rfl : node = n := Option.some.inj (hl.symm.trans hn)
    refine ⟨by rw [init.dir, init.reg]; exact new.type, fun reg => ⟨[], c.shape init, ?_⟩⟩
    apply init.empty
    rw [init.reg] at reg
    by_contra hd
    rw [sIsreg_of_sIsdir (by simpa using hd)] at reg
    cases reg
  · rw [hholds]
    exact List.nodup_singleton bno
  · rw [hholds]
    intro b hb
    rw [List.mem_singleton.mp hb]
    exact Or.inr ⟨new.bno_lt, new.bno_free⟩
  · intro b
    rw [hholds, holds_none hout, sbi, new.bitmap, List.mem_singleton]
    by_cases hb : b = bno
    · rw [hb, clearBit_self]
      simp
    · rw [clearBit_of_ne _ hb]
      simp [hb]

theorem ouichefsCreate_inv (h : WorldInv w) {who : Caller} {io : Io} {dir : Nat} {d : Inode}
    {name : List Byte} {mode : Nat} {r : World × Int} (parent : LiveDir w dir d)
    (reads : io.NoReadFails) (run : ouichefsCreate w who io dir name mode = some r) :
    WorldInv r.1 := by
  rcases ouichefsCreate_cases parent (h.used (index_mem_holds parent.live)).1.taken run with
    ⟨_, _, habandoned⟩ | ⟨_, ino, bno, hc, _⟩
  · exact (habandoned (reads 2)).inv h
  · exact created_inv h hc parent

/-! ## Removal -/

/-- The blocks named by the entries `D` from slot `i` on are given back. -/
theorem putBlocksLoop_spec (bno : Nat) (ok : Nat → Bool) (D : List Word) :
    ∀ (i : Nat) (w : World), (∀ k, k < D.length → le32 (w.disk bno) (4 * (i + k)) = D[k]?.getD 0) →
      (∀ e ∈ D, e ≠ 0) → bno ∉ numbers D → (∀ b ∈ numbers D, b ≤ w.sbi.nrBlocks) →
      Released w.sbi (putBlocksLoop bno ok D.length i w).sbi (numbers D) ∧
      (∀ b, b ∉ numbers D → (putBlocksLoop bno ok D.length i w).disk b = w.disk b) ∧
      (putBlocksLoop bno ok D.length i w).icache = w.icache := by
  induction D with
  | nil =>
    intro i w _ _ _ _
    exact ⟨Released.nil w.sbi, fun _ _ => rfl, rfl⟩
  | cons e D ih =>
    intro i w hwords hne hbno hrange
    have he : le32 (w.disk bno) (4 * i) = e := by simpa using hwords 0 (by simp)
    simp only [numbers_cons, List.mem_cons, not_or] at hbno
    have hgiven := putBlock_given (hrange (getBlockNumber e) (by simp))
    obtain ⟨v, hv⟩ : ∃ v, v = if ok i = false then
      { w with sbi := putBlock w.sbi (getBlockNumber e) } else
      World.setBlock { w with sbi := putBlock w.sbi (getBlockNumber e) } (getBlockNumber e)
        (fill (w.disk (getBlockNumber e)) 0 blockSize 0) := ⟨_, rfl⟩
    have hvs : v.sbi = putBlock w.sbi (getBlockNumber e) := by
      rw [hv]
      split <;> rfl
    have hvc : v.icache = w.icache := by
      rw [hv]
      split <;> rfl
    have hvd : ∀ b, b ≠ getBlockNumber e → v.disk b = w.disk b := by
      intro b hb
      rw [hv]
      split
      · rfl
      · exact set_of_ne _ _ hb
    have hrun : putBlocksLoop bno ok (e :: D).length i w = putBlocksLoop bno ok D.length (i + 1) v := by
      rw [List.length_cons, putBlocksLoop]
      simp only [he, if_neg (hne e (by simp))]
      rw [hv]
      split <;> rfl
    obtain ⟨hrel, hdisk, hcache⟩ := ih (i + 1) v
      (by
        intro k hk
        rw [hvd bno hbno.1, show i + 1 + k = i + (k + 1) by omega, hwords (k + 1) (by simpa using hk)]
        rfl)
      (fun f hf => hne f (by simp [hf])) hbno.2
      (by
        intro b hb
        rw [hvs, hgiven.layout.nrBlocks]
        exact hrange b (by simp [hb]))
    rw [hrun]
    refine ⟨Released.cons hgiven (hvs ▸ hrel), ?_, hcache.trans hvc⟩
    intro b hb
    simp only [numbers_cons, List.mem_cons, not_or] at hb
    rw [hdisk b hb.2, hvd b hb.1]

/-- The blocks of the inode `ino` as its removal finds them. -/
structure Removable (w : World) (ino : Nat) (node : Inode) (data : List Nat) : Prop where
  holds : holds w ino = node.indexBlock :: data
  range : ∀ b ∈ node.indexBlock :: data, b ≤ w.sbi.nrBlocks
  index : (sIsdir node.iMode = true ∧ data = []) ∨
    (sIsdir node.iMode = false ∧ ∃ es, Shape (w.ctx node calmIo) es ∧ (∀ e ∈ es, e ≠ 0) ∧
      data = numbers es)

/-- The data blocks an inode gives back when it is removed: all of them, or none
if the index block cannot be read. -/
theorem scrubBlocks_spec {ino : Nat} {node : Inode} {data : List Nat} (h : Removable w ino node data)
    (io : Io) : ∃ freed, (freed = data ∨ (io.bread 1 = false ∧ freed = [])) ∧
      Released w.sbi (scrubBlocks w io node).sbi freed ∧
      (∀ b, b ≠ node.indexBlock → b ∉ data → (scrubBlocks w io node).disk b = w.disk b) ∧
      (scrubBlocks w io node).icache = w.icache := by
  unfold scrubBlocks
  simp only
  split
  · rename_i hfails
    exact ⟨[], Or.inr ⟨hfails, rfl⟩, Released.nil w.sbi, fun _ _ _ => rfl, rfl⟩
  refine ⟨data, Or.inl rfl, ?_⟩
  rcases h.index with ⟨hdir, rfl⟩ | ⟨hdir, es, hshape, hne, rfl⟩
  · rw [if_pos hdir]
    exact ⟨Released.nil w.sbi, fun b hb _ => set_of_ne _ _ hb, rfl⟩
  · have hl := hshape.length_le
    have hib : node.iBlocks = es.length + 1 := hshape.iBlocks
    have hcount : u64 ((node.iBlocks : Int) - 1) = es.length := by
      rw [u64_pred (by omega) (by omega)]
      omega
    rw [if_neg (by rw [hdir]; simp), hcount]
    obtain ⟨hrel, hdisk, hcache⟩ := putBlocksLoop_spec node.indexBlock
      (fun i => io.bread (i + 2)) es 0 w
      (fun k hk => by rw [Nat.zero_add]; exact hshape.slots k (by omega)) hne hshape.apart
      (fun b hb => h.range b (List.mem_cons_of_mem _ hb))
    refine ⟨hrel, ?_, hcache⟩
    intro b hb hnot
    exact (set_of_ne _ _ hb).trans (hdisk b hnot)

/-- The inode `ino` has gone and the blocks `freed` have been given back; of the
others only the block and the inode of `dir` have changed. -/
structure Removed (w : World) (dir : Nat) (d : Inode) (ino : Nat) (freed : List Nat) (w' : World) :
    Prop where
  released : ∃ sbi, Released w.sbi sbi freed ∧ SameBlocks sbi w'.sbi ∧
    w'.sbi.ifreeBitmap = setBit sbi.ifreeBitmap ino
  gone : ∃ node, w'.icache ino = some (cleanInode node)
  up : ∃ d', w'.icache dir = some d' ∧ Refreshed d d'
  others : ∀ j, j ≠ ino → j ≠ dir → w'.icache j = w.icache j
  frame : ∀ b, b ∉ holds w ino → b ≠ d.indexBlock → w'.disk b = w.disk b

/-- What a call of `ouichefs_unlink` can do, whichever reads fail. -/
theorem ouichefsUnlink_cases {io : Io} {dir ino : Nat} {d node : Inode} {data : List Nat}
    {r : World × Int} (parent : LiveDir w dir d) (own : live w ino = some node) (ne : ino ≠ dir)
    (apart : node.indexBlock ≠ d.indexBlock) (h : Removable w ino node data)
    (run : ouichefsUnlink w io dir ino = some r) :
    (r.1 = w ∧ io.bread 0 = false) ∨ ∃ freed, (freed = data ∨ (io.bread 1 = false ∧ freed = [])) ∧
      Removed w dir d ino (freed ++ [node.indexBlock]) r.1 := by
  have hd := (live_eq_some.mp parent.live).2
  obtain ⟨hin, hc⟩ := live_eq_some.mp own
  unfold ouichefsUnlink at run
  simp only [hd, hc, Option.bind_some] at run
  split at run
  · rename_i hfails
    cases run
    exact Or.inl ⟨rfl, hfails⟩
  split at run
  · cases run
  rename_i fId nrSubs _
  cases run
  right
  obtain ⟨w₂, hw₂⟩ : ∃ w₂, w₂ = (w.setBlock d.indexBlock
      (removeSub (w.disk d.indexBlock) fId nrSubs)).modify dir (fun d => { d with
    iMtime := io.now, iAtime := io.now, iCtime := io.now
    iNlink := if sIsdir node.iMode then u32 ((d.iNlink : Int) - 1) else d.iNlink }) := ⟨_, rfl⟩
  rw [← hw₂]
  have hsbi₂ : w₂.sbi = w.sbi := by rw [hw₂]; rfl
  have hdisk₂ : ∀ b, b ≠ d.indexBlock → w₂.disk b = w.disk b := by
    intro b hb
    rw [hw₂]
    exact set_of_ne _ _ hb
  have hdir₂ : ∃ d', w₂.icache dir = some d' ∧ Refreshed d d' := by
    rw [hw₂]
    exact ⟨_, modify_self _ hd, rfl, rfl, rfl, rfl⟩
  have hcache₂ : ∀ j, j ≠ dir → w₂.icache j = w.icache j := by
    intro j hj
    rw [hw₂, modify_of_ne _ _ hj]
    rfl
  -- the blocks of the inode are where they were
  have hsame : SameFile w w₂ node node := ⟨rfl, rfl, rfl, rfl, fun _ => hdisk₂ _ apart⟩
  have hl₂ : live w₂ ino = some node :=
    live_eq_some.mpr ⟨by rw [hsbi₂]; exact hin, (hcache₂ ino ne).trans hc⟩
  have h₂ : Removable w₂ ino node data := by
    refine ⟨?_, by rw [hsbi₂]; exact h.range, ?_⟩
    · rw [holds_live hl₂, hsame.nodeBlocks_eq, ← holds_live own]
      exact h.holds
    · rcases h.index with hdir | ⟨hdir, es, hshape, hrest⟩
      · exact Or.inl hdir
      · refine Or.inr ⟨hdir, es, hshape.congr (fun i _ => ?_) rfl rfl, hrest⟩
        exact @blocks_congr (w.ctx node calmIo) (w₂.ctx node calmIo) rfl (hdisk₂ _ apart) i
  obtain ⟨freed, hfreed, hrel, hframe, hcache₃⟩ := scrubBlocks_spec h₂ io
  obtain ⟨w₃, hw₃⟩ : ∃ w₃, w₃ = scrubBlocks w₂ io node := ⟨_, rfl⟩
  rw [← hw₃] at hrel hframe hcache₃ ⊢
  rw [hsbi₂] at hrel
  have hidx : node.indexBlock ≤ w₃.sbi.nrBlocks := by
    rw [hrel.layout.nrBlocks]
    exact h.range _ List.mem_cons_self
  have hall := hrel.append (Released.cons (putBlock_given hidx) (Released.nil _))
  obtain ⟨hput, hset⟩ := @putInode_spec (putBlock w₃.sbi node.indexBlock) ino (by
    rw [hall.layout.nrInodes]
    exact Nat.le_of_lt hin.2.1)
  refine ⟨freed, hfreed, ⟨_, hall, hput, hset⟩, ?_, ?_, ?_, ?_⟩
  · refine ⟨node, modify_self _ ?_⟩
    rw [hcache₃, hcache₂ ino ne, hc]
  · obtain ⟨d', hd', hfresh⟩ := hdir₂
    refine ⟨d', ?_, hfresh⟩
    refine (modify_of_ne _ _ ne.symm).trans ?_
    rw [hcache₃, hd']
  · intro j hj hjd
    refine (modify_of_ne _ _ hj).trans ?_
    rw [hcache₃, hcache₂ j hjd]
  · intro b hb hbd
    rw [h.holds, List.mem_cons, not_or] at hb
    change w₃.disk b = _
    rw [hframe b hb.1 hb.2, hdisk₂ b hbd]

theorem Removed.layout {dir ino : Nat} {d : Inode} {freed : List Nat}
    (r : Removed w dir d ino freed w') : SameLayout w.sbi w'.sbi := by
  obtain ⟨sbi, released, blocks, _⟩ := r.released
  exact released.layout.trans blocks.layout

theorem Removed.not_inUse {dir ino : Nat} {d : Inode} {freed : List Nat}
    (r : Removed w dir d ino freed w') : ¬ InUse w'.sbi ino := by
  obtain ⟨sbi, _, _, inodes⟩ := r.released
  rintro ⟨_, _, hbit⟩
  rw [inodes, setBit_self] at hbit
  cases hbit

theorem Removed.inUse_iff {dir ino j : Nat} {d : Inode} {freed : List Nat}
    (r : Removed w dir d ino freed w') (ne : j ≠ ino) : InUse w'.sbi j ↔ InUse w.sbi j := by
  obtain ⟨sbi, released, _, inodes⟩ := r.released
  refine inUse_congr r.layout ?_
  rw [inodes, setBit_of_ne _ ne, released.inodes.1]

theorem removed_inv (h : WorldInv w) {ino dir : Nat} {d : Inode} {freed : List Nat}
    (parent : LiveDir w dir d) (all : freed.Perm (holds w ino)) (r : Removed w dir d ino freed w') :
    WorldInv w' := by
  obtain ⟨sbi, released, blocks, _⟩ := r.released
  have hnone : live w' ino = none := if_neg r.not_inUse
  have hok : BlocksOk sbi := released.blocksOk h.blocks (all.nodup_iff.mpr (h.ledger.nodup ino))
    (fun b hb => (h.used (all.mem_iff.mp hb)).1)
  refine h.change ino r.layout (blocks.blocksOk hok) ?_ (fun hin => absurd hin r.not_inUse)
    ?_ ?_ ?_ ?_ ?_
  · intro j hj
    refine untouched_of_parent h parent r.up (r.inUse_iff hj) (r.others j hj) ?_
    exact fun n hc => r.frame _ (h.index_apart hj hc).1
  · intro n hn
    rw [hnone] at hn
    cases hn
  · intro n _ hc
    obtain ⟨node, hnode⟩ := r.gone
    obtain rfl : cleanInode node = n := Option.some.inj (hnode.symm.trans hc)
    exact ⟨rfl, rfl⟩
  · rw [holds_none hnone]
    exact List.nodup_nil
  · rw [holds_none hnone]
    intro b hb
    cases hb
  · intro b
    rw [holds_none hnone, blocks.bitmap, released.bitmap b, Bool.or_eq_true, decide_eq_true_iff,
      all.mem_iff]
    simp

theorem WorldInv.removable (h : WorldInv w) {ino : Nat} {node : Inode}
    (own : live w ino = some node) : ∃ data, Removable w ino node data := by
  have hrange : ∀ b ∈ holds w ino, b ≤ w.sbi.nrBlocks := fun b hb =>
    Nat.le_of_lt (h.used hb).1.lt
  by_cases hdir : sIsdir node.iMode = true
  · have hholds : holds w ino = [node.indexBlock] := by
      rw [holds_live own, nodeBlocks, sIsreg_of_sIsdir hdir]
      rfl
    exact ⟨[], hholds, hholds ▸ hrange, Or.inl ⟨hdir, rfl⟩⟩
  · have hreg := (h.sound ino node own).type.resolve_left hdir
    obtain ⟨es, hinv, hholds⟩ := h.fileInv own hreg calmIo
    exact ⟨numbers es, hholds, hholds ▸ hrange, Or.inr ⟨by simpa using hdir, es, hinv.shape,
      hinv.held.nonzero, rfl⟩⟩

theorem ouichefsUnlink_inv (h : WorldInv w) {io : Io} {dir ino : Nat} {d node : Inode}
    {r : World × Int} (parent : LiveDir w dir d) (own : live w ino = some node) (ne : ino ≠ dir)
    (reads : io.NoReadFails) (run : ouichefsUnlink w io dir ino = some r) : WorldInv r.1 := by
  have happart : node.indexBlock ≠ d.indexBlock := by
    intro heq
    exact h.ledger.not_mem ne (index_mem_holds own) (heq ▸ index_mem_holds parent.live)
  obtain ⟨data, hrem⟩ := WorldInv.removable h own
  rcases ouichefsUnlink_cases parent own ne happart hrem run with ⟨hsame, _⟩ | ⟨freed, hfreed, hr⟩
  · rw [hsame]
    exact h
  · obtain rfl : freed = data := by
      refine hfreed.resolve_right ?_
      rintro ⟨hfails, _⟩
      rw [reads 1] at hfails
      cases hfails
    refine removed_inv h parent ?_ hr
    rw [hrem.holds]
    exact List.perm_append_singleton _ _

/-- A directory does not contain itself: an empty one names no inode. -/
theorem ouichefsRmdir_inv (h : WorldInv w) {io : Io} {dir ino : Nat} {d node : Inode}
    {r : World × Int} (parent : LiveDir w dir d) (own : live w ino = some node)
    (reads : io.NoReadFails) (run : ouichefsRmdir w io dir ino = some r) : WorldInv r.1 := by
  obtain ⟨hin, hc⟩ := live_eq_some.mp own
  unfold ouichefsRmdir at run
  rw [hc, Option.bind_some] at run
  split at run
  · cases run
    exact h
  rw [if_neg (by rw [reads 0]; simp)] at run
  split at run
  · cases run
    exact h
  rename_i hempty
  by_cases hne : ino = dir
  · subst hne
    obtain rfl : d = node := Option.some.inj ((live_eq_some.mp parent.live).2.symm.trans hc)
    have hnone : findSubLoop (w.disk d.indexBlock) ino maxSubfiles 0 none = (none, 0) := by
      rw [maxSubfiles, findSubLoop, if_neg (by rw [not_not.mp hempty]; exact hin.1.ne),
        if_pos (not_not.mp hempty)]
    unfold ouichefsUnlink at run
    simp only [hc, Option.bind_some, reads 1, Bool.true_eq_false, if_false, hnone] at run
    cases run
  · exact ouichefsUnlink_inv h parent own hne (fun n => reads (n + 1)) run

end

end Lifecycle
