import OuicheFs.VolumeRun

/-!
# The counter of free inodes

`mkfs` counts one inode as used, but clears the bits of inodes 0 and 1. The
kernel moves counter and bitmap in step, so the counter stays one too high.
-/
namespace InodeCount

open CInt Bits ByteBuffer Allocator FileContext OuicheInode OuicheSuper Mkfs Ownership Lifecycle
  VolumeRun

/-- One operation on the inodes of a mounted volume, with any outcome of its
disk reads. -/
inductive NodeStep : World → World → Prop
  | create (w : World) (who : Caller) (io : Io) (dir : Nat) (d : Inode) (name : List Byte)
      (mode : Nat) (r : World × Int) :
      LiveDir w dir d → ouichefsCreate w who io dir name mode = some r → NodeStep w r.1
  | mkdir (w : World) (who : Caller) (io : Io) (dir : Nat) (d : Inode) (name : List Byte)
      (mode : Nat) (r : World × Int) :
      LiveDir w dir d → ouichefsMkdir w who io dir name mode = some r → NodeStep w r.1
  | unlink (w : World) (io : Io) (dir ino : Nat) (d node : Inode) (r : World × Int) :
      LiveDir w dir d → live w ino = some node → sIsreg node.iMode = true →
      ouichefsUnlink w io dir ino = some r → NodeStep w r.1
  | rmdir (w : World) (io : Io) (dir ino : Nat) (d node : Inode) (r : World × Int) :
      LiveDir w dir d → live w ino = some node → sIsdir node.iMode = true →
      ouichefsRmdir w io dir ino = some r → NodeStep w r.1

/-- The counter is one more than the number of free inodes. -/
structure OneTooMany (sbi : SbInfo) : Prop where
  zero_used : sbi.ifreeBitmap 0 = false
  range : sbi.nrInodes < 4294967295
  counter : sbi.nrFreeInodes = popcount sbi.ifreeBitmap sbi.nrInodes + 1

/-- The inode half of the superblock information is the same. -/
structure SameInodes (a b : SbInfo) : Prop where
  nrInodes : b.nrInodes = a.nrInodes
  bitmap : b.ifreeBitmap = a.ifreeBitmap
  count : b.nrFreeInodes = a.nrFreeInodes

theorem SameInodes.trans {a b c : SbInfo} (h : SameInodes a b) (h' : SameInodes b c) :
    SameInodes a c :=
  ⟨h'.nrInodes.trans h.nrInodes, h'.bitmap.trans h.bitmap, h'.count.trans h.count⟩

theorem SameInodes.oneTooMany {a b : SbInfo} (h : SameInodes a b) (o : OneTooMany a) :
    OneTooMany b := by
  constructor
  · rw [h.bitmap]
    exact o.zero_used
  · rw [h.nrInodes]
    exact o.range
  · rw [h.count, h.bitmap, h.nrInodes]
    exact o.counter

theorem getFreeBlock_sameInodes (sbi : SbInfo) : SameInodes sbi (getFreeBlock sbi).2 := by
  unfold getFreeBlock
  simp only
  split <;> exact ⟨rfl, rfl, rfl⟩

theorem putBlock_sameInodes (sbi : SbInfo) (bno : Nat) : SameInodes sbi (putBlock sbi bno) := by
  unfold putBlock
  split <;> exact ⟨rfl, rfl, rfl⟩

/-- A number is taken: the bit and the counter go down by one. -/
theorem getFreeInode_oneTooMany {sbi : SbInfo} (o : OneTooMany sbi) :
    OneTooMany (getFreeInode sbi).2 ∧ (getFreeInode sbi).2.nrInodes = sbi.nrInodes ∧
      ((getFreeInode sbi).1 ≠ 0 → (getFreeInode sbi).1 < sbi.nrInodes ∧
        (getFreeInode sbi).2.ifreeBitmap (getFreeInode sbi).1 = false) := by
  obtain ⟨hsame, hget⟩ := getFreeInode_spec sbi
  have hinodes := hsame.layout.nrInodes
  rcases hget with ⟨hnone, _⟩ | ⟨hpos, hlt, hset, hbitmap⟩
  · rw [getFreeInode_fails o.zero_used hnone]
    exact ⟨o, rfl, fun hsome => absurd hnone hsome⟩
  have hclear := popcount_clearBit hlt hset
  have hbound := popcount_le sbi.ifreeBitmap sbi.nrInodes
  have hrange := o.range
  have hcounter := o.counter
  refine ⟨⟨?_, ?_, ?_⟩, hinodes, fun _ => ⟨hlt, ?_⟩⟩
  · rw [hbitmap, clearBit_of_ne _ (Nat.ne_of_lt hpos)]
    exact o.zero_used
  · rw [hinodes]
    exact hrange
  · rw [getFreeInode_count (Nat.ne_of_gt hpos), hbitmap, hinodes, u32_pred (by omega) (by omega)]
    omega
  · rw [hbitmap, clearBit_self]

/-- A number in use is given back. -/
theorem putInode_oneTooMany {sbi : SbInfo} {ino : Nat} (o : OneTooMany sbi) (pos : 0 < ino)
    (lt : ino < sbi.nrInodes) (used : sbi.ifreeBitmap ino = false) :
    OneTooMany (putInode sbi ino) := by
  have hput : putInode sbi ino = { sbi with
      ifreeBitmap := setBit sbi.ifreeBitmap ino
      nrFreeInodes := u32 ((sbi.nrFreeInodes : Int) + 1) } := by
    simp [putInode, putFreeBit, Nat.not_lt.mpr (Nat.le_of_lt lt)]
  rw [hput]
  have hset := popcount_setBit lt used
  have hbound := popcount_le (setBit sbi.ifreeBitmap ino) sbi.nrInodes
  have hrange := o.range
  have hcounter := o.counter
  refine ⟨?_, hrange, ?_⟩
  · change setBit sbi.ifreeBitmap ino 0 = false
    rw [setBit_of_ne _ (by omega)]
    exact o.zero_used
  · simp only
    unfold u32
    omega

section

variable {w w' : World}

theorem ouichefsIget_sbi {who : Caller} {ok : Bool} {ino : Nat}
    (run : ouichefsIget w who ok ino = .ok w') : w'.sbi = w.sbi := by
  unfold ouichefsIget at run
  simp only at run
  split at run
  · cases run
  split at run
  · cases run
  split at run
  · cases run
    rfl
  split at run
  · cases run
  · cases run
    rfl

/-- The number of a new inode is in use; without a new inode nothing is. -/
theorem ouichefsNewInode_oneTooMany (who : Caller) (io : Io) (d : Inode) (mode : Nat)
    (o : OneTooMany w.sbi) :
    OneTooMany (ouichefsNewInode w who io d mode).1.sbi ∧
      ∀ ino, (ouichefsNewInode w who io d mode).2 = .ok ino → 0 < ino ∧
        ino < (ouichefsNewInode w who io d mode).1.sbi.nrInodes ∧
        (ouichefsNewInode w who io d mode).1.sbi.ifreeBitmap ino = false := by
  unfold ouichefsNewInode
  split
  · exact ⟨o, fun ino h => by cases h⟩
  split
  · exact ⟨o, fun ino h => by cases h⟩
  obtain ⟨hget, hnr, htaken⟩ := getFreeInode_oneTooMany o
  obtain ⟨r, hr⟩ : ∃ r, r = getFreeInode w.sbi := ⟨_, rfl⟩
  rw [← hr] at hget hnr htaken
  simp only [← hr]
  split
  · exact ⟨hget, fun ino h => by cases h⟩
  rename_i hne
  obtain ⟨hlt, hclear⟩ := htaken hne
  have hpos : 0 < r.1 := Nat.pos_of_ne_zero hne
  rw [← hnr] at hlt
  split
  · exact ⟨putInode_oneTooMany hget hpos hlt hclear, fun ino h => by cases h⟩
  rename_i w₁ higet
  have hsbi : w₁.sbi = r.2 := ouichefsIget_sbi higet
  have hsame := getFreeBlock_sameInodes w₁.sbi
  rw [hsbi] at hsame
  split
  · refine ⟨?_, fun ino h => by cases h⟩
    have hblock : OneTooMany (getFreeBlock w₁.sbi).2 := by
      rw [hsbi]
      exact hsame.oneTooMany hget
    refine putInode_oneTooMany hblock hpos ?_ ?_
    · rw [hsbi, hsame.nrInodes]
      exact hlt
    · rw [hsbi, hsame.bitmap]
      exact hclear
  · constructor
    · change OneTooMany (getFreeBlock w₁.sbi).2
      rw [hsbi]
      exact hsame.oneTooMany hget
    · rintro ino ⟨⟩
      change 0 < r.1 ∧ r.1 < (getFreeBlock w₁.sbi).2.nrInodes ∧
        (getFreeBlock w₁.sbi).2.ifreeBitmap r.1 = false
      rw [hsbi, hsame.nrInodes, hsame.bitmap]
      exact ⟨hpos, hlt, hclear⟩

theorem ouichefsCreate_oneTooMany {who : Caller} {io : Io} {dir mode : Nat} {name : List Byte}
    {r : World × Int} (o : OneTooMany w.sbi)
    (run : ouichefsCreate w who io dir name mode = some r) : OneTooMany r.1.sbi := by
  obtain ⟨d, _, hexits⟩ := ouichefsCreate_exits run
  obtain ⟨hnew, hino⟩ := ouichefsNewInode_oneTooMany who io d mode o
  rcases hexits with ⟨hw, _⟩ | ⟨ret, hq, _⟩ | ⟨w₁, ino, node, hq, _, hend⟩
  · rw [hw]
    exact o
  · rw [hq] at hnew
    exact hnew
  rw [hq] at hnew hino
  obtain ⟨hpos, hlt, hclear⟩ := hino ino rfl
  rcases hend with ⟨_, hr⟩ | ⟨_, hr⟩
  · rw [hr]
    have hsame := putBlock_sameInodes w₁.sbi node.indexBlock
    refine putInode_oneTooMany (hsame.oneTooMany hnew) hpos ?_ ?_
    · rw [hsame.nrInodes]
      exact hlt
    · rw [hsame.bitmap]
      exact hclear
  · rw [hr]
    exact hnew

theorem putBlocksLoop_sameInodes (bno : Nat) (ok : Nat → Bool) (n : Nat) : ∀ (i : Nat) (w : World),
    SameInodes w.sbi (putBlocksLoop bno ok n i w).sbi := by
  induction n with
  | zero => exact fun _ _ => ⟨rfl, rfl, rfl⟩
  | succ n ih =>
    intro i w
    rw [putBlocksLoop]
    simp only
    split
    · exact ih (i + 1) w
    split
    · refine SameInodes.trans ?_ (ih (i + 1) _)
      exact putBlock_sameInodes _ _
    · refine SameInodes.trans ?_ (ih (i + 1) _)
      exact putBlock_sameInodes _ _

theorem scrubBlocks_sameInodes (w : World) (io : Io) (inode : Inode) :
    SameInodes w.sbi (scrubBlocks w io inode).sbi := by
  unfold scrubBlocks
  simp only
  split
  · exact ⟨rfl, rfl, rfl⟩
  split
  · exact ⟨rfl, rfl, rfl⟩
  · exact putBlocksLoop_sameInodes _ _ _ _ _

theorem ouichefsUnlink_oneTooMany {io : Io} {dir ino : Nat} {node : Inode} {r : World × Int}
    (o : OneTooMany w.sbi) (own : live w ino = some node)
    (run : ouichefsUnlink w io dir ino = some r) : OneTooMany r.1.sbi := by
  obtain ⟨⟨hpos, hlt, hclear⟩, _⟩ := live_eq_some.mp own
  unfold ouichefsUnlink at run
  obtain ⟨d, _, run⟩ := Option.bind_eq_some_iff.mp run
  obtain ⟨inode, _, run⟩ := Option.bind_eq_some_iff.mp run
  split at run
  · cases run
    exact o
  split at run
  · cases run
  rename_i fId nrSubs _
  cases run
  obtain ⟨w₁, hw₁⟩ : ∃ w₁, w₁ = (w.setBlock d.indexBlock
      (removeSub (w.disk d.indexBlock) fId nrSubs)).modify dir (fun d => { d with
        iMtime := io.now, iAtime := io.now, iCtime := io.now
        iNlink := if sIsdir inode.iMode then u32 ((d.iNlink : Int) - 1) else d.iNlink }) := ⟨_, rfl⟩
  have hsbi : w₁.sbi = w.sbi := by
    rw [hw₁]
    rfl
  rw [← hw₁]
  have hsame : SameInodes w.sbi (putBlock (scrubBlocks w₁ io inode).sbi inode.indexBlock) := by
    have hscrub := scrubBlocks_sameInodes w₁ io inode
    rw [hsbi] at hscrub
    exact hscrub.trans (putBlock_sameInodes _ _)
  refine putInode_oneTooMany (hsame.oneTooMany o) hpos ?_ ?_
  · exact hsame.nrInodes ▸ hlt
  · exact (congrFun hsame.bitmap ino).trans hclear

theorem ouichefsRmdir_oneTooMany {io : Io} {dir ino : Nat} {node : Inode} {r : World × Int}
    (o : OneTooMany w.sbi) (own : live w ino = some node)
    (run : ouichefsRmdir w io dir ino = some r) : OneTooMany r.1.sbi := by
  unfold ouichefsRmdir at run
  obtain ⟨inode, _, run⟩ := Option.bind_eq_some_iff.mp run
  split at run
  · cases run
    exact o
  split at run
  · cases run
    exact o
  split at run
  · cases run
    exact o
  exact ouichefsUnlink_oneTooMany o own run

theorem NodeStep.oneTooMany (o : OneTooMany w.sbi) (step : NodeStep w w') :
    OneTooMany w'.sbi := by
  cases step with
  | create who io dir d name mode r _ run => exact ouichefsCreate_oneTooMany o run
  | mkdir who io dir d name mode r _ run => exact ouichefsCreate_oneTooMany o run
  | unlink io dir ino d node r _ own _ run => exact ouichefsUnlink_oneTooMany o own run
  | rmdir io dir ino d node r _ own _ run => exact ouichefsRmdir_oneTooMany o own run

theorem run_oneTooMany (o : OneTooMany w.sbi) (run : Relation.ReflTransGen NodeStep w w') :
    OneTooMany w'.sbi := by
  induction run with
  | refl => exact o
  | tail _ step ih => exact step.oneTooMany ih

end

/-- The counter that `mkfs` writes does not fit the bitmap that it writes. -/
theorem formatted_oneTooMany {ok : Nat → Bool} {stSize : Nat} {disk image : Store} {who : Caller}
    {readable : Nat → Bool} {memory : Fin 4 → Bool} {w : World}
    (formatted : mkfs ok stSize disk = some image)
    (mount : ouichefsFillSuper image who readable memory = .ok w) : OneTooMany w.sbi := by
  obtain ⟨fits, hzero, _⟩ := mkfs_formatted formatted
  have c := superblockOf_counts fits
  have hlt := c.nrBlocks_lt
  have hn := c.inodes
  obtain ⟨hsbi, _, hroot, _⟩ := ouichefsFillSuper_ok mount
  obtain ⟨_, h2, _, _, _, h6, _⟩ := csb_formatted fits hzero
  have m := mounted formatted mount
  have hfree : w.sbi.nrFreeInodes = (superblockOf stSize).nrFreeInodes := by
    rw [hsbi]
    exact h6
  have hdef : (superblockOf stSize).nrFreeInodes =
    u32 (((superblockOf stSize).nrInodes : Int) - 1) := rfl
  constructor
  · rw [m.ifreeBitmap 0 (by omega)]
    rfl
  · rw [m.nrInodes]
    omega
  · rw [hfree, hdef, u32_pred (by omega) (by omega), m.nrInodes, popcount_above m.ifreeBitmap]
    omega

/-- On every formatted volume, in every state reached, `statfs` reports one
inode more than is free. -/
theorem statfs_one_too_many (ok : Nat → Bool) (stSize : Nat) (disk image : Store) (who : Caller)
    (readable : Nat → Bool) (memory : Fin 4 → Bool) (w₀ w : World)
    (formatted : mkfs ok stSize disk = some image)
    (mount : ouichefsFillSuper image who readable memory = .ok w₀)
    (run : Relation.ReflTransGen NodeStep w₀ w) :
    w.sbi.nrFreeInodes ≠ popcount w.sbi.ifreeBitmap w.sbi.nrInodes ∧
      (ouichefsStatfs w.sbi).fFfree = popcount w.sbi.ifreeBitmap w.sbi.nrInodes + 1 := by
  have h := (run_oneTooMany (formatted_oneTooMany formatted mount) run).counter
  refine ⟨?_, h⟩
  rw [h]
  omega

/-- A new volume of 100 blocks, after the creation of one file. -/
theorem statfs_one_too_many_created : ∃ w, live w 2 ≠ none ∧
    w.sbi.nrFreeInodes ≠ popcount w.sbi.ifreeBitmap w.sbi.nrInodes := by
  obtain ⟨image, w₀, d, r, node, himage, hw₀, hdir, hrun, hlive, _⟩ := sampleRun_create
  refine ⟨r.1, by rw [hlive]; simp, ?_⟩
  have hstep := NodeStep.create w₀ _ calmIo 1 d _ _ r hdir hrun
  exact (statfs_one_too_many _ _ _ _ _ _ _ _ _ himage hw₀ (.single hstep)).1

/-- Right after formatting 148 inodes are counted and 147 are free. -/
theorem statfs_not_exact : ¬ ∀ (image : Store) (w : World),
    mkfs (fun _ => true) 409600 (fun _ => zeroBlock) = some image →
    ouichefsFillSuper image ⟨0, 0, true⟩ (fun _ => true) (fun _ => true) = .ok w →
    w.sbi.nrFreeInodes = popcount w.sbi.ifreeBitmap w.sbi.nrInodes := by
  intro hall
  obtain ⟨image, w₀, _, _, _, himage, hw₀, _⟩ := sampleRun_create
  have h := (formatted_oneTooMany himage hw₀).counter
  rw [hall image w₀ himage hw₀] at h
  omega

end InodeCount
