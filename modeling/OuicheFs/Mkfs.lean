import OuicheFs.FileContext

/-!
# mkfs-ouichefs.c

The image is written front to back, one block a call. Whether a call succeeds
is up to the file that holds the image. The loop that clears the bits of the
used blocks supposes that they fit one block; the model stops where it would
write behind the buffer.
-/
namespace Mkfs

open CInt ByteBuffer FileContext

def ouichefsMagic : Nat := 0x48434957

/-- `OUICHEFS_BLOCK_SIZE / sizeof(struct ouichefs_inode)`; the structure has 80
bytes, four of them padding behind `i_ctime`, `i_atime`, `i_mtime` and at the end. -/
def inodesPerBlock : Nat := 51

/-- `struct ouichefs_superblock` without the magic number and the padding. -/
structure Superblock where
  nrBlocks : Nat
  nrInodes : Nat
  nrIstoreBlocks : Nat
  nrIfreeBlocks : Nat
  nrBfreeBlocks : Nat
  nrFreeInodes : Nat
  nrFreeBlocks : Nat

/-- The image while it is written, with the offset of the next block. -/
structure Image where
  disk : Store
  next : Nat

def Image.write (ok : Nat → Bool) (img : Image) (block : Buffer) : Option Image :=
  if ok img.next then some ⟨img.disk.set img.next block, img.next + 1⟩ else none

/-- `n` times the same block. -/
def Image.writeRest (ok : Nat → Bool) (block : Buffer) : Nat → Image → Option Image
  | 0, img => some img
  | n + 1, img => (img.write ok block).bind (Image.writeRest ok block n)

/-- The fields `write_superblock` computes, all of them `uint32_t`. -/
def superblockOf (stSize : Nat) : Superblock :=
  let nrBlocks := u32 (stSize / blockSize : Nat)
  let mod := nrBlocks % inodesPerBlock
  let nrInodes := if mod ≠ 0 then u32 (nrBlocks + mod : Nat) else nrBlocks
  let nrIstoreBlocks := idivCeil nrInodes inodesPerBlock
  let nrIfreeBlocks := idivCeil nrInodes (blockSize * 8)
  let nrBfreeBlocks := idivCeil nrBlocks (blockSize * 8)
  let nrDataBlocks := u32 ((nrBlocks : Int) - 1 - nrIstoreBlocks - nrIfreeBlocks - nrBfreeBlocks)
  { nrBlocks, nrInodes, nrIstoreBlocks, nrIfreeBlocks, nrBfreeBlocks
    nrFreeInodes := u32 ((nrInodes : Int) - 1)
    nrFreeBlocks := u32 ((nrDataBlocks : Int) - 1) }

/-- The words of the superblock; the padding is zero. -/
def superblockWords (sb : Superblock) : List Nat :=
  [ouichefsMagic, sb.nrBlocks, sb.nrInodes, sb.nrIstoreBlocks, sb.nrIfreeBlocks,
    sb.nrBfreeBlocks, sb.nrFreeInodes, sb.nrFreeBlocks]

def superblockBlock (sb : Superblock) : Buffer :=
  ofWords32 (fun i => BitVec.ofNat 32 ((superblockWords sb)[i]?.getD 0))

def writeSuperblock (ok : Nat → Bool) (img : Image) (sb : Superblock) : Option Image :=
  img.write ok (superblockBlock sb)

def zeroBlock : Buffer := fun _ => 0

/-- The number of the root directory's index block. -/
def firstDataBlock (sb : Superblock) : Nat :=
  u32 (1 + sb.nrBfreeBlocks + sb.nrIfreeBlocks + sb.nrIstoreBlocks : Nat)

/-- The words of inode 1, from word 20 on: mode, size, block count, link count
and index block. The owner and the times are zero. -/
def rootInodeBlock (sb : Superblock) : Buffer :=
  ofWords32 (fun i =>
    if i = 20 then 0o040775
    else if i = 23 then BitVec.ofNat 32 blockSize
    else if i = 36 then 1
    else if i = 37 then 2
    else if i = 38 then BitVec.ofNat 32 (firstDataBlock sb)
    else 0)

def writeInodeStore (ok : Nat → Bool) (img : Image) (sb : Superblock) : Option Image :=
  (img.write ok (rootInodeBlock sb)).bind
    (Image.writeRest ok zeroBlock (sb.nrIstoreBlocks - 1))

def onesBlock : Buffer := fun _ => 0xff

def writeIfreeBlocks (ok : Nat → Bool) (img : Image) (sb : Superblock) : Option Image :=
  let first := ofWords (fun i => if i = 0 then 0xfffffffffffffffc else 0xffffffffffffffff)
  (img.write ok first).bind (Image.writeRest ok onesBlock (sb.nrIfreeBlocks - 1))

def allOnes : BitVec 64 := 0xffffffffffffffff

/-- The inner loop over `mask`; the first argument counts the shifts left until
the mask is zero. -/
def maskLoop : Nat → Nat → BitVec 64 → Nat → BitVec 64 × Nat
  | 0, _, line, nrUsed => (line, nrUsed)
  | n + 1, shift, line, nrUsed =>
    let line := line &&& ~~~(1#64 <<< shift)
    let nrUsed := nrUsed - 1
    if nrUsed = 0 then (line, nrUsed) else maskLoop n (shift + 1) line nrUsed

/-- The loop that clears the bits of the used blocks. The first argument counts
the words left in the block; `none` when there is nothing left to write to. -/
def usedLoop : Nat → Nat → Nat → (Nat → BitVec 64) → Option (Nat → BitVec 64)
  | 0, _, nrUsed, bfree => if nrUsed = 0 then some bfree else none
  | n + 1, i, nrUsed, bfree =>
    if nrUsed = 0 then some bfree else
    let r := maskLoop 64 0 allOnes nrUsed
    usedLoop n (i + 1) r.2 (fun k => if k = i then r.1 else bfree k)

def nrUsed (sb : Superblock) : Nat :=
  u32 (sb.nrIstoreBlocks + sb.nrIfreeBlocks + sb.nrBfreeBlocks + 2 : Nat)

def writeBfreeBlocks (ok : Nat → Bool) (img : Image) (sb : Superblock) : Option Image :=
  (usedLoop 512 0 (nrUsed sb) (fun _ => allOnes)).bind fun bfree =>
    (img.write ok (ofWords bfree)).bind (Image.writeRest ok onesBlock (sb.nrBfreeBlocks - 1))

def writeRootIndexBlock (ok : Nat → Bool) (img : Image) : Option Image :=
  img.write ok zeroBlock

/-- The image after a successful run on a file of `stSize` bytes. -/
def mkfs (ok : Nat → Bool) (stSize : Nat) (disk : Store) : Option Store :=
  if stSize < 100 * blockSize then none else
  let sb := superblockOf stSize
  (writeSuperblock ok ⟨disk, 0⟩ sb).bind fun img =>
  (writeInodeStore ok img sb).bind fun img =>
  (writeIfreeBlocks ok img sb).bind fun img =>
  (writeBfreeBlocks ok img sb).bind fun img =>
  (writeRootIndexBlock ok img).map Image.disk

/-! ## The loop over the used blocks -/

theorem maskLoop_spec (n : Nat) : ∀ (shift : Nat) (line : BitVec 64) (used : Nat), 0 < used →
    shift + n ≤ 64 →
    (maskLoop n shift line used).2 = used - n ∧
      ∀ j, (maskLoop n shift line used).1.getLsbD j =
        (line.getLsbD j && !decide (shift ≤ j ∧ j < shift + min n used)) := by
  induction n with
  | zero =>
    intro shift line used _ _
    refine ⟨rfl, ?_⟩
    intro j
    rw [decide_eq_false (by omega : ¬ (shift ≤ j ∧ j < shift + min 0 used))]
    simp [maskLoop]
  | succ n ih =>
    intro shift line used hpos hle
    have hline : ∀ j, (line &&& ~~~(1#64 <<< shift)).getLsbD j =
        (line.getLsbD j && !decide (j = shift)) := by
      intro j
      rcases Nat.lt_or_ge j 64 with hj | hj
      · simp only [BitVec.getLsbD_and, BitVec.getLsbD_not, BitVec.getLsbD_shiftLeft,
          BitVec.getLsbD_one, hj]
        by_cases heq : j = shift
        · subst heq
          simp
        · by_cases hlt : j < shift
          · simp [hlt, heq]
          · have : j - shift ≠ 0 := by omega
            simp [hlt, heq, this]
      · rw [BitVec.getLsbD_of_ge _ _ hj, BitVec.getLsbD_of_ge _ _ hj]
        rfl
    rw [maskLoop]
    split
    · rename_i hlast
      have hone : used = 1 := by omega
      refine ⟨by omega, ?_⟩
      intro j
      rw [hline]
      congr 2
      rw [decide_eq_decide]
      omega
    · rename_i hmore
      obtain ⟨hleft, hbits⟩ := ih (shift + 1) (line &&& ~~~(1#64 <<< shift)) (used - 1)
        (by omega) (by omega)
      refine ⟨by omega, ?_⟩
      intro j
      rw [hbits, hline, Bool.and_assoc]
      congr 1
      rw [← Bool.not_or, ← Bool.decide_or]
      congr 1
      rw [decide_eq_decide]
      omega

theorem allOnes_bit {j : Nat} (h : j < 64) : allOnes.getLsbD j = true := by
  rw [show allOnes = BitVec.allOnes 64 from rfl, BitVec.getLsbD_allOnes]
  exact decide_eq_true h

/-- The loop clears the first `used` bits from word `i` on, if they fit. -/
theorem usedLoop_spec (n : Nat) : ∀ (i used : Nat) (bfree : Nat → BitVec 64),
    (∀ k, i ≤ k → bfree k = allOnes) →
    (64 * n < used → usedLoop n i used bfree = none) ∧
    (used ≤ 64 * n → ∃ ws, usedLoop n i used bfree = some ws ∧
      (∀ k, k < i → ws k = bfree k) ∧
      ∀ k j, i ≤ k → j < 64 → (ws k).getLsbD j = decide (used ≤ 64 * (k - i) + j)) := by
  induction n with
  | zero =>
    intro i used bfree hones
    refine ⟨fun h => if_neg (by omega), fun h => ⟨bfree, if_pos (by omega), fun _ _ => rfl, ?_⟩⟩
    intro k j hk hj
    rw [hones k hk, allOnes_bit hj, decide_eq_true (by omega)]
  | succ n ih =>
    intro i used bfree hones
    by_cases hz : used = 0
    · subst hz
      refine ⟨fun h => by omega, fun _ => ⟨bfree, if_pos rfl, fun _ _ => rfl, ?_⟩⟩
      intro k j hk hj
      rw [hones k hk, allOnes_bit hj, decide_eq_true (by omega)]
    obtain ⟨hleft, hbits⟩ := maskLoop_spec 64 0 allOnes used (Nat.pos_of_ne_zero hz) (by omega)
    obtain ⟨r, hr⟩ : ∃ r, r = maskLoop 64 0 allOnes used := ⟨_, rfl⟩
    rw [← hr] at hleft hbits
    obtain ⟨next, hnext⟩ : ∃ next : Nat → BitVec 64,
      next = fun k => if k = i then r.1 else bfree k := ⟨_, rfl⟩
    have hrun : usedLoop (n + 1) i used bfree = usedLoop n (i + 1) (used - 64) next := by
      rw [usedLoop, if_neg hz, ← hr, ← hleft, hnext]
    obtain ⟨hnone, hsome⟩ := ih (i + 1) (used - 64) next (by
      intro k hk
      rw [hnext]
      exact (if_neg (by omega)).trans (hones k (by omega)))
    rw [hrun]
    refine ⟨fun h => hnone (by omega), fun h => ?_⟩
    obtain ⟨ws, hws, hbelow, habove⟩ := hsome (by omega)
    refine ⟨ws, hws, ?_, ?_⟩
    · intro k hk
      rw [hbelow k (by omega), hnext]
      exact if_neg (by omega)
    · intro k j hk hj
      rcases Nat.lt_or_ge i k with hlt | hge
      · rw [habove k j hlt hj, decide_eq_decide]
        omega
      · obtain rfl : k = i := by omega
        have hword : ws k = r.1 := by
          rw [hbelow k (by omega), hnext]
          exact if_pos rfl
        rw [hword, hbits, allOnes_bit hj, Bool.true_and, ← decide_not, decide_eq_decide]
        omega

/-! ## What is on the image -/

/-- The `n` blocks behind the offset have been written. -/
structure Appended (img img' : Image) (n : Nat) (blocks : Nat → Buffer) : Prop where
  next : img'.next = img.next + n
  inside : ∀ i, i < n → img'.disk (img.next + i) = blocks i
  below : ∀ b, b < img.next → img'.disk b = img.disk b

theorem write_appended {ok : Nat → Bool} {img img' : Image} {block : Buffer}
    (h : img.write ok block = some img') : Appended img img' 1 (fun _ => block) := by
  unfold Image.write at h
  split at h
  · cases h
    refine ⟨rfl, ?_, fun b hb => set_of_ne _ _ (by omega)⟩
    intro i hi
    obtain rfl : i = 0 := by omega
    exact set_self _ _ _
  · cases h

theorem Appended.append {a b c : Image} {m n : Nat} {f g : Nat → Buffer}
    (h : Appended a b m f) (h' : Appended b c n g) :
    Appended a c (m + n) (fun i => if i < m then f i else g (i - m)) := by
  constructor
  · rw [h'.next, h.next, Nat.add_assoc]
  · intro i hi
    rcases Nat.lt_or_ge i m with hlt | hge
    · rw [if_pos hlt, ← h.inside i hlt]
      exact h'.below _ (by rw [h.next]; omega)
    · rw [if_neg (by omega), ← h'.inside (i - m) (by omega), h.next]
      congr 1
      omega
  · intro d hd
    rw [h'.below d (by rw [h.next]; omega), h.below d hd]

theorem Appended.congr {a b : Image} {m n : Nat} {f g : Nat → Buffer} (h : Appended a b m f)
    (hn : m = n) (hg : ∀ i, i < n → f i = g i) : Appended a b n g := by
  subst hn
  exact ⟨h.next, fun i hi => (h.inside i hi).trans (hg i hi), h.below⟩

theorem writeRest_appended {ok : Nat → Bool} {block : Buffer} {n : Nat} {img img' : Image}
    (h : Image.writeRest ok block n img = some img') : Appended img img' n (fun _ => block) := by
  induction n generalizing img with
  | zero =>
    cases h
    exact ⟨rfl, fun i hi => by omega, fun _ _ => rfl⟩
  | succ n ih =>
    rw [Image.writeRest] at h
    obtain ⟨mid, hmid, hrest⟩ := Option.bind_eq_some_iff.mp h
    exact ((write_appended hmid).append (ih hrest)).congr (by omega) (fun i _ => by simp)

theorem bit_onesBlock (k : Nat) : bit onesBlock k = true := by
  have hk : k % 8 < 8 := Nat.mod_lt _ (by omega)
  change (BitVec.allOnes 8).getLsbD (k % 8) = true
  rw [BitVec.getLsbD_allOnes]
  exact decide_eq_true hk

/-- A bitmap of `n` blocks whose first `used` bits are clear. -/
def ClearBelow (image : Store) (first n used : Nat) : Prop :=
  ∀ i k, i < n → k < 32768 → bit (image (first + i)) k = decide (used ≤ 32768 * i + k)

/-- The `i`-th block of a bitmap whose first block has the words `ws`. -/
def bfreeBlock (ws : Nat → BitVec 64) (i : Nat) : Buffer :=
  if i < 1 then ofWords ws else onesBlock

/-- The `i`-th block that `write_ifree_blocks` writes. -/
def ifreeBlock (i : Nat) : Buffer :=
  bfreeBlock (fun k => if k = 0 then 0xfffffffffffffffc else 0xffffffffffffffff) i

theorem clearBelow_of_blocks {image : Store} {first n used : Nat} {ws : Nat → BitVec 64}
    (h : ∀ i, i < n → image (first + i) = bfreeBlock ws i) (fits : used ≤ 32768)
    (bits : ∀ k j, j < 64 → (ws k).getLsbD j = decide (used ≤ 64 * k + j)) :
    ClearBelow image first n used := by
  intro i k hi hk
  rw [h i hi, bfreeBlock]
  rcases Nat.eq_zero_or_pos i with hz | hpos
  · subst hz
    rw [if_pos (by omega), bit_ofWords, bits _ _ (by omega), decide_eq_decide]
    omega
  · rw [if_neg (by omega), bit_onesBlock, decide_eq_true (by omega)]

/-- What a formatted image holds. -/
structure Formatted (sb : Superblock) (image : Store) : Prop where
  superblock : image 0 = superblockBlock sb
  root : image 1 = rootInodeBlock sb
  ifree : ClearBelow image (1 + sb.nrIstoreBlocks) sb.nrIfreeBlocks 2
  bfree : ClearBelow image (1 + sb.nrIstoreBlocks + sb.nrIfreeBlocks) sb.nrBfreeBlocks (nrUsed sb)

theorem ifreeWord_bit (k j : Nat) (h : j < 64) :
    (if k = 0 then 0xfffffffffffffffc else 0xffffffffffffffff : BitVec 64).getLsbD j =
      decide (2 ≤ 64 * k + j) := by
  by_cases hk : k = 0
  · subst hk
    have hall : ∀ j : Fin 64, (0xfffffffffffffffc : BitVec 64).getLsbD j.val = decide (2 ≤ j.val) := by
      decide
    simpa using hall ⟨j, h⟩
  · rw [if_neg hk, decide_eq_true (by omega)]
    exact allOnes_bit h

/-! ## The layout -/

theorem idivCeil_bounds (a : Nat) {b : Nat} (hb : 0 < b) :
    a ≤ b * idivCeil a b ∧ b * idivCeil a b < a + b := by
  have hge := idivCeil_mul_ge a hb
  rw [Nat.mul_comm] at hge
  refine ⟨hge, ?_⟩
  rcases Nat.eq_zero_or_pos (idivCeil a b) with hz | hpos
  · rw [hz, Nat.mul_zero]
    omega
  · have hlt := idivCeil_pred_mul_lt hb hpos
    obtain ⟨q, hq⟩ : ∃ q, idivCeil a b = q + 1 := ⟨idivCeil a b - 1, by omega⟩
    rw [hq, Nat.add_sub_cancel, Nat.mul_comm] at hlt
    rw [hq, Nat.mul_add, Nat.mul_one]
    omega

/-- The sizes of the areas of an image, as far as they matter for its layout. -/
structure Counts (sb : Superblock) : Prop where
  nrBlocks_lt : sb.nrBlocks < 1073741824
  istore : sb.nrBlocks ≤ 51 * sb.nrIstoreBlocks ∧ 51 * sb.nrIstoreBlocks < sb.nrBlocks + 102
  inodes : sb.nrInodes = sb.nrBlocks + sb.nrBlocks % 51 ∧ sb.nrInodes ≤ 32768 * sb.nrIfreeBlocks
  ifree : sb.nrBlocks ≤ 32768 * sb.nrIfreeBlocks ∧ 32768 * sb.nrIfreeBlocks < sb.nrBlocks + 32819
  bfree : sb.nrBlocks ≤ 32768 * sb.nrBfreeBlocks ∧ 32768 * sb.nrBfreeBlocks < sb.nrBlocks + 32768
  used : nrUsed sb = sb.nrIstoreBlocks + sb.nrIfreeBlocks + sb.nrBfreeBlocks + 2
  free : 100 ≤ sb.nrBlocks → nrUsed sb ≤ sb.nrBlocks ∧ sb.nrFreeBlocks = sb.nrBlocks - nrUsed sb

/-- The bits of the used blocks fit one block only on a volume of less than
2^30 blocks, so that none of the counts wraps around. -/
theorem superblockOf_counts {stSize : Nat} (fits : nrUsed (superblockOf stSize) ≤ 32768) :
    Counts (superblockOf stSize) := by
  obtain ⟨sb, hsb⟩ : ∃ sb, sb = superblockOf stSize := ⟨_, rfl⟩
  obtain ⟨n, hn⟩ : ∃ n, n = u32 (stSize / blockSize : Nat) := ⟨_, rfl⟩
  have hlt : n < 4294967296 := by
    rw [hn]
    unfold u32
    omega
  have hblocks : sb.nrBlocks = n := by rw [hsb, hn]; rfl
  obtain ⟨m, hm⟩ : ∃ m, m = if n % 51 ≠ 0 then u32 (n + n % 51 : Nat) else n := ⟨_, rfl⟩
  have hmlt : m < 4294967296 := by
    rw [hm]
    split
    · unfold u32
      omega
    · exact hlt
  have hinodes : sb.nrInodes = m := by rw [hsb, hm, hn]; rfl
  have histore : sb.nrIstoreBlocks = idivCeil m 51 := by rw [hsb, hm, hn]; rfl
  have hifree : sb.nrIfreeBlocks = idivCeil m 32768 := by rw [hsb, hm, hn]; rfl
  have hbfree : sb.nrBfreeBlocks = idivCeil n 32768 := by rw [hsb, hn]; rfl
  have hfree : sb.nrFreeBlocks = u32 ((u32 ((n : Int) - 1 - idivCeil m 51 - idivCeil m 32768 -
      idivCeil n 32768) : Int) - 1) := by rw [hsb, hm, hn]; rfl
  have h51 := idivCeil_bounds m (b := 51) (by omega)
  have hib := idivCeil_bounds m (b := 32768) (by omega)
  have hbb := idivCeil_bounds n (b := 32768) (by omega)
  rw [← histore] at h51 hfree
  rw [← hifree] at hib hfree
  rw [← hbfree] at hbb hfree
  rw [← hsb] at fits ⊢
  have hused : nrUsed sb = sb.nrIstoreBlocks + sb.nrIfreeBlocks + sb.nrBfreeBlocks + 2 := by
    unfold nrUsed u32
    omega
  have hsmall : n < 1073741824 := by omega
  have hmn : m = n + n % 51 := by
    rw [hm]
    split
    · exact u32_natCast (by omega)
    · omega
  refine ⟨by omega, by omega, by omega, by omega, by omega, hused, ?_⟩
  intro hlarge
  have hle : nrUsed sb ≤ sb.nrBlocks := by omega
  refine ⟨hle, ?_⟩
  have hdata : (n : Int) - 1 - sb.nrIstoreBlocks - sb.nrIfreeBlocks - sb.nrBfreeBlocks =
      ((n - 1 - sb.nrIstoreBlocks - sb.nrIfreeBlocks - sb.nrBfreeBlocks : Nat) : Int) := by omega
  rw [hfree, hdata, u32_natCast (by omega), u32_pred (by omega) (by omega)]
  omega

theorem writeBfreeBlocks_fits {ok : Nat → Bool} {img img' : Image} {sb : Superblock}
    (h : writeBfreeBlocks ok img sb = some img') : nrUsed sb ≤ 32768 := by
  obtain ⟨ws, hws, _⟩ := Option.bind_eq_some_iff.mp h
  by_contra hgt
  rw [(usedLoop_spec 512 0 (nrUsed sb) (fun _ => allOnes) (fun _ _ => rfl)).1 (by omega)] at hws
  cases hws

/-- The blocks of an image, in the order they are written; `ws` are the words of
the first block of the block bitmap. -/
structure Emitted (sb : Superblock) (ws : Nat → BitVec 64) (image : Store) : Prop where
  superblock : image 0 = superblockBlock sb
  root : image 1 = rootInodeBlock sb
  ifree : ∀ i, i < sb.nrIfreeBlocks → image (1 + sb.nrIstoreBlocks + i) = ifreeBlock i
  bfree : ∀ i, i < sb.nrBfreeBlocks →
    image (1 + sb.nrIstoreBlocks + sb.nrIfreeBlocks + i) = bfreeBlock ws i
  rootIndex : image (1 + sb.nrIstoreBlocks + sb.nrIfreeBlocks + sb.nrBfreeBlocks) = zeroBlock

/-- The image of a successful run. -/
theorem mkfs_emitted {ok : Nat → Bool} {stSize : Nat} {disk image : Store}
    (h : mkfs ok stSize disk = some image) :
    nrUsed (superblockOf stSize) ≤ 32768 ∧ image 0 = superblockBlock (superblockOf stSize) ∧
      (0 < (superblockOf stSize).nrBlocks →
        ∃ ws, usedLoop 512 0 (nrUsed (superblockOf stSize)) (fun _ => allOnes) = some ws ∧
          Emitted (superblockOf stSize) ws image) := by
  unfold mkfs at h
  split at h
  · cases h
  obtain ⟨sb, hsb⟩ : ∃ sb, sb = superblockOf stSize := ⟨_, rfl⟩
  simp only [← hsb] at h ⊢
  obtain ⟨a, ha, h⟩ := Option.bind_eq_some_iff.mp h
  obtain ⟨b, hb, h⟩ := Option.bind_eq_some_iff.mp h
  obtain ⟨c, hc, h⟩ := Option.bind_eq_some_iff.mp h
  obtain ⟨d, hd, h⟩ := Option.bind_eq_some_iff.mp h
  obtain ⟨e, he, rfl⟩ := Option.map_eq_some_iff.mp h
  have hfits := writeBfreeBlocks_fits hd
  have sa := write_appended ha
  have na : a.next = 1 := sa.next
  obtain ⟨b₁, hb₁, hb⟩ := Option.bind_eq_some_iff.mp hb
  obtain ⟨c₁, hc₁, hc⟩ := Option.bind_eq_some_iff.mp hc
  obtain ⟨ws, hws, hd⟩ := Option.bind_eq_some_iff.mp hd
  obtain ⟨d₁, hd₁, hd⟩ := Option.bind_eq_some_iff.mp hd
  have sb₂ := (write_appended hb₁).append (writeRest_appended hb)
  have sc := (write_appended hc₁).append (writeRest_appended hc)
  have sd := (write_appended hd₁).append (writeRest_appended hd)
  have se := write_appended he
  have nb := sb₂.next
  have nc := sc.next
  have nd := sd.next
  have hzero : e.disk 0 = superblockBlock sb := by
    rw [se.below 0 (by omega), sd.below 0 (by omega), sc.below 0 (by omega), sb₂.below 0 (by omega)]
    exact sa.inside 0 (by omega)
  refine ⟨hfits, hzero, fun hpos => ⟨ws, hws, ?_⟩⟩
  have counts : Counts sb := by
    rw [hsb] at hfits ⊢
    exact superblockOf_counts hfits
  have hi := counts.istore
  have hf := counts.ifree
  have hbf := counts.bfree
  replace sb₂ := sb₂.congr (show _ = sb.nrIstoreBlocks by omega) (fun _ _ => rfl)
  replace sc := sc.congr (show _ = sb.nrIfreeBlocks by omega) (fun _ _ => rfl)
  replace sd := sd.congr (show _ = sb.nrBfreeBlocks by omega) (fun _ _ => rfl)
  replace nb : b.next = 1 + sb.nrIstoreBlocks := by omega
  replace nc : c.next = 1 + sb.nrIstoreBlocks + sb.nrIfreeBlocks := by omega
  replace nd : d.next = 1 + sb.nrIstoreBlocks + sb.nrIfreeBlocks + sb.nrBfreeBlocks := by omega
  refine ⟨hzero, ?_, ?_, ?_, ?_⟩
  · rw [se.below 1 (by omega), sd.below 1 (by omega), sc.below 1 (by omega)]
    have := sb₂.inside 0 (by omega)
    rwa [na] at this
  · intro i hi
    rw [se.below _ (by omega), sd.below _ (by omega), ← nb]
    exact sc.inside i hi
  · intro i hi
    rw [se.below _ (by omega), ← nc]
    exact sd.inside i hi
  · rw [← nd]
    exact se.inside 0 (by omega)

theorem Emitted.formatted {sb : Superblock} {ws : Nat → BitVec 64} {image : Store}
    (h : Emitted sb ws image) (fits : nrUsed sb ≤ 32768)
    (used : usedLoop 512 0 (nrUsed sb) (fun _ => allOnes) = some ws) : Formatted sb image := by
  obtain ⟨ws', hws', _, hbits⟩ :=
    (usedLoop_spec 512 0 (nrUsed sb) (fun _ => allOnes) (fun _ _ => rfl)).2 fits
  obtain rfl : ws' = ws := Option.some.inj (hws'.symm.trans used)
  exact ⟨h.superblock, h.root, clearBelow_of_blocks h.ifree (by omega) ifreeWord_bit,
    clearBelow_of_blocks h.bfree fits (fun k j hj => hbits k j (by omega) hj)⟩

theorem mkfs_formatted {ok : Nat → Bool} {stSize : Nat} {disk image : Store}
    (h : mkfs ok stSize disk = some image) :
    nrUsed (superblockOf stSize) ≤ 32768 ∧ image 0 = superblockBlock (superblockOf stSize) ∧
      (0 < (superblockOf stSize).nrBlocks → Formatted (superblockOf stSize) image) := by
  obtain ⟨hfits, hzero, hemitted⟩ := mkfs_emitted h
  refine ⟨hfits, hzero, fun hpos => ?_⟩
  obtain ⟨ws, hws, he⟩ := hemitted hpos
  exact he.formatted hfits hws

/-- Formatting succeeds if no write fails and the used blocks fit one block. -/
theorem mkfs_isSome {stSize : Nat} (large : 409600 ≤ stSize)
    (fits : nrUsed (superblockOf stSize) ≤ 32768) (disk : Store) :
    ∃ image, mkfs (fun _ => true) stSize disk = some image := by
  have hwrite : ∀ (img : Image) (block : Buffer),
      img.write (fun _ => true) block = some ⟨img.disk.set img.next block, img.next + 1⟩ :=
    fun _ _ => rfl
  have hrest : ∀ (block : Buffer) (n : Nat) (img : Image),
      ∃ img', Image.writeRest (fun _ => true) block n img = some img' := by
    intro block n
    induction n with
    | zero => exact fun img => ⟨img, rfl⟩
    | succ n ih => exact fun img => ih _
  obtain ⟨sb, hsb⟩ : ∃ sb, sb = superblockOf stSize := ⟨_, rfl⟩
  rw [← hsb] at fits
  obtain ⟨ws, hws, _⟩ :=
    (usedLoop_spec 512 0 (nrUsed sb) (fun _ => allOnes) (fun _ _ => rfl)).2 fits
  unfold mkfs
  rw [if_neg (by simp only [blockSize]; omega), ← hsb]
  simp only [writeSuperblock, writeInodeStore, writeIfreeBlocks, writeBfreeBlocks,
    writeRootIndexBlock, hwrite, hws, Option.bind_some]
  obtain ⟨b, hb⟩ := hrest zeroBlock (sb.nrIstoreBlocks - 1) _
  rw [hb, Option.bind_some]
  obtain ⟨c, hc⟩ := hrest onesBlock (sb.nrIfreeBlocks - 1) _
  rw [hc, Option.bind_some]
  obtain ⟨d, hd⟩ := hrest onesBlock (sb.nrBfreeBlocks - 1) _
  rw [hd, Option.bind_some]
  exact ⟨_, rfl⟩

end Mkfs
