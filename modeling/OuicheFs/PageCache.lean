import OuicheFs.FileSystem
import OuicheFs.WriteEnd

/-!
# Writing through the page cache

Without a write function of its own a file is written page by page:
`ouichefs_write_begin` has `ouichefs_file_get_block` allocate the block behind a
page, the page is written back to that block at some later time, and
`ouichefs_write_end` moves the size. The index then is a table from pages to
blocks: every step keeps the pages of the file apart and leaves the blocks of all
others alone.
-/
namespace PageCache

open CInt Bits ByteBuffer IndexEntry Allocator FileContext Layout OuicheFile OuicheInode OuicheSuper
  Mkfs FileRun Ownership Lifecycle VolumeRun Hierarchy WholeVolume FileSystem FileTree

/-- The block behind the page `i`, as the index has it. -/
def mapped (s : Ctx) (i : Nat) : Option Nat :=
  if i < indexSlots ∧ s.blocks i ≠ 0 then some (getBlockNumber (s.blocks i)) else none

section

variable {s t : Ctx} {i j b c : Nat}

theorem mapped_eq_some : mapped s i = some b ↔
    i < indexSlots ∧ s.blocks i ≠ 0 ∧ getBlockNumber (s.blocks i) = b := by
  unfold mapped
  split
  · rename_i h
    rw [Option.some_inj]
    exact ⟨fun hb => ⟨h.1, h.2, hb⟩, fun hb => hb.2.2⟩
  · rename_i h
    simp only [reduceCtorEq, false_iff]
    exact fun h' => h ⟨h'.1, h'.2.1⟩

theorem mapped_eq_none (lt : i < indexSlots) : mapped s i = none ↔ s.blocks i = 0 := by
  unfold mapped
  by_cases h : s.blocks i = 0 <;> simp [lt, h]

theorem mapped_congr (h : t.blocks i = s.blocks i) : mapped t i = mapped s i := by
  unfold mapped
  rw [h]

/-- A call that has left the file and the volume as they were. -/
structure Unmoved (s t : Ctx) : Prop where
  sbi : t.sbi = s.sbi
  disk : t.disk = s.disk
  node : t.node = s.node

/-- A free block has been put behind the page `i`. -/
structure Extended (s t : Ctx) (i b : Nat) : Prop where
  taken : Taken s.sbi t.sbi b
  node : t.node = s.node
  fresh : mapped s i = none
  at_ : mapped t i = some b
  others : ∀ j, j ≠ i → mapped t j = mapped s j
  frame : ∀ c, c ≠ s.node.indexBlock → t.disk c = s.disk c

theorem Unmoved.mapped_eq (h : Unmoved s t) (i : Nat) : mapped t i = mapped s i :=
  mapped_congr (blocks_congr (by rw [h.node]) (by rw [h.disk]) i)

theorem Unmoved.trans {u : Ctx} (h : Unmoved s t) (h' : Unmoved t u) : Unmoved s u :=
  ⟨h'.sbi.trans h.sbi, h'.disk.trans h.disk, h'.node.trans h.node⟩

theorem Extended.then {u : Ctx} (h : Extended s t i b) (h' : Unmoved t u) : Extended s u i b :=
  ⟨by rw [h'.sbi]; exact h.taken, h'.node.trans h.node, h.fresh, (h'.mapped_eq i).trans h.at_,
    fun j hj => (h'.mapped_eq j).trans (h.others j hj), fun c hc => by rw [h'.disk]; exact h.frame c hc⟩

theorem extended_setBlocks (small : s.sbi.nrBlocks ≤ 524288) {sbi : SbInfo}
    (taken : Taken s.sbi sbi b) (lt : i < indexSlots) (fresh : s.blocks i = 0) :
    Extended s (Ctx.setBlocks { s with sbi := sbi } i (setBlockNumber (s.blocks i) b)) i b := by
  have hlt : b < 524288 := Nat.lt_of_lt_of_le taken.lt small
  have hnum : getBlockNumber (setBlockNumber (s.blocks i) b) = b := by
    rw [fresh, setBlockNumber_zero, getBlockNumber_eq_mod, BitVec.toNat_ofNat]
    omega
  have hpos : 0 < getBlockNumber (setBlockNumber (s.blocks i) b) := by
    rw [hnum]
    exact taken.pos
  refine ⟨taken, rfl, (mapped_eq_none lt).mpr fresh, mapped_eq_some.mpr ⟨lt, ?_, ?_⟩, ?_, ?_⟩
  · rw [blocks_setBlocks_self]
    exact ne_zero_of_getBlockNumber_pos hpos
  · rw [blocks_setBlocks_self]
    exact hnum
  · exact fun j hj => mapped_congr (blocks_setBlocks_of_ne _ _ hj)
  · exact fun c hc => disk_setBlocks_of_ne _ _ _ hc

/-- The call answers with the block of the page, extends the file or changes nothing. -/
theorem fileGetBlock_cases (ok : BlocksOk s.sbi) (small : s.sbi.nrBlocks ≤ 524288) (i : Nat)
    (create : Bool) :
    (Unmoved s (ouichefsFileGetBlock s i create).1 ∧
      ((ouichefsFileGetBlock s i create).2.2 = mapped s i ∨
        (ouichefsFileGetBlock s i create).2.2 = none)) ∨
    (create = true ∧ ∃ b, (ouichefsFileGetBlock s i create).2 = (0, some b) ∧
      Extended s (ouichefsFileGetBlock s i create).1 i b) := by
  unfold ouichefsFileGetBlock
  by_cases hlt : i ≥ indexSlots
  · rw [if_pos hlt]
    exact Or.inl ⟨⟨rfl, rfl, rfl⟩, Or.inr rfl⟩
  rw [if_neg hlt]
  by_cases hread : s.io.bread 0 = false
  · rw [if_pos hread]
    exact Or.inl ⟨⟨rfl, rfl, rfl⟩, Or.inr rfl⟩
  rw [if_neg hread]
  obtain ⟨u, hu⟩ : ∃ u, u = s.popBread.touch i := ⟨_, rfl⟩
  have hunmoved : Unmoved s u := by
    rw [hu]
    exact ⟨rfl, rfl, rfl⟩
  have hmapped := hunmoved.mapped_eq i
  simp only [← hu]
  by_cases hzero : u.blocks i = 0
  · rw [if_pos hzero]
    cases create with
    | false => exact Or.inl ⟨hunmoved, Or.inr rfl⟩
    | true =>
      rw [if_neg (by simp)]
      have hok : BlocksOk u.sbi := by
        rw [hunmoved.sbi]
        exact ok
      rcases Nat.eq_zero_or_pos (getFreeBlock u.sbi).1 with hnone | hsome
      · rw [if_pos hnone]
        have hsame := getFreeBlock_fails hok.zero_used hnone
        exact Or.inl ⟨⟨hsame.trans hunmoved.sbi, hunmoved.disk, hunmoved.node⟩, Or.inr rfl⟩
      · rw [if_neg (by omega)]
        have hfree : 0 < u.sbi.nrFreeBlocks := by
          rcases (getFreeBlock_spec u.sbi).2.2 with ⟨hz, _⟩ | ⟨_, hb, hbit, _⟩
          · omega
          · rw [hok.counter]
            exact (popcount_pos_iff _ _).mpr ⟨_, hb, hbit⟩
        have hext := extended_setBlocks (by rw [hunmoved.sbi]; exact small)
          (getFreeBlock_taken hok hfree) (Nat.lt_of_not_le hlt) hzero
        refine Or.inr ⟨rfl, _, rfl, ?_⟩
        refine ⟨?_, hext.node.trans hunmoved.node, hmapped ▸ hext.fresh, hext.at_, ?_, ?_⟩
        · rw [← hunmoved.sbi]
          exact hext.taken
        · exact fun j hj => (hext.others j hj).trans (hunmoved.mapped_eq j)
        · intro c hc
          have hdisk := hext.frame c (by rw [hunmoved.node]; exact hc)
          exact hdisk.trans (congrFun hunmoved.disk c)
  · rw [if_neg hzero]
    refine Or.inl ⟨hunmoved, Or.inl ?_⟩
    rw [← hmapped]
    exact (mapped_eq_some.mpr ⟨Nat.lt_of_not_le hlt, hzero, rfl⟩).symm

/-- `block_write_begin` fails on its own, finds the block of the page in the page
cache or asks for it. It may fail after that, as the page must be read. -/
def AsksForBlock (blockWriteBegin : Ctx → Nat → Nat → Ctx × Int) : Prop :=
  ∀ s pos len,
    (Unmoved s (blockWriteBegin s pos len).1 ∧ ((blockWriteBegin s pos len).2 < 0 ∨
      mapped s (pos / blockSize) ≠ none)) ∨
    (Unmoved (ouichefsFileGetBlock s (pos / blockSize) true).1 (blockWriteBegin s pos len).1 ∧
      ((blockWriteBegin s pos len).2 < 0 ∨
        (ouichefsFileGetBlock s (pos / blockSize) true).2.1 = 0))

/-- `generic_write_end` moves the size behind what it has taken over. -/
def TakesOver (genericWriteEnd : Inode → Nat → Nat → Nat → Nat × Int) : Prop :=
  ∀ node pos len copied, ∃ n, n ≤ copied ∧
    genericWriteEnd node pos len copied = (max node.iSize (pos + n), (n : Int))

/-- Work elsewhere on the volume, as the file sees it: its index and its blocks are left
alone. -/
structure Elsewhere (s t : Ctx) : Prop where
  node : Refreshed s.node t.node
  size : t.sbi.nrBlocks = s.sbi.nrBlocks
  blocks : BlocksOk t.sbi
  index : t.sbi.bfreeBitmap s.node.indexBlock = false ∧
    t.disk s.node.indexBlock = s.disk s.node.indexBlock
  data : ∀ i b, mapped s i = some b → t.sbi.bfreeBitmap b = false ∧ t.disk b = s.disk b

/-- What is seen of a step: what `ouichefs_file_get_block` answers, or the bytes that
are written back for a page. -/
inductive Event where
  | asked (page : Nat) (answer : Option Nat)
  | written (page : Nat) (bytes : Buffer)
  | quiet

inductive PageStep : Ctx → Event → Ctx → Prop
  | getBlock (s : Ctx) (io : Io) (i : Nat) (create : Bool) :
      PageStep s (.asked i (ouichefsFileGetBlock { s with io := io } i create).2.2)
        (ouichefsFileGetBlock { s with io := io } i create).1
  | writeBegin (s : Ctx) (io : Io) (blockWriteBegin : Ctx → Nat → Nat → Ctx × Int) (pos len : Nat) :
      AsksForBlock blockWriteBegin →
      PageStep s .quiet (ouichefsWriteBegin blockWriteBegin { s with io := io } pos len).1
  | writeEnd (s : Ctx) (io : Io) (genericWriteEnd : Inode → Nat → Nat → Nat → Nat × Int)
      (pos len copied : Nat) :
      TakesOver genericWriteEnd → copied ≤ len → pos + len ≤ maxFilesize →
      PageStep s .quiet (ouichefsWriteEnd genericWriteEnd { s with io := io } pos len copied).1
  | writeBack (s : Ctx) (i b : Nat) (bytes : Buffer) :
      mapped s i = some b → PageStep s (.written i bytes) { s with disk := s.disk.set b bytes }

/-- The index of a file that is only written through the page cache. -/
structure PageInv (s : Ctx) : Prop where
  blocks : BlocksOk s.sbi
  small : s.sbi.nrBlocks ≤ 524288
  index : Used s.sbi s.node.indexBlock
  used : ∀ i b, mapped s i = some b → Used s.sbi b ∧ b ≠ s.node.indexBlock
  injective : ∀ i j b, mapped s i = some b → mapped s j = some b → i = j
  count : s.node.iBlocks ≤ blocksOfSize s.node.iSize
  size : s.node.iSize ≤ maxFilesize

/-- What a step leaves of the table: pages keep their blocks, and blocks their bytes
unless they are written back. -/
structure Grows (s : Ctx) (e : Event) (t : Ctx) : Prop where
  kept : ∀ i b, mapped s i = some b → mapped t i = some b
  bytes : ∀ i b, mapped s i = some b → (∀ bytes, e ≠ .written i bytes) → t.disk b = s.disk b
  answered : ∀ i b, e = .asked i (some b) → mapped t i = some b
  stored : ∀ i bytes, e = .written i bytes → ∃ b, mapped t i = some b ∧ t.disk b = bytes

/-- A step as the rest of the volume sees it: it takes free blocks for pages, and writes
to the index block and to blocks of pages alone. -/
structure Contained (s t : Ctx) : Prop where
  mode : t.node.iMode = s.node.iMode
  index : t.node.indexBlock = s.node.indexBlock
  layout : SameLayout s.sbi t.sbi
  inodes : t.sbi.ifreeBitmap = s.sbi.ifreeBitmap
  free : ∀ b, t.sbi.bfreeBitmap b = true → s.sbi.bfreeBitmap b = true
  fresh : ∀ i b, mapped t i = some b → mapped s i = some b ∨ s.sbi.bfreeBitmap b = true
  frame : ∀ c, c ≠ s.node.indexBlock → (∀ i, mapped t i ≠ some c) → t.disk c = s.disk c

/-- A step that keeps the table and the blocks in it. -/
theorem PageInv.keep (h : PageInv s) (table : ∀ i, mapped t i = mapped s i)
    (index : t.node.indexBlock = s.node.indexBlock) (total : t.sbi.nrBlocks = s.sbi.nrBlocks)
    (blocks : BlocksOk t.sbi) (indexUsed : t.sbi.bfreeBitmap s.node.indexBlock = false)
    (used : ∀ i b, mapped s i = some b → t.sbi.bfreeBitmap b = false)
    (count : t.node.iBlocks ≤ blocksOfSize t.node.iSize) (size : t.node.iSize ≤ maxFilesize) :
    PageInv t := by
  have hused : ∀ b, Used s.sbi b → t.sbi.bfreeBitmap b = false → Used t.sbi b := by
    intro b hb htaken
    refine ⟨hb.pos, ?_, htaken⟩
    rw [total]
    exact hb.lt
  refine ⟨blocks, ?_, ?_, ?_, ?_, count, size⟩
  · rw [total]
    exact h.small
  · rw [index]
    exact hused _ h.index indexUsed
  · intro i b hb
    rw [table] at hb
    obtain ⟨hu, hne⟩ := h.used i b hb
    rw [index]
    exact ⟨hused b hu (used i b hb), hne⟩
  · intro i j b hi hj
    rw [table] at hi hj
    exact h.injective i j b hi hj

theorem PageInv.sameVolume (h : PageInv s) (table : ∀ i, mapped t i = mapped s i)
    (index : t.node.indexBlock = s.node.indexBlock) (sbi : t.sbi = s.sbi)
    (count : t.node.iBlocks ≤ blocksOfSize t.node.iSize) (size : t.node.iSize ≤ maxFilesize) :
    PageInv t := by
  refine h.keep table index (by rw [sbi]) ?_ ?_ ?_ count size
  · rw [sbi]
    exact h.blocks
  · rw [sbi]
    exact h.index.taken
  · intro i b hb
    rw [sbi]
    exact (h.used i b hb).1.taken

theorem PageInv.unmoved (h : PageInv s) (u : Unmoved s t) : PageInv t := by
  refine h.sameVolume u.mapped_eq (by rw [u.node]) u.sbi ?_ ?_
  · rw [u.node]
    exact h.count
  · rw [u.node]
    exact h.size

theorem Unmoved.grows (u : Unmoved s t) {e : Event} (answered : ∀ i b, e = .asked i (some b) →
    mapped s i = some b) (silent : ∀ i bytes, e ≠ .written i bytes) : Grows s e t := by
  refine ⟨?_, ?_, ?_, ?_⟩
  · intro i b hb
    rw [u.mapped_eq]
    exact hb
  · intro i b _ _
    rw [u.disk]
  · intro i b he
    rw [u.mapped_eq]
    exact answered i b he
  · exact fun i bytes he => absurd he (silent i bytes)

/-- A new entry names a block that was free, hence none of those already named. -/
theorem PageInv.extended (h : PageInv s) (x : Extended s t i b) : PageInv t := by
  have hused : ∀ c, Used s.sbi c → Used t.sbi c ∧ c ≠ b := by
    intro c hc
    have hne : c ≠ b := by
      rintro rfl
      have hfree := x.taken.was_free
      rw [hc.taken] at hfree
      cases hfree
    refine ⟨⟨hc.pos, ?_, ?_⟩, hne⟩
    · rw [x.taken.layout.nrBlocks]
      exact hc.lt
    · rw [x.taken.bitmap, clearBit_of_ne _ hne]
      exact hc.taken
  have hnew : Used t.sbi b := by
    refine ⟨x.taken.pos, ?_, ?_⟩
    · rw [x.taken.layout.nrBlocks]
      exact x.taken.lt
    · rw [x.taken.bitmap]
      exact clearBit_self _ _
  refine ⟨x.taken.blocksOk h.blocks, ?_, ?_, ?_, ?_, ?_, ?_⟩
  · rw [x.taken.layout.nrBlocks]
    exact h.small
  · rw [x.node]
    exact (hused _ h.index).1
  · intro j c hj
    rw [x.node]
    by_cases hji : j = i
    · subst hji
      rw [x.at_] at hj
      cases hj
      exact ⟨hnew, fun heq => (hused _ h.index).2 heq.symm⟩
    · rw [x.others j hji] at hj
      obtain ⟨hc, hne⟩ := h.used j c hj
      exact ⟨(hused c hc).1, hne⟩
  · intro j k c hj hk
    have hother : ∀ m, m ≠ i → mapped t m ≠ some b := by
      intro m hm heq
      rw [x.others m hm] at heq
      exact (hused b (h.used m b heq).1).2 rfl
    by_cases hji : j = i
    · subst hji
      rw [x.at_] at hj
      cases hj
      by_contra hne
      exact hother k (fun heq => hne heq.symm) hk
    · by_cases hki : k = i
      · subst hki
        rw [x.at_] at hk
        cases hk
        exact absurd hj (hother j hji)
      · rw [x.others j hji] at hj
        rw [x.others k hki] at hk
        exact h.injective j k c hj hk
  · rw [x.node]
    exact h.count
  · rw [x.node]
    exact h.size

theorem Extended.grows (x : Extended s t i b) (h : PageInv s) {e : Event}
    (event : e = .quiet ∨ e = .asked i (some b)) : Grows s e t := by
  refine ⟨?_, ?_, ?_, ?_⟩
  · intro j c hj
    by_cases hji : j = i
    · subst hji
      rw [x.fresh] at hj
      cases hj
    · rw [x.others j hji]
      exact hj
  · intro j c hj _
    exact x.frame c (h.used j c hj).2
  · rcases event with rfl | rfl
    · rintro j c ⟨⟩
    · rintro j c ⟨⟩
      exact x.at_
  · rcases event with rfl | rfl
    · rintro j bytes ⟨⟩
    · rintro j bytes ⟨⟩

/-- The end of a write: the size has grown, and the block count follows it or stays. -/
structure Resized (s t : Ctx) (n : Nat) : Prop where
  sbi : t.sbi = s.sbi
  disk : t.disk = s.disk
  index : t.node.indexBlock = s.node.indexBlock
  mode : t.node.iMode = s.node.iMode
  size : t.node.iSize = max s.node.iSize n
  count : t.node.iBlocks = s.node.iBlocks ∨ t.node.iBlocks = blocksOfSize t.node.iSize

theorem blocksOfSize_mono {m n : Nat} (le : m ≤ n) : blocksOfSize m ≤ blocksOfSize n := by
  unfold blocksOfSize blockSize
  split
  · split
    · omega
    · omega
  · split
    · omega
    · omega

/-- No block is dropped: the old count is never above the one of the new size. -/
theorem writeEnd_resized (count : s.node.iBlocks ≤ blocksOfSize s.node.iSize)
    {genericWriteEnd : Inode → Nat → Nat → Nat → Nat × Int} (takes : TakesOver genericWriteEnd)
    (pos len copied : Nat) :
    ∃ n, n ≤ copied ∧ (genericWriteEnd s.node pos len copied).2 = (n : Int) ∧
      Resized s (ouichefsWriteEnd genericWriteEnd s pos len copied).1 (pos + n) ∧
      (len ≤ u32 (n : Int) →
        (ouichefsWriteEnd genericWriteEnd s pos len copied).1.node.iBlocks =
          blocksOfSize (max s.node.iSize (pos + n))) := by
  obtain ⟨n, hn, hr⟩ := takes s.node pos len copied
  refine ⟨n, hn, by rw [hr], ?_⟩
  unfold ouichefsWriteEnd
  rw [hr]
  simp only
  by_cases hshort : u32 (n : Int) < len
  · rw [if_pos hshort]
    exact ⟨⟨rfl, rfl, rfl, rfl, rfl, Or.inl rfl⟩, fun hlen => absurd hlen (by omega)⟩
  · have hle : u32 (s.node.iBlocks : Int) ≤ blocksOfSize (max s.node.iSize (pos + n)) := by
      have hmono := blocksOfSize_mono (m := s.node.iSize) (n := max s.node.iSize (pos + n)) (by omega)
      have hu32 : u32 (s.node.iBlocks : Int) ≤ s.node.iBlocks := by
        unfold u32
        omega
      omega
    rw [if_neg hshort, if_neg (by omega)]
    exact ⟨⟨rfl, rfl, rfl, rfl, rfl, Or.inr rfl⟩, fun _ => rfl⟩

theorem Resized.mapped_eq {n : Nat} (z : Resized s t n) (i : Nat) : mapped t i = mapped s i :=
  mapped_congr (blocks_congr z.index (by rw [z.disk]) i)

theorem PageInv.resized (h : PageInv s) {n : Nat} (z : Resized s t n) (le : n ≤ maxFilesize) :
    PageInv t := by
  refine h.sameVolume z.mapped_eq z.index z.sbi ?_ ?_
  · rcases z.count with hcount | hcount
    · rw [hcount, z.size]
      exact Nat.le_trans h.count (blocksOfSize_mono (Nat.le_max_left _ _))
    · exact Nat.le_of_eq hcount
  · rw [z.size]
    exact Nat.max_le.mpr ⟨h.size, le⟩

theorem Elsewhere.mapped_eq (o : Elsewhere s t) (i : Nat) : mapped t i = mapped s i :=
  mapped_congr (blocks_congr o.node.index o.index.2 i)

theorem PageInv.elsewhere (h : PageInv s) (o : Elsewhere s t) : PageInv t := by
  refine h.keep o.mapped_eq o.node.index o.size o.blocks o.index.1
    (fun i b hb => (o.data i b hb).1) ?_ ?_
  · rw [o.node.iBlocks, o.node.iSize]
    exact h.count
  · rw [o.node.iSize]
    exact h.size

theorem Elsewhere.grows (o : Elsewhere s t) : Grows s .quiet t := by
  refine ⟨fun i b hb => (o.mapped_eq i).trans hb, fun i b hb _ => (o.data i b hb).2, ?_, ?_⟩
  · rintro i b ⟨⟩
  · rintro i bytes ⟨⟩

/-- Bytes go to the block of their page alone. -/
theorem PageInv.written (h : PageInv s) (at_ : mapped s i = some b) (bytes : Buffer) :
    PageInv { s with disk := s.disk.set b bytes } ∧
      Grows s (.written i bytes) { s with disk := s.disk.set b bytes } := by
  have hne := (h.used i b at_).2
  have hmap : ∀ j, mapped { s with disk := s.disk.set b bytes } j = mapped s j :=
    fun j => mapped_congr (@blocks_congr s { s with disk := s.disk.set b bytes } rfl
      (set_of_ne _ _ fun heq => hne heq.symm) j)
  refine ⟨h.sameVolume hmap rfl rfl h.count h.size, ?_, ?_, ?_, ?_⟩
  · intro j c hj
    rw [hmap]
    exact hj
  · intro j c hj hother
    refine set_of_ne _ _ ?_
    rintro rfl
    obtain rfl := h.injective i j c at_ hj
    exact hother bytes rfl
  · rintro j c ⟨⟩
  · rintro j bytes' ⟨⟩
    exact ⟨b, (hmap i).trans at_, set_self _ _ _⟩

/-- The check of the sizes comes before everything else. -/
theorem writeBegin_cases (blockWriteBegin : Ctx → Nat → Nat → Ctx × Int) (s : Ctx) (pos len : Nat) :
    ouichefsWriteBegin blockWriteBegin s pos len = (s, -errNospc) ∨
      (pos + len ≤ maxFilesize ∧
        ouichefsWriteBegin blockWriteBegin s pos len = blockWriteBegin s pos len) := by
  unfold ouichefsWriteBegin
  by_cases hrange : pos + len > maxFilesize
  · exact Or.inl (if_pos hrange)
  rw [if_neg hrange]
  simp only
  generalize (if u32 (max (pos + len) s.node.iSize / blockSize : Nat) > u64 ((s.node.iBlocks : Int) - 1)
    then _ else 0) = nrAllocs
  by_cases hroom : nrAllocs > s.sbi.nrFreeBlocks
  · exact Or.inl (if_pos hroom)
  · exact Or.inr ⟨Nat.le_of_not_lt hrange, if_neg hroom⟩

theorem Unmoved.contained (u : Unmoved s t) : Contained s t := by
  refine ⟨by rw [u.node], by rw [u.node], u.sbi ▸ SameLayout.refl _, by rw [u.sbi], ?_, ?_, ?_⟩
  · intro b hb
    rw [u.sbi] at hb
    exact hb
  · exact fun i b hb => Or.inl ((u.mapped_eq i).symm.trans hb)
  · exact fun c _ _ => congrFun u.disk c

theorem Extended.contained (x : Extended s t i b) : Contained s t := by
  refine ⟨by rw [x.node], by rw [x.node], x.taken.layout, x.taken.inodes.1, ?_, ?_, fun c hc _ =>
    x.frame c hc⟩
  · intro c hc
    rw [x.taken.bitmap] at hc
    by_cases heq : c = b
    · rw [heq, clearBit_self] at hc
      cases hc
    · rwa [clearBit_of_ne _ heq] at hc
  · intro j c hj
    by_cases hji : j = i
    · subst hji
      obtain rfl := Option.some.inj (x.at_.symm.trans hj)
      exact Or.inr x.taken.was_free
    · exact Or.inl ((x.others j hji).symm.trans hj)

theorem Contained.resized {u : Ctx} (c : Contained s t) {n : Nat} (z : Resized t u n) :
    Contained s u := by
  refine ⟨z.mode.trans c.mode, z.index.trans c.index, ?_, ?_, ?_, ?_, ?_⟩
  · rw [z.sbi]
    exact c.layout
  · rw [z.sbi]
    exact c.inodes
  · rw [z.sbi]
    exact c.free
  · intro i b hb
    rw [z.mapped_eq] at hb
    exact c.fresh i b hb
  · intro b hb hnot
    rw [z.disk]
    exact c.frame b hb fun i hi => hnot i ((z.mapped_eq i).trans hi)

theorem contained_written (at_ : mapped s i = some b) (ne : b ≠ s.node.indexBlock)
    (bytes : Buffer) : Contained s { s with disk := s.disk.set b bytes } := by
  have hmap : ∀ j, mapped { s with disk := s.disk.set b bytes } j = mapped s j :=
    fun j => mapped_congr (@blocks_congr s { s with disk := s.disk.set b bytes } rfl
      (set_of_ne _ _ fun heq => ne heq.symm) j)
  refine ⟨rfl, rfl, SameLayout.refl _, rfl, fun _ hb => hb, ?_, ?_⟩
  · intro j c hj
    rw [hmap] at hj
    exact Or.inl hj
  · intro c _ hnot
    refine set_of_ne _ _ ?_
    rintro rfl
    exact hnot i ((hmap i).trans at_)

theorem PageStep.contained (h : PageInv s) {e : Event} (step : PageStep s e t) : Contained s t := by
  have hio : ∀ io : Io, PageInv { s with io := io } := fun io => h.unmoved ⟨rfl, rfl, rfl⟩
  have hask : ∀ (io : Io) (i : Nat) (create : Bool) (u : Ctx),
      Unmoved (ouichefsFileGetBlock { s with io := io } i create).1 u → Contained s u := by
    intro io i create u hu
    rcases fileGetBlock_cases (hio io).blocks (hio io).small i create with
      ⟨hsame, _⟩ | ⟨_, b, _, hext⟩
    · exact Unmoved.contained (Unmoved.trans ⟨hsame.sbi, hsame.disk, hsame.node⟩ hu)
    · exact Extended.contained
        (Extended.then ⟨hext.taken, hext.node, hext.fresh, hext.at_, hext.others, hext.frame⟩ hu)
  cases step with
  | getBlock io i create => exact hask io i create _ ⟨rfl, rfl, rfl⟩
  | writeBegin io blockWriteBegin pos len asks =>
    rcases writeBegin_cases blockWriteBegin { s with io := io } pos len with heq | ⟨_, heq⟩
    · rw [heq]
      exact Unmoved.contained ⟨rfl, rfl, rfl⟩
    rw [heq]
    rcases asks { s with io := io } pos len with ⟨hsame, _⟩ | ⟨hsame, _⟩
    · exact Unmoved.contained ⟨hsame.sbi, hsame.disk, hsame.node⟩
    · exact hask io _ true _ hsame
  | writeEnd io genericWriteEnd pos len copied takes le range =>
    obtain ⟨n, _, _, hz, _⟩ := writeEnd_resized (s := { s with io := io }) h.count takes pos len copied
    have hsame : Contained s { s with io := io } := Unmoved.contained ⟨rfl, rfl, rfl⟩
    exact hsame.resized hz
  | writeBack i b bytes at_ => exact contained_written at_ (h.used i b at_).2 bytes

theorem PageStep.grows (h : PageInv s) {e : Event} (step : PageStep s e t) :
    PageInv t ∧ Grows s e t := by
  have hio : ∀ io : Io, PageInv { s with io := io } := fun io => h.unmoved ⟨rfl, rfl, rfl⟩
  have hask : ∀ (io : Io) (i : Nat) (create : Bool) (u : Ctx) (e : Event),
      Unmoved (ouichefsFileGetBlock { s with io := io } i create).1 u →
      (e = .quiet ∨ e = .asked i (ouichefsFileGetBlock { s with io := io } i create).2.2) →
      PageInv u ∧ Grows s e u := by
    intro io i create u e hu he
    rcases fileGetBlock_cases (hio io).blocks (hio io).small i create with
      ⟨hsame, hanswer⟩ | ⟨_, b, hanswer, hext⟩
    · have hall : Unmoved s u :=
        Unmoved.trans ⟨hsame.sbi, hsame.disk, hsame.node⟩ hu
      refine ⟨h.unmoved hall, hall.grows ?_ ?_⟩
      · rintro j b rfl
        rcases he with he | he
        · cases he
        · injection he with hj hb
          subst hj
          rcases hanswer with hmap | hnone
          · exact hmap.symm.trans hb.symm
          · rw [hnone] at hb
            cases hb
      · rintro j bytes rfl
        rcases he with he | he
        · cases he
        · cases he
    · have hext' : Extended s u i b :=
        Extended.then ⟨hext.taken, hext.node, hext.fresh, hext.at_, hext.others, hext.frame⟩ hu
      refine ⟨h.extended hext', hext'.grows h ?_⟩
      rw [hanswer] at he
      exact he
  cases step with
  | getBlock io i create => exact hask io i create _ _ ⟨rfl, rfl, rfl⟩ (Or.inr rfl)
  | writeBegin io blockWriteBegin pos len asks =>
    have hquiet : ∀ {u : Ctx}, Unmoved s u → PageInv u ∧ Grows s .quiet u := fun hu =>
      ⟨h.unmoved hu, hu.grows (fun _ _ he => by cases he) (fun _ _ he => by cases he)⟩
    rcases writeBegin_cases blockWriteBegin { s with io := io } pos len with heq | ⟨_, heq⟩
    · rw [heq]
      exact hquiet ⟨rfl, rfl, rfl⟩
    rw [heq]
    rcases asks { s with io := io } pos len with ⟨hsame, _⟩ | ⟨hsame, _⟩
    · exact hquiet ⟨hsame.sbi, hsame.disk, hsame.node⟩
    · exact hask io _ true _ _ hsame (Or.inl rfl)
  | writeEnd io genericWriteEnd pos len copied takes le range =>
    obtain ⟨n, hn, _, hz, _⟩ := writeEnd_resized (s := { s with io := io }) h.count takes pos len copied
    refine ⟨(hio io).resized hz (by omega), ?_, ?_, ?_, ?_⟩
    · exact fun i b hb => (hz.mapped_eq i).trans hb
    · exact fun i b _ _ => congrFun hz.disk b
    · rintro i b ⟨⟩
    · rintro i bytes ⟨⟩
  | writeBack i b bytes at_ => exact h.written at_ bytes

/-- The bytes of a page that were written back last. -/
def lastWritten : List Event → Nat → Option Buffer
  | [], _ => none
  | .written j bytes :: events, i =>
    (lastWritten events i).or (if j = i then some bytes else none)
  | _ :: events, i => lastWritten events i

/-- What a whole run leaves of the table. -/
structure Stored (s : Ctx) (events : List Event) (t : Ctx) : Prop where
  kept : ∀ i b, mapped s i = some b → mapped t i = some b
  answered : ∀ i b, .asked i (some b) ∈ events → mapped t i = some b
  bytes : ∀ i b, mapped s i = some b → t.disk b = (lastWritten events i).getD (s.disk b)
  stored : ∀ i bytes, lastWritten events i = some bytes → ∃ b, mapped t i = some b ∧ t.disk b = bytes

theorem Stored.refl (s : Ctx) : Stored s [] s :=
  ⟨fun _ _ hb => hb, fun _ _ hmem => absurd hmem List.not_mem_nil, fun _ _ _ => rfl,
    fun _ _ hlast => by cases hlast⟩

end

/-- A step that leaves no block without a page of the file: it maps no page, or it
writes back a page in front of the end, or it is a whole write within one page. -/
inductive WholeStep : Ctx → Event → Ctx → Prop
  | plain (s t : Ctx) (e : Event) :
      PageStep s e t → (∀ i, mapped t i = mapped s i) → t.node = s.node → WholeStep s e t
  | writePage (s : Ctx) (io : Io) (i : Nat) :
      blockSize * i < s.node.iSize →
      WholeStep s (.asked i (ouichefsFileGetBlock { s with io := io } i true).2.2)
        (ouichefsFileGetBlock { s with io := io } i true).1
  | write (s u : Ctx) (io io' : Io) (blockWriteBegin : Ctx → Nat → Nat → Ctx × Int)
      (genericWriteEnd : Inode → Nat → Nat → Nat → Nat × Int) (pos len : Nat) (ret : Int) :
      AsksForBlock blockWriteBegin → TakesOver genericWriteEnd → 0 < len →
      ouichefsWriteBegin blockWriteBegin { s with io := io } pos len = (u, ret) → 0 ≤ ret →
      len ≤ u32 (genericWriteEnd u.node pos len len).2 →
      WholeStep s .quiet (ouichefsWriteEnd genericWriteEnd { u with io := io' } pos len len).1

/-- The pages with a block are those in front of the end, and the count covers them. -/
structure WholeInv (s : Ctx) : Prop where
  pages : PageInv s
  inside : ∀ i b, mapped s i = some b → blockSize * i < s.node.iSize
  count : s.node.iBlocks = blocksOfSize s.node.iSize

theorem WholeStep.inv {s u : Ctx} (h : WholeInv s) {e : Event} (step : WholeStep s e u) :
    WholeInv u := by
  cases step with
  | plain _ _ step same node =>
    refine ⟨(step.grows h.pages).1, ?_, ?_⟩
    · intro i b hb
      rw [same] at hb
      rw [node]
      exact h.inside i b hb
    · rw [node]
      exact h.count
  | writePage io i before =>
    have hinv := (PageStep.grows h.pages (.getBlock s io i true)).1
    have hio : PageInv { s with io := io } := h.pages.unmoved ⟨rfl, rfl, rfl⟩
    rcases fileGetBlock_cases hio.blocks hio.small i true with ⟨hsame, _⟩ | ⟨_, b, _, hext⟩
    · refine ⟨hinv, ?_, ?_⟩
      · intro j c hj
        rw [hsame.mapped_eq] at hj
        rw [hsame.node]
        exact h.inside j c hj
      · rw [hsame.node]
        exact h.count
    · refine ⟨hinv, ?_, ?_⟩
      · intro j c hj
        rw [hext.node]
        by_cases hji : j = i
        · rw [hji]
          exact before
        · rw [hext.others j hji] at hj
          exact h.inside j c hj
      · rw [hext.node]
        exact h.count
  | write v io io' blockWriteBegin genericWriteEnd pos len ret asks takes some begun done full =>
    have hbegin := (PageStep.grows h.pages (.writeBegin s io blockWriteBegin pos len asks)).1
    have hnode : v.node = s.node ∧ ∀ j b, mapped v j = Option.some b → j ≠ pos / blockSize →
        mapped s j = Option.some b := by
      rcases writeBegin_cases blockWriteBegin { s with io := io } pos len with heq | ⟨_, heq⟩
      · rw [heq] at begun
        cases begun
        exact absurd done (by decide)
      have hv : v = (blockWriteBegin { s with io := io } pos len).1 := by
        rw [← heq, begun]
      rcases asks { s with io := io } pos len with ⟨hsame, _⟩ | ⟨hsame, _⟩
      · rw [hv]
        exact ⟨hsame.node, fun j b hj _ => (hsame.mapped_eq j).symm.trans hj⟩
      · have hio : PageInv { s with io := io } := h.pages.unmoved ⟨rfl, rfl, rfl⟩
        rw [hv]
        rcases fileGetBlock_cases hio.blocks hio.small (pos / blockSize) true with
          ⟨hgot, _⟩ | ⟨_, b, _, hext⟩
        · have hall := hgot.trans hsame
          exact ⟨hall.node, fun j b hj _ => (hall.mapped_eq j).symm.trans hj⟩
        · have hall := hext.then hsame
          exact ⟨hall.node, fun j c hj hne => (hall.others j hne).symm.trans hj⟩
    have hrange : pos + len ≤ maxFilesize := by
      rcases writeBegin_cases blockWriteBegin { s with io := io } pos len with heq | ⟨hle, _⟩
      · rw [heq] at begun
        cases begun
        exact absurd done (by decide)
      · exact hle
    rw [begun] at hbegin
    have hcount : v.node.iBlocks ≤ blocksOfSize v.node.iSize := by
      rw [hnode.1]
      exact Nat.le_of_eq h.count
    obtain ⟨n, hn, hret, hz, hblocks⟩ :=
      writeEnd_resized (s := { v with io := io' }) hcount takes pos len len
    rw [show (genericWriteEnd v.node pos len len).2 = (n : Int) from hret] at full
    have hall : n = len := by
      have hlt : u32 (n : Int) = n := by
        unfold maxFilesize at hrange
        unfold u32
        omega
      omega
    subst hall
    have hsize : (ouichefsWriteEnd genericWriteEnd { v with io := io' } pos n n).1.node.iSize =
        max s.node.iSize (pos + n) := by
      rw [hz.size, ← hnode.1]
    have hv : PageInv { v with io := io' } := hbegin.unmoved ⟨rfl, rfl, rfl⟩
    refine ⟨hv.resized hz hrange, ?_, ?_⟩
    · intro j b hj
      rw [hsize]
      rw [hz.mapped_eq] at hj
      by_cases hpage : j = pos / blockSize
      · have hle := Nat.mul_div_le pos blockSize
        rw [hpage]
        omega
      · have := h.inside j b (hnode.2 j b hj hpage)
        omega
    · rw [hblocks full, hsize, ← hnode.1]

theorem WholeInv.elsewhere {s u : Ctx} (h : WholeInv s) (o : Elsewhere s u) : WholeInv u := by
  refine ⟨h.pages.elsewhere o, ?_, ?_⟩
  · intro i b hb
    rw [o.mapped_eq] at hb
    rw [o.node.iSize]
    exact h.inside i b hb
  · rw [o.node.iBlocks, o.node.iSize]
    exact h.count

theorem WholeStep.contained {s u : Ctx} (h : WholeInv s) {e : Event} (step : WholeStep s e u) :
    Contained s u := by
  cases step with
  | plain _ _ step _ _ => exact step.contained h.pages
  | writePage io i before => exact PageStep.contained h.pages (.getBlock s io i true)
  | write v io io' blockWriteBegin genericWriteEnd pos len ret asks takes some begun done full =>
    have hbegin := PageStep.writeBegin s io blockWriteBegin pos len asks
    rw [begun] at hbegin
    have hv := (hbegin.grows h.pages).1
    obtain ⟨n, _, _, hz, _⟩ := writeEnd_resized (s := { v with io := io' }) hv.count takes pos len len
    have hz' : Resized v (ouichefsWriteEnd genericWriteEnd { v with io := io' } pos len len).1
      (pos + n) := ⟨hz.sbi, hz.disk, hz.index, hz.mode, hz.size, hz.count⟩
    exact (hbegin.contained h.pages).resized hz'

end PageCache
