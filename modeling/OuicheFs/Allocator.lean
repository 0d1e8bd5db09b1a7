import OuicheFs.Lib.Bits
import OuicheFs.Lib.CInt

/-!
# In-memory superblock and the free bitmaps

The mounted superblock keeps both free bitmaps in memory (a set bit is a free
number) next to separate counters. `put_free_bit` accepts the number that
equals the size of the bitmap; the model keeps that comparison.
-/
namespace Allocator

open Bits CInt

structure SbInfo where
  nrBlocks : Nat
  nrInodes : Nat
  nrIstoreBlocks : Nat
  nrIfreeBlocks : Nat
  nrBfreeBlocks : Nat
  nrFreeInodes : Nat
  nrFreeBlocks : Nat
  ifreeBitmap : Bitmap
  bfreeBitmap : Bitmap

/-- The first free bit and the bitmap with it cleared; 0 if there is none. -/
def getFirstFreeBit (freemap : Bitmap) (size : Nat) : Nat × Bitmap :=
  let ino := findFirstBit freemap size
  if ino = size then (0, freemap) else (ino, clearBit freemap ino)

def getFreeInode (sbi : SbInfo) : Nat × SbInfo :=
  let r := getFirstFreeBit sbi.ifreeBitmap sbi.nrInodes
  if r.1 ≠ 0 then
    (r.1, { sbi with ifreeBitmap := r.2, nrFreeInodes := u32 ((sbi.nrFreeInodes : Int) - 1) })
  else (r.1, { sbi with ifreeBitmap := r.2 })

def getFreeBlock (sbi : SbInfo) : Nat × SbInfo :=
  let r := getFirstFreeBit sbi.bfreeBitmap sbi.nrBlocks
  if r.1 ≠ 0 then
    (r.1, { sbi with bfreeBitmap := r.2, nrFreeBlocks := u32 ((sbi.nrFreeBlocks : Int) - 1) })
  else (r.1, { sbi with bfreeBitmap := r.2 })

/-- `none` when the number is refused. -/
def putFreeBit (freemap : Bitmap) (size i : Nat) : Option Bitmap :=
  if size < i then none else some (setBit freemap i)

def putInode (sbi : SbInfo) (ino : Nat) : SbInfo :=
  match putFreeBit sbi.ifreeBitmap sbi.nrInodes ino with
  | none => sbi
  | some m => { sbi with ifreeBitmap := m, nrFreeInodes := u32 ((sbi.nrFreeInodes : Int) + 1) }

def putBlock (sbi : SbInfo) (bno : Nat) : SbInfo :=
  match putFreeBit sbi.bfreeBitmap sbi.nrBlocks bno with
  | none => sbi
  | some m => { sbi with bfreeBitmap := m, nrFreeBlocks := u32 ((sbi.nrFreeBlocks : Int) + 1) }

/-- Two superblocks of one layout; only the bitmaps and counters may differ. -/
structure SameLayout (a b : SbInfo) : Prop where
  nrBlocks : b.nrBlocks = a.nrBlocks
  nrInodes : b.nrInodes = a.nrInodes
  nrIstoreBlocks : b.nrIstoreBlocks = a.nrIstoreBlocks
  nrIfreeBlocks : b.nrIfreeBlocks = a.nrIfreeBlocks
  nrBfreeBlocks : b.nrBfreeBlocks = a.nrBfreeBlocks

theorem SameLayout.refl (a : SbInfo) : SameLayout a a := ⟨rfl, rfl, rfl, rfl, rfl⟩

theorem SameLayout.trans {a b c : SbInfo} (h : SameLayout a b) (h' : SameLayout b c) :
    SameLayout a c :=
  ⟨h'.1.trans h.1, h'.2.trans h.2, h'.3.trans h.3, h'.4.trans h.4, h'.5.trans h.5⟩

/-- A block is taken from the bitmap, or there is none. -/
theorem getFreeBlock_spec (sbi : SbInfo) :
    SameLayout sbi (getFreeBlock sbi).2 ∧ (getFreeBlock sbi).2.ifreeBitmap = sbi.ifreeBitmap ∧
    (((getFreeBlock sbi).1 = 0 ∧
        ∀ b, sbi.bfreeBitmap b = false → (getFreeBlock sbi).2.bfreeBitmap b = false) ∨
      (0 < (getFreeBlock sbi).1 ∧ (getFreeBlock sbi).1 < sbi.nrBlocks ∧
        sbi.bfreeBitmap (getFreeBlock sbi).1 = true ∧
        (getFreeBlock sbi).2.bfreeBitmap = clearBit sbi.bfreeBitmap (getFreeBlock sbi).1)) := by
  obtain ⟨f, hf⟩ : ∃ f, f = findFirstBit sbi.bfreeBitmap sbi.nrBlocks := ⟨_, rfl⟩
  have hle := findFirstBit_le sbi.bfreeBitmap sbi.nrBlocks
  rw [← hf] at hle
  unfold getFreeBlock getFirstFreeBit
  simp only [← hf]
  by_cases hall : f = sbi.nrBlocks
  · rw [if_pos hall, if_neg (by simp)]
    exact ⟨SameLayout.refl sbi, rfl, Or.inl ⟨rfl, fun _ h => h⟩⟩
  rw [if_neg hall]
  by_cases hz : f = 0
  · rw [if_neg (by simp [hz])]
    refine ⟨⟨rfl, rfl, rfl, rfl, rfl⟩, rfl, Or.inl ⟨hz, fun b hb => ?_⟩⟩
    change clearBit sbi.bfreeBitmap f b = false
    by_cases hbf : b = f
    · rw [hbf, clearBit_self]
    · rw [clearBit_of_ne _ hbf]
      exact hb
  · rw [if_pos hz]
    refine ⟨⟨rfl, rfl, rfl, rfl, rfl⟩, rfl, Or.inr ⟨Nat.pos_of_ne_zero hz, ?_, ?_, rfl⟩⟩
    · change f < _
      omega
    · change sbi.bfreeBitmap f = true
      rw [hf]
      exact findFirstBit_set (by omega)

/-- The block half of the allocator is in order: block 0 is never free and the
counter is the number of free blocks. -/
structure BlocksOk (sbi : SbInfo) : Prop where
  zero_used : sbi.bfreeBitmap 0 = false
  counter : sbi.nrFreeBlocks = popcount sbi.bfreeBitmap sbi.nrBlocks
  range : sbi.nrBlocks < 4294967296

/-- A block of the volume that is in use. -/
structure Used (sbi : SbInfo) (b : Nat) : Prop where
  pos : 0 < b
  lt : b < sbi.nrBlocks
  taken : sbi.bfreeBitmap b = false

theorem getFreeBlock_none {sbi : SbInfo} (ok : BlocksOk sbi)
    (h : (getFreeBlock sbi).1 = 0) : sbi.nrFreeBlocks = 0 := by
  have none_set : ∀ i, i < sbi.nrBlocks → sbi.bfreeBitmap i = false := by
    apply (findFirstBit_eq_size_iff _ _).mp
    by_contra hne
    have hlt : findFirstBit sbi.bfreeBitmap sbi.nrBlocks < sbi.nrBlocks := by
      have := findFirstBit_le sbi.bfreeBitmap sbi.nrBlocks
      omega
    have hset := findFirstBit_set hlt
    have hzero : findFirstBit sbi.bfreeBitmap sbi.nrBlocks ≠ 0 := by
      intro hz
      rw [hz, ok.zero_used] at hset
      cases hset
    simp [getFreeBlock, getFirstFreeBit, hne, hzero] at h
  rw [ok.counter]
  by_contra hpos
  obtain ⟨i, hi, hset⟩ := (popcount_pos_iff _ _).mp (Nat.pos_of_ne_zero hpos)
  rw [none_set i hi] at hset
  cases hset

/-- What one successful allocation does. -/
structure Taken (sbi sbi' : SbInfo) (b : Nat) : Prop where
  layout : SameLayout sbi sbi'
  pos : 0 < b
  lt : b < sbi.nrBlocks
  was_free : sbi.bfreeBitmap b = true
  lowest : popcount sbi.bfreeBitmap b = 0
  bitmap : sbi'.bfreeBitmap = clearBit sbi.bfreeBitmap b
  count : sbi'.nrFreeBlocks + 1 = sbi.nrFreeBlocks
  inodes : sbi'.ifreeBitmap = sbi.ifreeBitmap ∧ sbi'.nrFreeInodes = sbi.nrFreeInodes

/-- The allocator hands out the lowest free block. -/
theorem getFreeBlock_eq {sbi : SbInfo} {b : Nat} (pos : 0 < b) (lt : b < sbi.nrBlocks)
    (free : sbi.bfreeBitmap b = true) (below : ∀ j, j < b → sbi.bfreeBitmap j = false) :
    getFreeBlock sbi = (b, { sbi with
      bfreeBitmap := clearBit sbi.bfreeBitmap b
      nrFreeBlocks := u32 ((sbi.nrFreeBlocks : Int) - 1) }) := by
  have hfirst := findFirstBit_eq lt free below
  have hne : b ≠ sbi.nrBlocks := by omega
  have hz : b ≠ 0 := by omega
  simp [getFreeBlock, getFirstFreeBit, hfirst, hne, hz]

theorem getFreeBlock_taken {sbi : SbInfo} (ok : BlocksOk sbi) (h : 0 < sbi.nrFreeBlocks) :
    Taken sbi (getFreeBlock sbi).2 (getFreeBlock sbi).1 := by
  have hlt : findFirstBit sbi.bfreeBitmap sbi.nrBlocks < sbi.nrBlocks := by
    have hle := findFirstBit_le sbi.bfreeBitmap sbi.nrBlocks
    by_contra hge
    have heq : findFirstBit sbi.bfreeBitmap sbi.nrBlocks = sbi.nrBlocks := by omega
    have := getFreeBlock_none ok (by simp [getFreeBlock, getFirstFreeBit, heq])
    omega
  have hset := findFirstBit_set hlt
  have hpos : 0 < findFirstBit sbi.bfreeBitmap sbi.nrBlocks := by
    apply Nat.pos_of_ne_zero
    intro hz
    rw [hz, ok.zero_used] at hset
    cases hset
  have hlow : popcount sbi.bfreeBitmap (findFirstBit sbi.bfreeBitmap sbi.nrBlocks) = 0 := by
    by_contra hne
    obtain ⟨i, hi, hfree⟩ := (popcount_pos_iff _ _).mp (Nat.pos_of_ne_zero hne)
    rw [findFirstBit_below hi] at hfree
    cases hfree
  have hcount := ok.counter
  have hle := popcount_le sbi.bfreeBitmap sbi.nrBlocks
  have hrange := ok.range
  rw [getFreeBlock_eq hpos hlt hset (fun j hj => findFirstBit_below hj)]
  refine ⟨⟨rfl, rfl, rfl, rfl, rfl⟩, hpos, hlt, hset, hlow, rfl, ?_, rfl, rfl⟩
  change u32 ((sbi.nrFreeBlocks : Int) - 1) + 1 = sbi.nrFreeBlocks
  rw [u32_pred (by omega) (by omega)]
  omega

theorem Taken.blocksOk {sbi sbi' : SbInfo} {b : Nat} (ok : BlocksOk sbi)
    (t : Taken sbi sbi' b) : BlocksOk sbi' := by
  constructor
  · rw [t.bitmap, clearBit_of_ne _ (Nat.ne_of_lt t.pos)]
    exact ok.zero_used
  · have hp := popcount_clearBit t.lt t.was_free
    have hc := t.count
    have hk := ok.counter
    rw [t.bitmap, t.layout.nrBlocks]
    omega
  · rw [t.layout.nrBlocks]
    exact ok.range

theorem putBlock_refused {sbi : SbInfo} {b : Nat} (gt : sbi.nrBlocks < b) : putBlock sbi b = sbi := by
  unfold putBlock putFreeBit
  rw [if_pos gt]

/-- What giving back a used block does. -/
structure Given (sbi sbi' : SbInfo) (b : Nat) : Prop where
  layout : SameLayout sbi sbi'
  bitmap : sbi'.bfreeBitmap = setBit sbi.bfreeBitmap b
  count : sbi'.nrFreeBlocks = u32 ((sbi.nrFreeBlocks : Int) + 1)
  inodes : sbi'.ifreeBitmap = sbi.ifreeBitmap ∧ sbi'.nrFreeInodes = sbi.nrFreeInodes

theorem putBlock_given {sbi : SbInfo} {b : Nat} (h : b ≤ sbi.nrBlocks) :
    Given sbi (putBlock sbi b) b := by
  have hle : ¬ sbi.nrBlocks < b := by omega
  have hval : putBlock sbi b = { sbi with
      bfreeBitmap := setBit sbi.bfreeBitmap b
      nrFreeBlocks := u32 ((sbi.nrFreeBlocks : Int) + 1) } := by
    simp [putBlock, putFreeBit, hle]
  rw [hval]
  exact ⟨⟨rfl, rfl, rfl, rfl, rfl⟩, rfl, rfl, rfl, rfl⟩

theorem Given.blocksOk {sbi sbi' : SbInfo} {b : Nat} (ok : BlocksOk sbi) (u : Used sbi b)
    (g : Given sbi sbi' b) : BlocksOk sbi' ∧ sbi'.nrFreeBlocks = sbi.nrFreeBlocks + 1 := by
  have hp := popcount_setBit u.lt u.taken
  have hk := ok.counter
  have hle := popcount_le (setBit sbi.bfreeBitmap b) sbi.nrBlocks
  have hrange := ok.range
  have hcount : sbi'.nrFreeBlocks = sbi.nrFreeBlocks + 1 := by
    rw [g.count]
    unfold u32
    omega
  refine ⟨⟨?_, ?_, ?_⟩, hcount⟩
  · rw [g.bitmap, setBit_of_ne _ (Nat.ne_of_lt u.pos)]
    exact ok.zero_used
  · rw [g.bitmap, g.layout.nrBlocks]
    omega
  · rw [g.layout.nrBlocks]
    exact ok.range

/-- What a row of successful allocations does; `fresh` lists the blocks taken, the
lowest free block first. -/
structure Allocated (sbi sbi' : SbInfo) (fresh : List Nat) : Prop where
  layout : SameLayout sbi sbi'
  nodup : fresh.Nodup
  were_free : ∀ b ∈ fresh, 0 < b ∧ b < sbi.nrBlocks ∧ sbi.bfreeBitmap b = true
  order : ∀ (j b : Nat), fresh[j]? = some b → popcount sbi.bfreeBitmap b = j
  bitmap : ∀ b, sbi'.bfreeBitmap b = (sbi.bfreeBitmap b && !decide (b ∈ fresh))
  count : sbi'.nrFreeBlocks + fresh.length = sbi.nrFreeBlocks
  inodes : sbi'.ifreeBitmap = sbi.ifreeBitmap ∧ sbi'.nrFreeInodes = sbi.nrFreeInodes
  ok : BlocksOk sbi'

theorem Allocated.nil {sbi : SbInfo} (ok : BlocksOk sbi) : Allocated sbi sbi [] :=
  ⟨SameLayout.refl sbi, List.nodup_nil, by simp, by simp, by simp, rfl, ⟨rfl, rfl⟩, ok⟩

theorem Taken.allocated {sbi sbi' : SbInfo} {b : Nat} (ok : BlocksOk sbi)
    (t : Taken sbi sbi' b) : Allocated sbi sbi' [b] := by
  refine ⟨t.layout, List.nodup_singleton b, ?_, ?_, ?_, t.count, t.inodes, t.blocksOk ok⟩
  · intro c hc
    rw [List.mem_singleton.mp hc]
    exact ⟨t.pos, t.lt, t.was_free⟩
  · intro j c hc
    obtain ⟨hj, rfl⟩ := List.getElem?_eq_some_iff.mp hc
    obtain rfl : j = 0 := by simpa using hj
    exact t.lowest
  · intro c
    rw [t.bitmap]
    by_cases h : c = b
    · subst h
      simp
    · rw [clearBit_of_ne _ h]
      simp [h]

theorem Allocated.lowest {sbi sbi' : SbInfo} {fresh : List Nat} (h : Allocated sbi sbi' fresh)
    {b : Nat} (hb : b ∈ fresh) : popcount sbi.bfreeBitmap b < fresh.length := by
  obtain ⟨j, hj, rfl⟩ := List.getElem_of_mem hb
  rw [h.order j _ (List.getElem?_eq_getElem hj)]
  exact hj

/-- A block that is still free lies behind the blocks taken. -/
theorem Allocated.behind {sbi sbi' : SbInfo} {fresh : List Nat} (h : Allocated sbi sbi' fresh)
    {x y : Nat} (hx : x ∈ fresh) (hy : sbi'.bfreeBitmap y = true) : x < y := by
  rw [h.bitmap y] at hy
  simp only [Bool.and_eq_true, Bool.not_eq_true', decide_eq_false_iff_not] at hy
  obtain ⟨hfree, hnot⟩ := hy
  by_contra hge
  have hlt : y < x := by
    rcases Nat.lt_or_ge y x with hlt | hle
    · exact hlt
    · have heq : x = y := by omega
      exact absurd (heq ▸ hx) hnot
  -- the free block at the rank of `y` has been taken before `x`
  have hrank : popcount sbi.bfreeBitmap y < fresh.length :=
    Nat.lt_trans (Nat.count_strict_mono hfree hlt) (h.lowest hx)
  obtain ⟨z, hz⟩ : ∃ z, fresh[popcount sbi.bfreeBitmap y]? = some z :=
    ⟨_, List.getElem?_eq_getElem hrank⟩
  have hsame : popcount sbi.bfreeBitmap z = popcount sbi.bfreeBitmap y := h.order _ z hz
  have hzfree := (h.were_free z (List.mem_of_getElem? hz)).2.2
  have heq : z = y := Nat.count_injective hzfree hfree hsame
  exact hnot (heq ▸ List.mem_of_getElem? hz)

/-- Allocations lower the number of free blocks below any bound by at most
their number. -/
theorem Allocated.popcount_le {sbi sbi' : SbInfo} {fresh : List Nat}
    (h : Allocated sbi sbi' fresh) (n : Nat) :
    popcount sbi.bfreeBitmap n ≤ popcount sbi'.bfreeBitmap n + fresh.length := by
  have hle := popcount_le_remove sbi.bfreeBitmap fresh n
  rw [popcount_congr (fun i _ => h.bitmap i)]
  exact hle

theorem Allocated.append {a b c : SbInfo} {xs ys : List Nat} (h : Allocated a b xs)
    (h' : Allocated b c ys) : Allocated a c (xs ++ ys) := by
  have disjoint : ∀ y ∈ ys, y ∉ xs := by
    intro y hy hx
    have hfree := (h'.were_free y hy).2.2
    rw [h.bitmap y] at hfree
    simp [hx] at hfree
  refine ⟨h.layout.trans h'.layout, ?_, ?_, ?_, ?_, ?_, ?_, h'.ok⟩
  · refine List.nodup_append.mpr ⟨h.nodup, h'.nodup, ?_⟩
    intro x hx y hy heq
    exact disjoint y hy (heq ▸ hx)
  · intro d hd
    rcases List.mem_append.mp hd with hx | hy
    · exact h.were_free d hx
    · obtain ⟨hpos, hlt, hfree⟩ := h'.were_free d hy
      rw [h.layout.nrBlocks] at hlt
      rw [h.bitmap d] at hfree
      exact ⟨hpos, hlt, (Bool.and_eq_true _ _ ▸ hfree).1⟩
  · intro j d hd
    rcases Nat.lt_or_ge j xs.length with hlt | hge
    · rw [List.getElem?_append_left hlt] at hd
      exact h.order j d hd
    · rw [List.getElem?_append_right hge] at hd
      have hrank := h'.order _ d hd
      have hfree := (h'.were_free d (List.mem_of_getElem? hd)).2.2
      have hback : ∀ i, i < d → a.bfreeBitmap i = (b.bfreeBitmap i || decide (i ∈ xs)) := by
        intro i _
        rw [h.bitmap i]
        by_cases hi : i ∈ xs
        · simp [hi, (h.were_free i hi).2.2]
        · simp [hi]
      rw [popcount_congr hback, popcount_insert h.nodup, hrank]
      · omega
      · intro x hx
        refine ⟨h.behind hx hfree, ?_⟩
        rw [h.bitmap x]
        simp [hx]
  · intro d
    rw [h'.bitmap d, h.bitmap d]
    by_cases hx : d ∈ xs <;> by_cases hy : d ∈ ys <;> simp [hx, hy]
  · have := h.count
    have := h'.count
    simp only [List.length_append]
    omega
  · exact ⟨h'.inodes.1.trans h.inodes.1, h'.inodes.2.trans h.inodes.2⟩

/-- Blocks in use stay in use, and none of the blocks taken was one of them. -/
theorem Allocated.used {sbi sbi' : SbInfo} {fresh : List Nat} (h : Allocated sbi sbi' fresh)
    {b : Nat} (u : Used sbi b) : Used sbi' b ∧ b ∉ fresh := by
  refine ⟨⟨u.pos, h.layout.nrBlocks ▸ u.lt, ?_⟩, ?_⟩
  · rw [h.bitmap b, u.taken]
    rfl
  · intro hb
    have hfree := (h.were_free b hb).2.2
    rw [u.taken] at hfree
    cases hfree

theorem Allocated.fresh_used {sbi sbi' : SbInfo} {fresh : List Nat}
    (h : Allocated sbi sbi' fresh) {b : Nat} (hb : b ∈ fresh) : Used sbi' b := by
  obtain ⟨hpos, hlt, _⟩ := h.were_free b hb
  refine ⟨hpos, h.layout.nrBlocks ▸ hlt, ?_⟩
  rw [h.bitmap b]
  simp [hb]

/-- What a row of releases does; `freed` lists the blocks given back. The
counter is a 32-bit number. -/
structure Released (sbi sbi' : SbInfo) (freed : List Nat) : Prop where
  layout : SameLayout sbi sbi'
  bitmap : ∀ b, sbi'.bfreeBitmap b = (sbi.bfreeBitmap b || decide (b ∈ freed))
  count : sbi.nrFreeBlocks + freed.length < 4294967296 →
    sbi'.nrFreeBlocks = sbi.nrFreeBlocks + freed.length
  inodes : sbi'.ifreeBitmap = sbi.ifreeBitmap ∧ sbi'.nrFreeInodes = sbi.nrFreeInodes

theorem Released.nil (sbi : SbInfo) : Released sbi sbi [] :=
  ⟨SameLayout.refl sbi, by simp, fun _ => rfl, rfl, rfl⟩

theorem Released.cons {a b c : SbInfo} {x : Nat} {xs : List Nat} (g : Given a b x)
    (h : Released b c xs) : Released a c (x :: xs) := by
  refine ⟨g.layout.trans h.layout, ?_, ?_, ?_⟩
  · intro d
    rw [h.bitmap d, g.bitmap]
    by_cases hd : d = x
    · subst hd
      simp
    · rw [setBit_of_ne _ hd]
      simp [hd]
  · intro hlt
    rw [List.length_cons] at hlt ⊢
    have hone : b.nrFreeBlocks = a.nrFreeBlocks + 1 := by
      rw [g.count]
      unfold u32
      omega
    rw [h.count (by omega)]
    omega
  · exact ⟨h.inodes.1.trans g.inodes.1, h.inodes.2.trans g.inodes.2⟩

theorem Released.append {a b c : SbInfo} {xs ys : List Nat} (h : Released a b xs)
    (h' : Released b c ys) : Released a c (xs ++ ys) := by
  refine ⟨h.layout.trans h'.layout, ?_, ?_, ?_⟩
  · intro d
    rw [h'.bitmap d, h.bitmap d, Bool.or_assoc, ← Bool.decide_or]
    simp only [List.mem_append]
  · intro hlt
    rw [List.length_append] at hlt ⊢
    rw [h'.count (by rw [h.count (by omega)]; omega), h.count (by omega), Nat.add_assoc]
  · exact ⟨h'.inodes.1.trans h.inodes.1, h'.inodes.2.trans h.inodes.2⟩

/-- A block in use that is not given back stays in use. -/
theorem Released.used {sbi sbi' : SbInfo} {freed : List Nat} (h : Released sbi sbi' freed)
    {b : Nat} (u : Used sbi b) (hb : b ∉ freed) : Used sbi' b := by
  refine ⟨u.pos, h.layout.nrBlocks ▸ u.lt, ?_⟩
  rw [h.bitmap b, u.taken]
  simp [hb]

/-- Giving back blocks in use keeps the allocator in order. -/
theorem Released.blocksOk {sbi sbi' : SbInfo} {freed : List Nat} (h : Released sbi sbi' freed)
    (ok : BlocksOk sbi) (nodup : freed.Nodup) (used : ∀ b ∈ freed, Used sbi b) :
    BlocksOk sbi' := by
  have hp := popcount_insert nodup
    (fun b hb => ⟨(used b hb).lt, (used b hb).taken⟩)
  have hle := popcount_le (fun i => sbi.bfreeBitmap i || decide (i ∈ freed)) sbi.nrBlocks
  have hrange := ok.range
  have hcounter := ok.counter
  refine ⟨?_, ?_, h.layout.nrBlocks ▸ hrange⟩
  · rw [h.bitmap, ok.zero_used]
    have : 0 ∉ freed := fun hb => absurd (used 0 hb).pos (lt_irrefl 0)
    simp [this]
  · rw [h.count (by omega), popcount_congr (fun i _ => h.bitmap i), h.layout.nrBlocks]
    omega

/-! ## Taking a number and giving it back -/

section

variable {m : Bitmap} {size : Nat}

theorem getFirstFreeBit_none (zero : m 0 = false) (none : (getFirstFreeBit m size).1 = 0) :
    (getFirstFreeBit m size).2 = m := by
  unfold getFirstFreeBit at none ⊢
  simp only at none ⊢
  by_cases hall : findFirstBit m size = size
  · rw [if_pos hall]
  · rw [if_neg hall] at none ⊢
    have hset := findFirstBit_set (show findFirstBit m size < size by
      have := findFirstBit_le m size
      omega)
    rw [show findFirstBit m size = 0 from none, zero] at hset
    cases hset

theorem putFreeBit_getFirstFreeBit (some : (getFirstFreeBit m size).1 ≠ 0) :
    putFreeBit (getFirstFreeBit m size).2 size (getFirstFreeBit m size).1 = Option.some m := by
  unfold getFirstFreeBit at some ⊢
  simp only at some ⊢
  by_cases hall : findFirstBit m size = size
  · rw [if_pos hall] at some
    exact absurd rfl some
  · have hlt : findFirstBit m size < size := by
      have := findFirstBit_le m size
      omega
    rw [if_neg hall]
    unfold putFreeBit
    rw [if_neg (Nat.not_lt.mpr (Nat.le_of_lt hlt))]
    congr 1
    funext i
    by_cases hi : i = findFirstBit m size
    · rw [hi, setBit_self, findFirstBit_set hlt]
    · rw [setBit_of_ne _ hi]
      exact clearBit_of_ne _ hi

end

section

variable {sbi : SbInfo}

theorem getFreeInode_fails (zero : sbi.ifreeBitmap 0 = false) (none : (getFreeInode sbi).1 = 0) :
    (getFreeInode sbi).2 = sbi := by
  unfold getFreeInode at none ⊢
  simp only at none ⊢
  by_cases hz : (getFirstFreeBit sbi.ifreeBitmap sbi.nrInodes).1 = 0
  · rw [if_neg (not_not.mpr hz)]
    simp only [getFirstFreeBit_none zero hz]
  · rw [if_pos hz] at none
    exact absurd none hz

theorem getFreeBlock_fails (zero : sbi.bfreeBitmap 0 = false) (none : (getFreeBlock sbi).1 = 0) :
    (getFreeBlock sbi).2 = sbi := by
  unfold getFreeBlock at none ⊢
  simp only at none ⊢
  by_cases hz : (getFirstFreeBit sbi.bfreeBitmap sbi.nrBlocks).1 = 0
  · rw [if_neg (not_not.mpr hz)]
    simp only [getFirstFreeBit_none zero hz]
  · rw [if_pos hz] at none
    exact absurd none hz

theorem putInode_getFreeInode (count : sbi.nrFreeInodes < 4294967296)
    (some : (getFreeInode sbi).1 ≠ 0) : putInode (getFreeInode sbi).2 (getFreeInode sbi).1 = sbi := by
  unfold getFreeInode at some ⊢
  simp only at some ⊢
  by_cases hz : (getFirstFreeBit sbi.ifreeBitmap sbi.nrInodes).1 = 0
  · rw [if_neg (not_not.mpr hz)] at some
    exact absurd hz some
  · rw [if_pos hz]
    simp only [putInode, putFreeBit_getFirstFreeBit hz, u32_down_up count]

theorem putBlock_getFreeBlock (count : sbi.nrFreeBlocks < 4294967296)
    (some : (getFreeBlock sbi).1 ≠ 0) : putBlock (getFreeBlock sbi).2 (getFreeBlock sbi).1 = sbi := by
  unfold getFreeBlock at some ⊢
  simp only at some ⊢
  by_cases hz : (getFirstFreeBit sbi.bfreeBitmap sbi.nrBlocks).1 = 0
  · rw [if_neg (not_not.mpr hz)] at some
    exact absurd hz some
  · rw [if_pos hz]
    simp only [putBlock, putFreeBit_getFirstFreeBit hz, u32_down_up count]

theorem getFreeInode_count (some : (getFreeInode sbi).1 ≠ 0) :
    (getFreeInode sbi).2.nrFreeInodes = u32 ((sbi.nrFreeInodes : Int) - 1) := by
  unfold getFreeInode at some ⊢
  simp only at some ⊢
  by_cases hz : (getFirstFreeBit sbi.ifreeBitmap sbi.nrInodes).1 = 0
  · rw [if_neg (not_not.mpr hz)] at some
    exact absurd hz some
  · rw [if_pos hz]

/-- The blocks are not affected by the choice of an inode number. -/
theorem getFreeInode_blocks (sbi : SbInfo) : (getFreeInode sbi).2.bfreeBitmap = sbi.bfreeBitmap ∧
    (getFreeInode sbi).2.nrFreeBlocks = sbi.nrFreeBlocks := by
  unfold getFreeInode
  simp only
  split
  · exact ⟨rfl, rfl⟩
  · exact ⟨rfl, rfl⟩

end

end Allocator
