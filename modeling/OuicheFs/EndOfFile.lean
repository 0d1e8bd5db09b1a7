import OuicheFs.Exposure

/-!
# Reads at and behind the end of the file

The position search of `ouichefs_light_read` narrows the position to an `int`
before it compares it with the sizes of the blocks. Up to 2^31 a read behind
the end is empty. From there on the narrowed position decides, and it may be
negative or lie inside the file.

`ouichefs_read` takes the last block from `i_blocks` and the bytes in it from
`i_size`. Behind these bytes the subtraction wraps around, and when the two
disagree the bound is not that of the file.
-/
namespace EndOfFile

open CInt ByteBuffer IndexEntry Allocator FileContext Layout Search OuicheFile OuicheWrite
  OuicheRead Reserve LightWrite FileRun Streaming PlainWrite

/-! ## Reads of insert-mode files -/

/-- Whatever fails, a read at `pos` returns 0, makes no user copy and leaves the
position alone. -/
def EmptyAt (s : Ctx) (pos : Nat) : Prop :=
  ∀ before io fFlags size, readFlags fFlags = true →
    (ouichefsLightRead before { s with io := io } fFlags size pos).ret = 0 ∧
      (ouichefsLightRead before { s with io := io } fFlags size pos).pos = pos ∧
      (ouichefsLightRead before { s with io := io } fFlags size pos).data = [] ∧
      (ouichefsLightRead before { s with io := io } fFlags size pos).ctx.io.ucopy = io.ucopy

/-- Nothing is found behind the narrowed position `r`: there is no data block, or
it is behind the last byte, or at the end of a block, or so far below zero that
the first subtraction of the search wraps around. -/
inductive NothingBehind (es : List Word) (r : Int) : Prop
  | empty : es = [] → NothingBehind es r
  | after : (total es : Int) < r → NothingBehind es r
  | boundary (A B : List Word) : es = A ++ B → A ≠ [] → r = total A → NothingBehind es r
  | wraps (e : Word) (B : List Word) :
      es = e :: B → r - getBlockSize e < -2147483648 → NothingBehind es r

theorem lightReadLoop_silent (before : Nat → Byte) (n : Nat) (s : Ctx) (lbi : Nat) (lp : Int)
    (remaining : Nat) (dry : u64 ((getBlockSize (s.blocks lbi) : Int) - lp) = 0) :
    (lightReadLoop before n s lbi lp remaining).2 = [] ∧
      (lightReadLoop before n s lbi lp remaining).1.io.ucopy = s.io.ucopy := by
  cases n with
  | zero => exact ⟨rfl, rfl⟩
  | succ n =>
    have hdry : u64 ((getBlockSize ((s.touch lbi).blocks lbi) : Int) - lp) = 0 := dry
    rw [lightReadLoop]
    split
    · exact ⟨rfl, rfl⟩
    simp only [hdry, if_true]
    split
    · exact ⟨rfl, rfl⟩
    · exact ⟨rfl, rfl⟩

theorem lightReadLoop_speaks (before : Nat → Byte) (n : Nat) (s : Ctx) (lbi : Nat) (lp : Int)
    (calm : Calm s s) (wet : u64 ((getBlockSize (s.blocks lbi) : Int) - lp) ≠ 0) :
    (lightReadLoop before (n + 1) s lbi lp 1).2 ≠ [] := by
  have hwet : u64 ((getBlockSize ((s.touch lbi).blocks lbi) : Int) - lp) ≠ 0 := wet
  have hread : ¬ (s.touch lbi).io.bread 0 = false := by
    rw [show (s.touch lbi).io.bread 0 = true from calm.reads 0]
    decide
  have hcopy : ¬ (s.touch lbi).popBread.io.ucopy 0 ≠ none := fun h => h (calm.copies 0)
  have hlen : min (u64 ((getBlockSize ((s.touch lbi).blocks lbi) : Int) - lp)) 1 = 1 := by
    omega
  rw [lightReadLoop, if_neg (by decide)]
  simp only [if_neg hread, if_neg hwet, if_neg hcopy, hlen]
  simp [peek]

section

variable {s : Ctx} {pos : Nat}

/-- A call that does not come to the copy loop. -/
theorem ouichefsLightRead_unfound (before : Nat → Byte) (fFlags size : Nat)
    (readable : readFlags fFlags = true)
    (nowhere : s.io.bread 0 = false ∨
      findBlockPos pos s.blocks (i32 ((s.node.iBlocks : Int) - 1)) = none) :
    ouichefsLightRead before s fFlags size pos = ⟨s.popBread, 0, pos, []⟩ := by
  unfold ouichefsLightRead
  rw [if_neg (by simp [readable])]
  split
  · rfl
  · rename_i hread
    have hfound : findBlockPos pos s.popBread.blocks
        (i32 ((s.popBread.node.iBlocks : Int) - 1)) = none := nowhere.resolve_left hread
    simp only [hfound]

theorem ouichefsLightRead_silent (before : Nat → Byte) (fFlags size : Nat)
    (readable : readFlags fFlags = true)
    (dry : ∀ lbi lp,
      findBlockPos pos s.blocks (i32 ((s.node.iBlocks : Int) - 1)) = some (lbi, lp) →
      (lbi : Int) < i32 ((s.node.iBlocks : Int) - 1) →
      u64 ((getBlockSize (s.blocks lbi) : Int) - lp) = 0) :
    (ouichefsLightRead before s fFlags size pos).ret = 0 ∧
      (ouichefsLightRead before s fFlags size pos).pos = pos ∧
      (ouichefsLightRead before s fFlags size pos).data = [] ∧
      (ouichefsLightRead before s fFlags size pos).ctx.io.ucopy = s.io.ucopy := by
  by_cases hnowhere : s.io.bread 0 = false ∨
      findBlockPos pos s.blocks (i32 ((s.node.iBlocks : Int) - 1)) = none
  · rw [ouichefsLightRead_unfound before fFlags size readable hnowhere]
    exact ⟨rfl, rfl, rfl, rfl⟩
  obtain ⟨hread, hsome⟩ := not_or.mp hnowhere
  obtain ⟨⟨lbi, lp⟩, hfound⟩ := Option.ne_none_iff_exists'.mp hsome
  have hquiet : ∀ n, n = (i32 ((s.node.iBlocks : Int) - 1) - (lbi : Int)).toNat →
      (lightReadLoop before n s.popBread lbi lp size).2 = [] ∧
      (lightReadLoop before n s.popBread lbi lp size).1.io.ucopy = s.io.ucopy := by
    intro n hn
    cases n with
    | zero => exact ⟨rfl, rfl⟩
    | succ n =>
      exact lightReadLoop_silent before (n + 1) s.popBread lbi lp size
        (dry lbi lp hfound (by omega))
  obtain ⟨hdata, hio⟩ := hquiet _ rfl
  rw [ouichefsLightRead_loop before fFlags size readable (by simpa using hread) hfound rfl, hdata]
  exact ⟨rfl, rfl, rfl, hio⟩

/-- With a byte left behind the cursor, a read of one byte delivers it. -/
theorem ouichefsLightRead_speaks (before : Nat → Byte) {lbi : Nat} {lp : Int}
    (found : findBlockPos pos s.blocks (i32 ((s.node.iBlocks : Int) - 1)) = some (lbi, lp))
    (lt : (lbi : Int) < i32 ((s.node.iBlocks : Int) - 1))
    (wet : u64 ((getBlockSize (s.blocks lbi) : Int) - lp) ≠ 0) :
    (ouichefsLightRead before { s with io := calmIo } 0 1 pos).data ≠ [] := by
  obtain ⟨n, hn⟩ : ∃ n, (i32 ((s.node.iBlocks : Int) - 1) - (lbi : Int)).toNat = n + 1 :=
    ⟨(i32 ((s.node.iBlocks : Int) - 1) - (lbi : Int)).toNat - 1, by omega⟩
  obtain ⟨t, ht⟩ : ∃ t : Ctx, t = { s with io := calmIo } := ⟨_, rfl⟩
  have hspeaks := lightReadLoop_speaks before n t.popBread lbi lp
    (by subst ht; exact ⟨rfl, rfl, fun _ => rfl, fun _ => rfl⟩) (by subst ht; exact wet)
  have hrun := ouichefsLightRead_loop (s := t) before 0 1 (by decide)
    (by subst ht; rfl) (by subst ht; exact found) rfl
  have hcount : (i32 ((t.node.iBlocks : Int) - 1) - (lbi : Int)).toNat = n + 1 := by
    subst ht
    exact hn
  rw [← ht, hrun, hcount]
  exact hspeaks

/-- A read is empty if and only if the cursor it starts from, when it is in a data
block, has no byte of it left. -/
theorem emptyAt_iff_cursor (s : Ctx) (pos : Nat) :
    EmptyAt s pos ↔ ∀ lbi lp,
      findBlockPos pos s.blocks (i32 ((s.node.iBlocks : Int) - 1)) = some (lbi, lp) →
      (lbi : Int) < i32 ((s.node.iBlocks : Int) - 1) →
      u64 ((getBlockSize (s.blocks lbi) : Int) - lp) = 0 := by
  constructor
  · intro h lbi lp hfound hlt
    by_contra hwet
    obtain ⟨_, _, hdata, _⟩ := h (fun _ => 0) calmIo 0 1 (by decide)
    exact ouichefsLightRead_speaks (fun _ => 0) hfound hlt hwet hdata
  · intro h before io fFlags size readable
    exact ouichefsLightRead_silent before fFlags size readable h

/-- Only the narrowed position matters to the search. -/
theorem findBlockPos_narrowed {m : Nat} (blocks : Nat → Word) (nb : Int) (lt : m < 2147483648)
    (eq : i32 pos = m) : findBlockPos pos blocks nb = findBlockPos m blocks nb := by
  rw [findBlockPos, findBlockPos, eq, i32_eq_self (by omega) (by omega)]

theorem i32_range (x : Int) : -2147483648 ≤ i32 x ∧ i32 x < 2147483648 := by
  unfold i32
  rw [Int.bmod_def]
  omega

variable {es : List Word}

theorem findBlockPos_unfold (shape : Shape s es) :
    findBlockPos pos s.blocks (i32 ((s.node.iBlocks : Int) - 1)) =
      findBlockPosLoop s.blocks es.length 0 (i32 pos) := by
  have hl := shape.length_le
  rw [findBlockPos, shape.nbBlocks, u32_natCast (by omega)]

/-- A negative position stays in the first block, unless the first subtraction wraps
around. Then it is far behind the end of the file. -/
theorem findBlockPos_negative {e : Word} {B : List Word} (shape : Shape s (e :: B))
    (neg : i32 pos < 0) :
    findBlockPos pos s.blocks (i32 ((s.node.iBlocks : Int) - 1)) =
      if i32 pos - getBlockSize e < -2147483648 then none else some (0, i32 pos) := by
  have hl := shape.length_le
  have hs := getBlockSize_le e
  obtain ⟨hlo, _⟩ := i32_range pos
  have hfirst : s.blocks 0 = e := by simpa using shape.slots 0 (by omega)
  have hne : ¬ i32 pos = 0 := by omega
  rw [findBlockPos_unfold shape, List.length_cons, findBlockPosLoop, if_neg hne]
  simp only [hfirst]
  by_cases hwrap : i32 pos - getBlockSize e < -2147483648
  · have hleft : i32 (i32 pos - getBlockSize e) =
        ((i32 pos - getBlockSize e + 4294967296).toNat : Int) := by
      rw [i32, Int.bmod_def]
      omega
    have hgt : ¬ i32 (i32 pos - getBlockSize e) ≤ 0 := by
      rw [hleft]
      omega
    have htail := total_le B
    rw [List.length_cons] at hl
    rw [if_pos hwrap, if_neg hgt, hleft]
    apply findBlockPosLoop_none B
    · intro i hi
      have hslot := shape.slots (0 + 1 + i) (by omega)
      simpa [Nat.add_comm 1 i] using hslot
    · omega
    · omega
  · have hle : i32 (i32 pos - getBlockSize e) ≤ 0 := by
      rw [i32_eq_self (by omega) (by omega)]
      omega
    rw [if_neg hwrap, if_pos hle]

/-- A search that leaves no byte behind the cursor. -/
theorem nothingBehind_of_dry (shape : Shape s es)
    (h : ∀ lbi lp,
      findBlockPos pos s.blocks (i32 ((s.node.iBlocks : Int) - 1)) = some (lbi, lp) →
      (lbi : Int) < i32 ((s.node.iBlocks : Int) - 1) →
      u64 ((getBlockSize (s.blocks lbi) : Int) - lp) = 0) : NothingBehind es (i32 pos) := by
  have hl := shape.length_le
  have ht := total_le es
  obtain ⟨hlo, hhi⟩ := i32_range pos
  cases es with
  | nil => exact .empty rfl
  | cons e B =>
    by_cases hneg : i32 pos < 0
    · refine .wraps e B rfl ?_
      by_contra hstay
      have hs := getBlockSize_le e
      have hfirst : s.blocks 0 = e := by simpa using shape.slots 0 (by omega)
      have hfound := findBlockPos_negative shape hneg
      rw [if_neg hstay] at hfound
      have hdry := h 0 (i32 pos) hfound (by rw [shape.nbBlocks]; simp)
      rw [hfirst, u64] at hdry
      omega
    · by_cases hafter : (total (e :: B) : Int) < i32 pos
      · exact .after hafter
      obtain ⟨m, hm⟩ := Int.eq_ofNat_of_zero_le (not_lt.mp hneg)
      obtain ⟨A, L, p, hsplit, hcut, hfound⟩ := findBlockPos_cut shape (show m ≤ _ by omega)
      rw [← findBlockPos_narrowed _ _ (by omega) hm] at hfound
      have hne : L ≠ [] := by
        cases hcut with
        | start => simp
        | inside => simp
      obtain ⟨d, D, rfl⟩ := List.exists_cons_of_ne_nil hne
      have hlen : (e :: B).length = A.length + (D.length + 1) := by
        rw [hsplit, List.length_append, List.length_cons]
      have hslot : s.blocks A.length = d := by
        simpa using blocks_behind shape hsplit 0 (by simp)
      have hle := hcut.le_head d rfl
      have hs := getBlockSize_le d
      have hdry := h A.length p hfound (by rw [shape.nbBlocks]; omega)
      rw [hslot, u64] at hdry
      have hpos := hcut.offset hsplit
      refine .boundary (A ++ [d]) D (by rw [hsplit, List.append_assoc]; rfl) (by simp) ?_
      rw [total_append, total_cons, total_nil]
      omega

theorem NothingBehind.dry (h : NothingBehind es (i32 pos)) (shape : Shape s es) {lbi : Nat} {lp : Int}
    (hfound : findBlockPos pos s.blocks (i32 ((s.node.iBlocks : Int) - 1)) = some (lbi, lp))
    (hlt : (lbi : Int) < i32 ((s.node.iBlocks : Int) - 1)) :
    u64 ((getBlockSize (s.blocks lbi) : Int) - lp) = 0 := by
  have hl := shape.length_le
  have ht := total_le es
  obtain ⟨hlo, hhi⟩ := i32_range pos
  rw [shape.nbBlocks] at hlt
  cases h with
  | empty hnil =>
    subst hnil
    simp only [List.length_nil, Nat.cast_zero] at hlt
    omega
  | after hgt =>
    obtain ⟨m, hm⟩ := Int.eq_ofNat_of_zero_le (show 0 ≤ i32 pos by omega)
    rw [findBlockPos_narrowed _ _ (by omega) hm, findBlockPos_none shape (by omega) (by omega)]
      at hfound
    cases hfound
  | boundary A B hes hne hr =>
    have hle : total A ≤ total es := by
      rw [hes, total_append]
      omega
    obtain ⟨A', L, p, hsplit, hcut, hfound'⟩ := findBlockPos_cut shape hle
    rw [← findBlockPos_narrowed _ _ (by omega) hr, hfound] at hfound'
    cases hfound'
    have hlen : es.length = A'.length + L.length := by
      rw [hsplit, List.length_append]
    obtain ⟨d, D, rfl⟩ := List.exists_cons_of_ne_nil (show L ≠ [] by rintro rfl; simp at hlen; omega)
    have hslot : s.blocks A'.length = d := by
      simpa using blocks_behind shape hsplit 0 (by simp)
    have hpd := hcut.le_head d rfl
    have hgather := hcut.dry s.disk hes hne rfl 1
    rw [gather] at hgather
    have hdry : getBlockSize d - p = 0 := by
      by_contra hwet
      rw [if_neg (by simp [hwet])] at hgather
      have hnil := congrArg List.length hgather
      simp only [List.length_append, slice_length, List.length_nil] at hnil
      omega
    rw [hslot, u64]
    omega
  | wraps e B hes hwrap =>
    subst hes
    have hs := getBlockSize_le e
    rw [findBlockPos_negative shape (by omega), if_pos hwrap] at hfound
    cases hfound

/-- Whatever 64-bit position a read gets, it is empty if and only if nothing is
behind the narrowed position. -/
theorem emptyAt_iff (shape : Shape s es) : EmptyAt s pos ↔ NothingBehind es (i32 pos) := by
  rw [emptyAt_iff_cursor]
  exact ⟨nothingBehind_of_dry shape, fun h _ _ => h.dry shape⟩

/-- Positions that an `int` can hold are not affected. -/
theorem NothingBehind.small (le : total es ≤ pos) (lt : pos < 2147483648) :
    NothingBehind es (i32 pos) := by
  rw [i32_eq_self (by omega) (by omega)]
  by_cases hnil : es = []
  · exact .empty hnil
  · rcases Nat.lt_or_eq_of_le le with hlt | heq
    · exact .after (by omega)
    · exact .boundary es [] (by simp) hnil (by omega)

end

/-- At every position, those behind the end of the file included, a read is empty
if and only if the position narrowed to an `int` has nothing behind it. -/
theorem read_empty_iff (s : Ctx) (pos : Nat) (wf : WellFormed s)
    (apart : s.node.indexBlock ∉ numbers s.entries) :
    EmptyAt s pos ↔ NothingBehind s.entries (i32 pos) :=
  emptyAt_iff (wf.shape apart)

theorem read_empty_iff_small : smallCtx.node.iSize = 3 ∧ EmptyAt smallCtx 3 := by
  have hsize : smallCtx.node.iSize = 3 := rfl
  have hwf := smallCtx_shape.wellFormed smallCtx_held.nonzero rfl
  refine ⟨hsize, (read_empty_iff smallCtx 3 hwf
    (smallCtx_shape.live smallCtx_held).apart).mpr ?_⟩
  exact .small (by rw [← hwf.size, hsize]) (by decide)

/-- At 2^32 the file is read from its start again. -/
theorem read_behind_end_restarts : WellFormed smallCtx ∧ smallCtx.node.iSize ≤ 4294967296 ∧
    (ouichefsLightRead (fun _ => 0) smallCtx 0 3 4294967296).ret = 3 ∧
    ¬ EmptyAt smallCtx 4294967296 := by
  refine ⟨smallCtx_shape.wellFormed smallCtx_held.nonzero rfl, by decide, by decide +kernel, ?_⟩
  intro h
  have hret := (h (fun _ => 0) calmIo 0 3 (by decide)).1
  revert hret
  decide +kernel

/-! ## Reads of plain files -/

/-- `available_size` in the copy loop of `ouichefs_read`. -/
def readAvailable (nbBlocks lastBlockSize lbi lp : Int) : Nat :=
  if lbi = nbBlocks - 1 then u64 (lastBlockSize - lp) else u64 ((blockSize : Int) - lp)

/-- `logical_pos` and `len` of the copies the loop of `ouichefs_read` makes, one
that fails included. -/
def readCopies (nbBlocks lastBlockSize : Int) : Nat → Ctx → Int → Int → Nat → List (Int × Nat)
  | 0, _, _, _, _ => []
  | n + 1, s, lbi, lp, remaining =>
    if remaining = 0 then [] else
    let s := s.touch lbi
    if s.io.bread 0 = false then [] else
    let s := s.popBread
    let available := readAvailable nbBlocks lastBlockSize lbi lp
    if available = 0 then [] else
    let len := min available remaining
    if s.io.ucopy 0 ≠ none then [(lp, len)] else
    (lp, len) :: readCopies nbBlocks lastBlockSize n s.popUcopy (lbi + 1) 0 (remaining - len)

/-- `last_block_size` -/
def lastBlockSize (s : Ctx) : Nat :=
  if s.node.iSize % blockSize = 0 ∧ s.node.iSize ≠ 0 then blockSize else s.node.iSize % blockSize

/-- The same for the whole call. -/
def ouichefsReadCopies (s : Ctx) (fFlags size pos : Nat) : List (Int × Nat) :=
  if readFlags fFlags = false then [] else
  if s.io.bread 0 = false then [] else
  let nbBlocks := i32 ((s.node.iBlocks : Int) - 1)
  let lbi := i32 (pos / blockSize : Nat)
  readCopies nbBlocks (lastBlockSize s) (nbBlocks - lbi).toNat s.popBread lbi
    (pos % blockSize : Nat) size

/-- Whatever fails, a read at `pos` returns no more than what is left of the file,
and no copy goes over the end of a block. -/
def Bounded (s : Ctx) (pos : Nat) : Prop :=
  ∀ before io fFlags size,
    (ouichefsRead before { s with io := io } fFlags size pos).ret ≤ (s.node.iSize - pos : Nat) ∧
      ∀ c ∈ ouichefsReadCopies { s with io := io } fFlags size pos, c.1 + c.2 ≤ blockSize

/-- The position is behind the last block, or exactly where the last block ends by
`i_size`, or before that in a file without blocks to spare. -/
inductive ReadsInside (s : Ctx) (pos : Nat) : Prop
  | past : (s.node.iBlocks : Int) - 1 ≤ i32 (pos / blockSize : Nat) → ReadsInside s pos
  | atEnd :
      i32 (pos / blockSize : Nat) = (s.node.iBlocks : Int) - 2 →
      pos % blockSize = lastBlockSize s → ReadsInside s pos
  | within :
      s.node.iBlocks - 1 ≤ idivCeil s.node.iSize blockSize →
      pos < blockSize * (s.node.iBlocks - 2) + lastBlockSize s → ReadsInside s pos

/-- A call of `ouichefs_write`, whatever it returns. -/
inductive TryWrite : Ctx → Ctx → Prop
  | write (s : Ctx) (io : Io) (fFlags pos : Nat) (data : List Byte) :
      TryWrite s (ouichefsWrite { s with io := io } fFlags data pos).ctx

/-- The bytes a loop delivers are those of its copies. -/
theorem readLoop_length (before : Nat → Byte) (nb last : Int) (k : Nat) :
    ∀ (s : Ctx) (lbi lp : Int) (remaining : Nat),
      (readLoop before nb last k s lbi lp remaining).2.length ≤
          ((readCopies nb last k s lbi lp remaining).map Prod.snd).sum ∧
        (s.io.NoCopyFails → (readLoop before nb last k s lbi lp remaining).2.length =
          ((readCopies nb last k s lbi lp remaining).map Prod.snd).sum) := by
  induction k with
  | zero =>
    intro s lbi lp remaining
    exact ⟨Nat.zero_le _, fun _ => rfl⟩
  | succ k ih =>
    intro s lbi lp remaining
    rw [readLoop, readCopies]
    split
    · exact ⟨Nat.zero_le _, fun _ => rfl⟩
    simp only
    split
    · exact ⟨Nat.zero_le _, fun _ => rfl⟩
    rw [← readAvailable]
    split
    · exact ⟨Nat.zero_le _, fun _ => rfl⟩
    split
    · rename_i hfail
      exact ⟨Nat.zero_le _, fun hok => absurd (hok 0) hfail⟩
    obtain ⟨hle, heq⟩ := ih (s.touch lbi).popBread.popUcopy (lbi + 1) 0
      (remaining - min (readAvailable nb last lbi lp) remaining)
    simp only [List.length_append, List.map_cons, List.sum_cons, peek, List.length_map,
      List.length_range]
    exact ⟨by omega, fun hok => by rw [heq (fun n => hok (n + 1))]⟩

theorem readAvailable_eq {n last lbi lp : Nat} (size : last ≤ blockSize) (block : lp < blockSize)
    (tail : lbi + 1 = n → lp ≤ last) :
    readAvailable n last lbi lp = if lbi + 1 = n then last - lp else blockSize - lp :=
  Overwrite.available_eq size (Nat.le_of_lt block) tail

/-- Before the end of the last block the copies are inside their blocks and end
there. Without a failure they reach as far as asked. -/
theorem readCopies_within {n last : Nat} (pos : 0 < n) (size : last ≤ blockSize) (k : Nat) :
    ∀ (s : Ctx) (lbi lp remaining : Nat), lbi + k = n → lp < blockSize →
      (lbi + 1 = n → lp ≤ last) →
      (∀ c ∈ readCopies n last k s lbi lp remaining, c.1 + c.2 ≤ blockSize) ∧
        ((readCopies n last k s lbi lp remaining).map Prod.snd).sum ≤
          blockSize * (n - 1) + last - (blockSize * lbi + lp) ∧
        (s.io.NoReadFails → s.io.NoCopyFails →
          ((readCopies n last k s lbi lp remaining).map Prod.snd).sum =
            min remaining (blockSize * (n - 1) + last - (blockSize * lbi + lp))) := by
  have hblock : blockSize = 4096 := rfl
  induction k with
  | zero =>
    intro s lbi lp remaining hn hlp _
    have hz : blockSize * (n - 1) + last - (blockSize * lbi + lp) = 0 := by
      rw [hblock] at size hlp ⊢
      omega
    rw [hz]
    exact ⟨by simp [readCopies], by simp [readCopies], by simp [readCopies]⟩
  | succ k ih =>
    intro s lbi lp remaining hn hlp htail
    obtain ⟨avail, havail⟩ : ∃ avail, avail = readAvailable n last lbi lp := ⟨_, rfl⟩
    have hvalue := havail.trans (readAvailable_eq size hlp htail)
    obtain ⟨hin, hsum, hall⟩ := ih (s.touch lbi).popBread.popUcopy (lbi + 1) 0
      (remaining - min avail remaining) (by omega) (by omega) (fun _ => Nat.zero_le _)
    -- the bytes left here are those of this block and those left behind it
    have hleft : blockSize * (n - 1) + last - (blockSize * lbi + lp) =
        avail + (blockSize * (n - 1) + last - (blockSize * (lbi + 1) + 0)) := by
      rw [hvalue]
      rw [hblock] at size hlp ⊢
      split
      · omega
      · omega
    have hfits : lp + avail ≤ blockSize := by
      rw [hvalue]
      split
      · have := htail ‹_›
        omega
      · omega
    rw [hleft, readCopies]
    simp only [← havail]
    split
    · rename_i hrem
      exact ⟨by simp, by simp, by simp [hrem]⟩
    split
    · rename_i hfail
      refine ⟨by simp, by simp, fun hreads => ?_⟩
      rw [show (s.touch lbi).io.bread 0 = true from hreads 0] at hfail
      cases hfail
    split
    · rename_i hdry
      refine ⟨by simp, by simp, fun _ _ => ?_⟩
      simp only [List.map_nil, List.sum_nil]
      have hlast : lbi + 1 = n := by
        by_contra hmid
        rw [if_neg hmid] at hvalue
        omega
      rw [hdry, ← hlast, hblock]
      rw [hblock] at size
      omega
    split
    · rename_i hfail
      refine ⟨?_, ?_, fun _ hcopies => absurd (hcopies 0) hfail⟩
      · intro c hc
        rw [List.mem_singleton.mp hc]
        simp only
        omega
      · simp only [List.map_cons, List.map_nil, List.sum_cons, List.sum_nil]
        omega
    refine ⟨?_, ?_, ?_⟩
    · intro c hc
      rcases List.mem_cons.mp hc with rfl | hc
      · simp only
        omega
      · exact hin c hc
    · simp only [List.map_cons, List.sum_cons]
      simp only [Nat.cast_add, Nat.cast_one, Nat.cast_zero] at hsum
      omega
    · intro hreads hcopies
      have hrest := hall (fun i => hreads (i + 1)) (fun i => hcopies (i + 1))
      simp only [List.map_cons, List.sum_cons]
      simp only [Nat.cast_add, Nat.cast_one, Nat.cast_zero] at hrest
      rw [hrest]
      omega

theorem readCopies_first {nb last : Int} {k : Nat} {s : Ctx} {lbi lp : Int} {remaining : Nat}
    (reads : s.io.NoReadFails) (copies : s.io.NoCopyFails) (more : 0 < k) (asked : 0 < remaining)
    (wet : readAvailable nb last lbi lp ≠ 0) :
    ∃ rest, readCopies nb last k s lbi lp remaining =
      (lp, min (readAvailable nb last lbi lp) remaining) :: rest := by
  obtain ⟨k, rfl⟩ := Nat.exists_eq_succ_of_ne_zero (Nat.pos_iff_ne_zero.mp more)
  have hread : ¬ (s.touch lbi).io.bread 0 = false := by
    rw [show (s.touch lbi).io.bread 0 = true from reads 0]
    decide
  have hcopy : ¬ (s.touch lbi).popBread.io.ucopy 0 ≠ none := fun h => h (copies 0)
  rw [Nat.succ_eq_add_one, readCopies, if_neg (by omega)]
  simp only [if_neg hread, if_neg wet, if_neg hcopy]
  exact ⟨_, rfl⟩

theorem readCopies_dry {nb last : Int} (k : Nat) (s : Ctx) {lbi lp : Int} (remaining : Nat)
    (dry : readAvailable nb last lbi lp = 0) : readCopies nb last k s lbi lp remaining = [] := by
  cases k with
  | zero => rfl
  | succ k =>
    rw [readCopies]
    simp only [dry, if_true]
    split
    · rfl
    split
    · rfl
    · rfl

section

variable {s : Ctx} {pos : Nat}

theorem ouichefsRead_ret (before : Nat → Byte) (s : Ctx) (fFlags size pos : Nat) :
    (ouichefsRead before s fFlags size pos).ret ≤
        (((ouichefsReadCopies s fFlags size pos).map Prod.snd).sum : Nat) ∧
      (readFlags fFlags = true → s.io.NoCopyFails →
        (ouichefsRead before s fFlags size pos).ret =
          (((ouichefsReadCopies s fFlags size pos).map Prod.snd).sum : Nat)) := by
  unfold ouichefsRead ouichefsReadCopies
  split
  · rename_i hflags
    refine ⟨by simp [errInval], fun hreadable => ?_⟩
    rw [hreadable] at hflags
    cases hflags
  split
  · exact ⟨by simp, fun _ _ => rfl⟩
  obtain ⟨hle, heq⟩ := readLoop_length before (i32 ((s.node.iBlocks : Int) - 1)) (lastBlockSize s)
    (i32 ((s.node.iBlocks : Int) - 1) - i32 (pos / blockSize : Nat)).toNat s.popBread
    (i32 (pos / blockSize : Nat)) (pos % blockSize : Nat) size
  exact ⟨Int.ofNat_le.mpr hle, fun _ hcopies => congrArg Nat.cast (heq hcopies)⟩

/-- What `ouichefs_write` keeps of an inode, whatever fails. -/
structure Counted (s : Ctx) : Prop where
  one : 0 < s.node.iBlocks
  few : s.node.iBlocks ≤ 1025
  size : s.node.iSize ≤ maxFilesize

/-- The copies of a read of an open file, with the counts as numbers. -/
theorem Counted.copies (c : Counted s) (size : Nat) {fFlags : Nat} (io : Io)
    (readable : readFlags fFlags = true) (index : io.bread 0 = true) :
    ouichefsReadCopies { s with io := io } fFlags size pos =
      readCopies ((s.node.iBlocks - 1 : Nat) : Int) (lastBlockSize s)
        (((s.node.iBlocks - 1 : Nat) : Int) - i32 (pos / blockSize : Nat)).toNat
        ({ s with io := io } : Ctx).popBread (i32 (pos / blockSize : Nat)) (pos % blockSize : Nat)
        size := by
  have hone := c.one
  have hfew := c.few
  have hnb : i32 ((s.node.iBlocks : Int) - 1) = ((s.node.iBlocks - 1 : Nat) : Int) := by
    rw [i32_eq_self (by omega) (by omega)]
    omega
  unfold ouichefsReadCopies
  rw [if_neg (by simp [readable]), if_neg (by simp [index])]
  simp only [hnb]
  rfl

theorem lastBlockSize_spec (s : Ctx) : lastBlockSize s ≤ blockSize ∧
    (0 < s.node.iSize → 0 < lastBlockSize s ∧ 0 < idivCeil s.node.iSize blockSize ∧
      blockSize * (idivCeil s.node.iSize blockSize - 1) + lastBlockSize s = s.node.iSize) ∧
    (s.node.iSize = 0 → idivCeil s.node.iSize blockSize = 0) := by
  have hblock : blockSize = 4096 := rfl
  unfold lastBlockSize idivCeil
  rw [hblock]
  refine ⟨by split <;> omega, ?_, ?_⟩
  · intro hpos
    split
    · rename_i hfull
      rw [if_neg (by omega)]
      omega
    · rename_i hpart
      rw [if_pos (by omega)]
      omega
  · intro hz
    rw [hz]
    decide

/-- A file has no more blocks than its size needs if and only if they end within it. -/
theorem blocks_needed_iff {n : Nat} (pos : 0 < n) (bytes : 0 < s.node.iSize) :
    n ≤ idivCeil s.node.iSize blockSize ↔
      blockSize * (n - 1) + lastBlockSize s ≤ s.node.iSize := by
  obtain ⟨hle, hsize, _⟩ := lastBlockSize_spec s
  obtain ⟨hlast, hpos, hend⟩ := hsize bytes
  have hblock : blockSize = 4096 := rfl
  rw [hblock] at hle hpos hend ⊢
  omega

theorem Counted.copies_inside (c : Counted s) (h : ReadsInside s pos) (io : Io)
    (fFlags size : Nat) :
    (∀ c ∈ ouichefsReadCopies { s with io := io } fFlags size pos, c.1 + c.2 ≤ blockSize) ∧
      ((ouichefsReadCopies { s with io := io } fFlags size pos).map Prod.snd).sum ≤
        s.node.iSize - pos := by
  have hblock : blockSize = 4096 := rfl
  have hnothing : ∀ cs : List (Int × Nat), cs = [] →
      (∀ c ∈ cs, c.1 + c.2 ≤ blockSize) ∧ (cs.map Prod.snd).sum ≤ s.node.iSize - pos := by
    rintro _ rfl
    exact ⟨by simp, by simp⟩
  cases readable : readFlags fFlags with
  | false =>
    apply hnothing
    rw [ouichefsReadCopies, if_pos readable]
  | true =>
  cases index : io.bread 0 with
  | false =>
    apply hnothing
    rw [ouichefsReadCopies, if_neg (by simp [readable]), if_pos index]
  | true =>
  rw [c.copies size io readable index]
  have hone := c.one
  have hfew := c.few
  obtain ⟨hlast, hbytes, hnone⟩ := lastBlockSize_spec s
  cases h with
  | past hpast =>
    apply hnothing
    rw [show (((s.node.iBlocks - 1 : Nat) : Int) - i32 (pos / blockSize : Nat)).toNat = 0 by omega]
    rfl
  | atEnd hblk hoff =>
    apply hnothing
    apply readCopies_dry
    rw [readAvailable, if_pos (by omega), hoff, u64]
    omega
  | within hneed hpos =>
    have hdiv := Nat.div_add_mod pos blockSize
    have hmod := Nat.mod_lt pos (show 0 < blockSize by decide)
    obtain ⟨q, hq⟩ : ∃ q, q = pos / blockSize := ⟨_, rfl⟩
    obtain ⟨lp, hlp⟩ : ∃ lp, lp = pos % blockSize := ⟨_, rfl⟩
    rw [← hq, ← hlp] at hdiv ⊢
    rw [← hlp] at hmod
    clear hq hlp
    rw [hblock] at hdiv hmod hpos hlast
    have hi : i32 (q : Int) = q := i32_eq_self (by omega) (by omega)
    rw [hi]
    by_cases hn : s.node.iBlocks - 1 = 0
    · apply hnothing
      rw [show (((s.node.iBlocks - 1 : Nat) : Int) - (q : Int)).toNat = 0 by omega]
      rfl
    have hsize : 0 < s.node.iSize := by
      by_contra hz
      have := hnone (by omega)
      omega
    have hend := (blocks_needed_iff (Nat.pos_of_ne_zero hn) hsize).mp hneed
    obtain ⟨hin, hsum, _⟩ := readCopies_within (Nat.pos_of_ne_zero hn) (hblock ▸ hlast)
      (((s.node.iBlocks - 1 : Nat) : Int) - (q : Int)).toNat ({ s with io := io } : Ctx).popBread q lp
      size (by omega) (by omega) (by omega)
    refine ⟨hin, hsum.trans ?_⟩
    rw [hblock] at hend ⊢
    omega

theorem Counted.bounded (c : Counted s) (h : ReadsInside s pos) : Bounded s pos := by
  intro before io fFlags size
  obtain ⟨hret, _⟩ := ouichefsRead_ret before { s with io := io } fFlags size pos
  obtain ⟨hin, hsum⟩ := c.copies_inside h io fFlags size
  exact ⟨hret.trans (Int.ofNat_le.mpr hsum), hin⟩

/-- What a bounded read at `pos` says about the copies when nothing fails. -/
theorem Counted.calm_copies (c : Counted s) (h : Bounded s pos) (size : Nat) :
    ∃ t : Ctx, t.io = calmIo ∧
      (∀ d ∈ readCopies ((s.node.iBlocks - 1 : Nat) : Int) (lastBlockSize s)
          (((s.node.iBlocks - 1 : Nat) : Int) - i32 (pos / blockSize : Nat)).toNat t
          (i32 (pos / blockSize : Nat)) (pos % blockSize : Nat) size, d.1 + d.2 ≤ blockSize) ∧
      ((readCopies ((s.node.iBlocks - 1 : Nat) : Int) (lastBlockSize s)
          (((s.node.iBlocks - 1 : Nat) : Int) - i32 (pos / blockSize : Nat)).toNat t
          (i32 (pos / blockSize : Nat)) (pos % blockSize : Nat) size).map Prod.snd).sum ≤
        s.node.iSize - pos := by
  obtain ⟨hret, hin⟩ := h (fun _ => 0) calmIo 0 size
  obtain ⟨_, hsum⟩ := ouichefsRead_ret (fun _ => 0) { s with io := calmIo } 0 size pos
  have hcopies := @Counted.copies s pos c size 0 calmIo (by decide) rfl
  rw [hsum (by decide) (fun _ => rfl)] at hret
  rw [hcopies] at hret hin
  exact ⟨_, rfl, hin, Int.ofNat_le.mp hret⟩

/-- Copies that are bounded for every size start at the very end of the last block, or
before it in a file whose blocks end within its size. -/
theorem cursor_of_bounded {n last q lp pos size : Nat} {r : Int} (few : n ≤ 1024)
    (bytes : last ≤ 4096) (split : 4096 * q + lp = pos) (offset : lp < 4096)
    (max : size ≤ 4194304) (narrow : q < 2147483648 → r = q) (more : r < n)
    (bounded : ∀ asked, ∃ t : Ctx, t.io = calmIo ∧
      (∀ d ∈ readCopies n last ((n : Int) - r).toNat t r lp asked, d.1 + d.2 ≤ blockSize) ∧
      ((readCopies n last ((n : Int) - r).toNat t r lp asked).map Prod.snd).sum ≤ size - pos) :
    (r = n - 1 ∧ lp = last) ∨ (0 < n ∧ pos < size ∧ 4096 * (n - 1) + last ≤ size ∧
      pos < 4096 * (n - 1) + last) := by
  have hblock : blockSize = 4096 := rfl
  have hmore : 0 < ((n : Int) - r).toNat := by omega
  have hfirst : ∀ asked, 0 < asked → readAvailable n last r lp ≠ 0 →
      (lp : Int) + (min (readAvailable n last r lp) asked : Nat) ≤ 4096 ∧
      min (readAvailable n last r lp) asked ≤ size - pos := by
    intro asked hasked hwet
    obtain ⟨t, hio, hin, hsum⟩ := bounded asked
    obtain ⟨rest, hrest⟩ := readCopies_first (fun _ => by rw [hio]; rfl)
      (fun _ => by rw [hio]; rfl) hmore hasked hwet
    rw [hrest] at hin hsum
    simp only [List.map_cons, List.sum_cons] at hsum
    exact ⟨hin _ List.mem_cons_self, by omega⟩
  by_cases hblk : r = n - 1
  · by_cases hend : lp = last
    · exact Or.inl ⟨hblk, hend⟩
    right
    have havail : readAvailable n last r lp = u64 ((last : Int) - lp) := if_pos hblk
    rw [havail] at hfirst
    have hover : lp ≤ last := by
      by_contra hgt
      have := (hfirst 4097 (by omega) (by unfold u64; omega)).1
      unfold u64 at this
      omega
    have hu : u64 ((last : Int) - lp) = last - lp := u64_sub hover (by omega)
    rw [hu] at hfirst
    obtain ⟨_, hfit⟩ := hfirst (last - lp) (by omega) (by omega)
    have hq := narrow (by omega)
    omega
  · right
    have havail : readAvailable n last r lp = u64 ((blockSize : Int) - lp) := if_neg hblk
    have hu : u64 ((blockSize : Int) - lp) = 4096 - lp := u64_sub (Nat.le_of_lt offset) (by decide)
    rw [havail, hu] at hfirst
    obtain ⟨_, hone⟩ := hfirst 1 (by omega) (by omega)
    have hq := narrow (by omega)
    subst hq
    -- nothing stops the read before the end of the last block
    obtain ⟨t, hio, _, hsum⟩ := bounded 8388608
    obtain ⟨_, _, hexact⟩ := readCopies_within (show 0 < n by omega) (hblock ▸ bytes)
      (((n : Int) - (q : Int)).toNat) t q lp 8388608 (by omega) (hblock ▸ offset) (by omega)
    rw [hexact (fun _ => by rw [hio]; rfl) (fun _ => by rw [hio]; rfl), hblock] at hsum
    omega

theorem Counted.reads_inside (c : Counted s) (h : Bounded s pos) : ReadsInside s pos := by
  have hone := c.one
  have hfew := c.few
  have hblock : blockSize = 4096 := rfl
  have hdiv := Nat.div_add_mod pos blockSize
  have hmod := Nat.mod_lt pos (show 0 < blockSize by decide)
  obtain ⟨hlast, _, _⟩ := lastBlockSize_spec s
  have hcalm := c.calm_copies h
  by_cases hpast : (s.node.iBlocks : Int) - 1 ≤ i32 (pos / blockSize : Nat)
  · exact .past hpast
  have hcast : ((s.node.iBlocks - 1 : Nat) : Int) = (s.node.iBlocks : Int) - 1 := by omega
  have hnarrow : pos / blockSize < 2147483648 → i32 (pos / blockSize : Nat) =
      ((pos / blockSize : Nat) : Int) := by
    generalize pos / blockSize = q
    intro hlt
    exact i32_eq_self (by omega) (by omega)
  rcases cursor_of_bounded (show s.node.iBlocks - 1 ≤ 1024 by omega) hlast hdiv hmod c.size hnarrow
    (by rw [hcast]; exact not_le.mp hpast) hcalm with ⟨hblk, hoff⟩ | ⟨hpos, hlt, hneed, hbefore⟩
  · exact .atEnd (by rw [hblk, hcast]; ring) hoff
  · refine .within ?_ ?_
    · exact (blocks_needed_iff hpos (Nat.lt_of_le_of_lt (Nat.zero_le _) hlt)).mpr hneed
    · rw [show s.node.iBlocks - 2 = s.node.iBlocks - 1 - 1 by omega]
      exact hbefore

theorem writeBody_iBlocks (s : Ctx) (buff : List Byte) (pos nb : Nat)
    (small : s.node.iBlocks + nb < 18446744073709551616) :
    s.node.iBlocks ≤ (writeBody s buff pos nb).1.node.iBlocks ∧
      (writeBody s buff pos nb).1.node.iBlocks ≤ s.node.iBlocks + nb := by
  unfold writeBody
  split
  · exact ⟨Nat.le_refl _, Nat.le_add_right _ _⟩
  simp only
  split
  · exact reserveEmptyBlocks_iBlocks nb _ s.popBread small
  · rw [writeLoop_node]
    exact reserveEmptyBlocks_iBlocks nb _ s.popBread small

theorem Counted.write (c : Counted s) (fFlags : Nat) (data : List Byte) (pos : Nat) :
    Counted (ouichefsWrite s fFlags data pos).ctx := by
  obtain ⟨p, hp⟩ : ∃ p, p = startPos s fFlags pos := ⟨_, rfl⟩
  rcases ouichefsWrite_cases s fFlags data pos with ⟨_, _, hsame⟩ | ⟨hmax, hspace, f⟩
  · rw [hsame]
    exact c
  rw [← hp] at hmax hspace f
  have hone := c.one
  have hfew := c.few
  have hlt := nbAllocs_lt hone hfew data.length p
  obtain ⟨nb, hnb⟩ : ∃ nb, nb = nbAllocs s data.length p := ⟨_, rfl⟩
  rw [← hnb] at hlt hspace f
  have hslots : nb + s.node.iBlocks ≤ 1025 := by
    by_contra hno
    apply hspace
    have hu : u64 ((nb : Int) + s.node.iBlocks - 1) > indexSlots := by
      unfold u64 indexSlots
      omega
    rw [spaceAvailable, if_pos hu]
    decide
  obtain ⟨hlo, hhi⟩ := writeBody_iBlocks s data p nb (by omega)
  have hleft := Overwrite.writeBody_le s data p nb
  obtain ⟨mt, ct, hnode⟩ := f.node
  constructor
  · rw [hnode]
    simp only
    omega
  · rw [hnode]
    simp only
    omega
  · have := c.size
    rw [hnode]
    simp only [writeBody_iSize]
    omega

theorem run_counted {s₀ s : Ctx} (new : NewFile s₀) (run : Relation.ReflTransGen TryWrite s₀ s) :
    Counted s := by
  induction run with
  | refl => exact ⟨by rw [new.iBlocks]; decide, by rw [new.iBlocks]; decide, by rw [new.iSize]; decide⟩
  | @tail t _ _ step ih =>
    cases step with
    | write io fFlags pos data =>
      have hio : Counted { t with io := io } := ⟨ih.one, ih.few, ih.size⟩
      exact hio.write fFlags data pos

end

/-- In every state that writes lead to, failed ones included, a read is bounded if and
only if it starts behind the last block, at the very end of it, or before that in a
file without blocks to spare. -/
theorem read_bounded_iff (s₀ s : Ctx) (new : NewFile s₀)
    (run : Relation.ReflTransGen TryWrite s₀ s) (pos : Nat) :
    Bounded s pos ↔ ReadsInside s pos :=
  ⟨(run_counted new run).reads_inside, (run_counted new run).bounded⟩

/-- The first byte of a file of one byte. -/
theorem read_bounded_iff_first : Relation.ReflTransGen TryWrite freshCtx oneByteCtx ∧
    oneByteCtx.node.iSize = 1 ∧ Bounded oneByteCtx 0 := by
  have hrun : Relation.ReflTransGen TryWrite freshCtx oneByteCtx :=
    .single (.write freshCtx calmIo 1 0 [66])
  obtain ⟨hsize, hblocks⟩ := oneByteCtx_sizes
  refine ⟨hrun, hsize, (read_bounded_iff freshCtx oneByteCtx freshCtx_new hrun 0).mpr ?_⟩
  apply ReadsInside.within
  · rw [hsize, hblocks]
    decide
  · rw [lastBlockSize, hsize, hblocks]
    decide

/-- One byte behind the end, a read goes on for as long as it is asked to, over the
end of the block. -/
theorem read_behind_end_unbounded : Relation.ReflTransGen TryWrite freshCtx oneByteCtx ∧
    oneByteCtx.node.iSize = 1 ∧
    (ouichefsRead (fun _ => 0) oneByteCtx 0 5000 2).ret = 5000 ∧
    ouichefsReadCopies oneByteCtx 0 5000 2 = [(2, 5000)] ∧ ¬ Bounded oneByteCtx 2 := by
  have hret : (ouichefsRead (fun _ => 0) oneByteCtx 0 5000 2).ret = 5000 := by decide +kernel
  have hsize := oneByteCtx_sizes.1
  refine ⟨.single (.write freshCtx calmIo 1 0 [66]), hsize, hret, by decide +kernel, ?_⟩
  intro h
  have hle := (h (fun _ => 0) oneByteCtx.io 0 5000).1
  rw [hret, hsize] at hle
  revert hle
  decide

end EndOfFile
