import OuicheFs.Completion
import OuicheFs.Overwrite

/-!
# Calls that write nothing

`ouichefs_write` takes the blocks it needs before it copies the first byte, and
its epilogue moves the end of the file to the position even when nothing was
copied. So a call that transfers nothing leaves the file alone only if it needed
no block and did not start behind the end, or was refused.

`ouichefs_light_write` checks for space twice, the second time when a gap has
already been filled. At the end of a full block it gives up after it has taken
its blocks.
-/
namespace Aborted

open CInt ByteBuffer IndexEntry Allocator FileContext Layout OuicheFile OuicheWrite Reserve
  Search Insert GapFill LightWrite Completion FileRun PlainWrite Overwrite

/-- Size, index and allocator are as before. -/
structure Unchanged (s t : Ctx) : Prop where
  iSize : t.node.iSize = s.node.iSize
  iBlocks : t.node.iBlocks = s.node.iBlocks
  index : ∀ i, i < indexSlots → t.blocks i = s.blocks i
  bitmap : t.sbi.bfreeBitmap = s.sbi.bfreeBitmap
  nrFreeBlocks : t.sbi.nrFreeBlocks = s.sbi.nrFreeBlocks

/-! ## Plain writes -/

/-- A file with as many data blocks as its size needs. None of the words is the
number of the index block. -/
structure RegularFile (s : Ctx) : Prop where
  size : s.node.iSize ≤ maxFilesize
  iBlocks : s.node.iBlocks = idivCeil s.node.iSize blockSize + 1
  free : ∀ i, s.node.iBlocks - 1 ≤ i → i < indexSlots → s.blocks i = 0
  apart : ∀ i, i < s.node.iBlocks - 1 → (s.blocks i).toNat ≠ s.node.indexBlock
  ok : BlocksOk s.sbi

/-- The calls with `size` bytes at `p` that write something or change nothing:
those that are refused, those whose first copy succeeds, and those that start
within the file and need no block. -/
inductive Harmless (s : Ctx) (p size : Nat) : Prop
  | refused :
      maxFilesize < p + size ∨ spaceAvailable s (nbAllocs s size p) < 0 → Harmless s p size
  | copied :
      0 < size → s.io.bread 0 = true → s.io.bread 1 = true → s.io.ucopy 0 = none →
      Harmless s p size
  | inside : p ≤ s.node.iSize → p + size ≤ blockSize * (s.node.iBlocks - 1) → Harmless s p size
  | unread : p ≤ s.node.iSize → s.io.bread 0 = false → Harmless s p size

/-- The loop gets ahead if and only if the first block is read and copied to. -/
theorem writeLoop_progress (buff : List Byte) (n : Nat) (s : Ctx) (lbi : Nat) {lp : Nat}
    (remaining : Nat) (lt : lp < blockSize) :
    (writeLoop buff (n + 1) s lbi lp remaining).2 < remaining ↔
      0 < remaining ∧ s.io.bread 0 = true ∧ s.io.ucopy 0 = none := by
  have hread : (s.touch lbi).io.bread 0 = s.io.bread 0 := rfl
  rw [writeLoop]
  split
  · omega
  rename_i hrem
  simp only [hread]
  cases hio : s.io.bread 0 with
  | false => simp
  | true =>
    have hcopy : ((s.touch lbi).popBread).io.ucopy 0 = s.io.ucopy 0 := rfl
    simp only [Ctx.copyFromUser, hcopy]
    cases huser : s.io.ucopy 0 with
    | some k => simp
    | none =>
      simp only [Bool.true_eq_false, if_false, and_true]
      have hle := writeLoop_le buff n
        { (s.touch lbi).popBread.popUcopy with
          disk := (s.touch lbi).popBread.disk.set (((s.touch lbi).blocks lbi).toNat)
            (blit ((s.touch lbi).popBread.disk (((s.touch lbi).blocks lbi).toNat)) lp
              (min (blockSize - lp) remaining)
              (fun k => buff.getD (buff.length - remaining + k) 0)) }
        (lbi + 1) 0 (remaining - min (blockSize - lp) remaining)
      constructor
      · intro _
        omega
      · intro _
        exact Nat.lt_of_le_of_lt hle (by omega)

section

variable {s : Ctx} {p size : Nat}

theorem RegularFile.nbAllocs (h : RegularFile s) (fits : p + size ≤ maxFilesize) :
    nbAllocs s size p = (max (p + size) s.node.iSize + 4095) / 4096 - (s.node.iBlocks - 1) ∧
      s.node.iBlocks - 1 = (s.node.iSize + 4095) / 4096 ∧ 0 < s.node.iBlocks ∧
      s.node.iBlocks ≤ 1025 := by
  have hsize := h.size
  have hib := h.iBlocks
  have hneed : idivCeil s.node.iSize blockSize = (s.node.iSize + 4095) / 4096 := by
    unfold idivCeil blockSize
    split <;> omega
  have hmax : maxFilesize = 4194304 := rfl
  have hnb := nbAllocs_eq hib (by omega) fits hsize
  rw [hneed] at hib hnb
  refine ⟨?_, by omega, by omega, by omega⟩
  rw [hnb]
  omega

/-- The call has read the index block and taken the blocks it needs. -/
structure Begun (s : Ctx) (data : List Byte) (p nb : Nat) (u : Ctx) : Prop where
  body : writeBody s data p nb = writeLoop data (s.node.iBlocks - 1 + nb - p / blockSize) u
    (p / blockSize) (p % blockSize) data.length
  iBlocks : u.node.iBlocks = s.node.iBlocks + nb
  io : u.io = s.popBread.io
  same : nb = 0 → u = s.popBread

theorem blocks_left {k nb q : Nat} (pos : 0 < k) (few : k - 1 + nb ≤ 1024) :
    (i32 (((k + nb : Nat) : Int) - 1) - (q : Int)).toNat = k - 1 + nb - q := by
  rw [i32_eq_self (by omega) (by omega)]
  omega

theorem RegularFile.begun (h : RegularFile s) (data : List Byte) {nb : Nat}
    (few : s.node.iBlocks - 1 + nb ≤ 1024) (space : ¬ spaceAvailable s nb < 0)
    (index : s.io.bread 0 = true) : ∃ u, Begun s data p nb u := by
  have hib := h.iBlocks
  have hstart : (max (i32 s.node.iBlocks - 1) 0).toNat = s.node.iBlocks - 1 := by
    rw [i32_eq_self (by omega) (by omega)]
    omega
  have henough : nb ≤ s.sbi.nrFreeBlocks := by
    by_contra hno
    apply space
    unfold spaceAvailable
    split
    · decide
    · rw [if_pos (by omega)]
      decide
  obtain ⟨fresh, hr⟩ := reserveEmptyBlocks_spec nb (s.node.iBlocks - 1) s.popBread h.ok henough
    (by change s.node.iBlocks + nb < _; omega)
    (fun i lo hi => h.free i lo (by unfold indexSlots; omega))
  have hreserve : reserveWriteBlocks s.popBread nb =
      reserveEmptyBlocks (s.node.iBlocks - 1) nb s.popBread := by
    unfold reserveWriteBlocks
    rw [show s.popBread.node = s.node from rfl, hstart]
  have hblocks : (reserveEmptyBlocks (s.node.iBlocks - 1) nb s.popBread).1.node.iBlocks =
      s.node.iBlocks + nb := by
    rw [hr.node]
    rfl
  refine ⟨(reserveEmptyBlocks (s.node.iBlocks - 1) nb s.popBread).1, ?_, hblocks,
    reserveEmptyBlocks_io _ _ _, ?_⟩
  · have hcount := blocks_left (q := p / blockSize) (show 0 < s.node.iBlocks by omega) few
    unfold writeBody
    rw [if_neg (by rw [index]; simp), hreserve]
    simp only
    rw [if_neg (by rw [hr.succeeded]; simp), hblocks, hcount]
  · rintro rfl
    rfl

/-- Something is written if and only if the first block is read and copied to. -/
theorem Begun.wrote {data : List Byte} {nb : Nat} {u : Ctx} (b : Begun s data p nb u)
    (reach : p + data.length ≤ blockSize * (s.node.iBlocks - 1 + nb)) :
    (writeBody s data p nb).2 < data.length ↔
      0 < data.length ∧ s.io.bread 1 = true ∧ s.io.ucopy 0 = none := by
  have hread : u.io.bread 0 = s.io.bread 1 := by rw [b.io]; rfl
  have hcopy : u.io.ucopy 0 = s.io.ucopy 0 := by rw [b.io]; rfl
  have hmod := Nat.mod_lt p (show 0 < blockSize by decide)
  rw [b.body]
  by_cases hnil : data.length = 0
  · omega
  · have hlt : p / blockSize < s.node.iBlocks - 1 + nb := Nat.div_lt_of_lt_mul (by omega)
    obtain ⟨n, hn⟩ : ∃ n, s.node.iBlocks - 1 + nb - p / blockSize = n + 1 :=
      ⟨s.node.iBlocks - 1 + nb - p / blockSize - 1, by omega⟩
    rw [hn, writeLoop_progress data n u _ _ hmod, hread, hcopy]

/-- A call that takes no block leaves the index and the allocator alone. -/
theorem Begun.kept (h : RegularFile s) {data : List Byte} {u : Ctx} (b : Begun s data p 0 u) :
    BytesOnly s (writeBody s data p 0).1
      ((List.range (s.node.iBlocks - 1)).map fun i => (s.blocks i).toNat) := by
  have hu := b.same rfl
  subst hu
  rw [b.body]
  obtain ⟨hdisk, hsbi, hnode⟩ := writeLoop_bytesOnly data
    (s.node.iBlocks - 1 + 0 - p / blockSize) s.popBread (p / blockSize) (p % blockSize) data.length
    (by
      intro hmem
      obtain ⟨i, hi, heq⟩ := List.mem_map.mp hmem
      exact h.apart i (List.mem_range.mp hi) heq)
    (by
      intro i hi
      exact List.mem_map.mpr ⟨p / blockSize + i, List.mem_range.mpr (by omega), rfl⟩)
  exact ⟨hdisk, hsbi, hnode⟩

/-! ### The end of a call -/

variable {data : List Byte} {nb : Nat} {u : Ctx} {r : WriteResult}

theorem finished_iSize (f : Finished data p (writeBody s data p nb) r) :
    r.ctx.node.iSize = max s.node.iSize (p + (data.length - (writeBody s data p nb).2)) := by
  obtain ⟨mt, ct, hnode⟩ := f.node
  rw [hnode]
  simp only [writeBody_iSize]

/-- A call that writes nothing moves the end of the file to its position. -/
theorem finished_within (f : Finished data p (writeBody s data p nb) r) (none_ : r.ret ≤ 0)
    (same : Unchanged s r.ctx) : p ≤ s.node.iSize := by
  have hret := f.ret
  have hsize := finished_iSize f
  have hkept := same.iSize
  omega

theorem finished_grown (f : Finished data p (writeBody s data p nb) r) (b : Begun s data p nb u) :
    r.ctx.node.iBlocks = s.node.iBlocks + nb := by
  obtain ⟨mt, ct, hnode⟩ := f.node
  rw [hnode, b.body]
  simp only [writeLoop_node]
  exact b.iBlocks

/-- A call within the file that cannot read the index block. -/
theorem finished_unread (f : Finished data p (writeBody s data p nb) r)
    (index : s.io.bread 0 = false) (within : p ≤ s.node.iSize) : Unchanged s r.ctx := by
  have hsize := finished_iSize f
  have hbody : writeBody s data p nb = (s.popBread, data.length) := by
    unfold writeBody
    rw [if_pos index]
  rw [hbody] at f hsize
  obtain ⟨mt, ct, hnode⟩ := f.node
  refine ⟨by omega, by rw [hnode]; rfl, ?_, by rw [f.sbi]; rfl, by rw [f.sbi]; rfl⟩
  intro i _
  exact blocks_congr (by rw [hnode]; rfl) (by rw [f.disk]; rfl) i

/-- A call within the file that needs no block and writes nothing. -/
theorem finished_inside (f : Finished data p (writeBody s data p 0) r) (file : RegularFile s)
    (b : Begun s data p 0 u) (none_ : r.ret ≤ 0) (within : p ≤ s.node.iSize) :
    Unchanged s r.ctx := by
  have hret := f.ret
  have hsize := finished_iSize f
  have hkept := b.kept file
  obtain ⟨mt, ct, hnode⟩ := f.node
  refine ⟨by omega, ?_, ?_, ?_, ?_⟩
  · rw [hnode, hkept.node]
  · intro i _
    refine blocks_congr (by rw [hnode, hkept.node]) ?_ i
    rw [f.disk]
    apply hkept.disk
    intro hmem
    obtain ⟨j, hj, heq⟩ := List.mem_map.mp hmem
    exact file.apart j (List.mem_range.mp hj) heq
  · rw [f.sbi, hkept.sbi]
  · rw [f.sbi, hkept.sbi]

/-- With the index block unreadable, the call is harmless within the file. -/
theorem finished_unread_iff (f : Finished data p (writeBody s data p nb) r)
    (index : s.io.bread 0 = false)
    (passed : ¬ (maxFilesize < p + data.length ∨ spaceAvailable s (nbAllocs s data.length p) < 0)) :
    (r.ret ≤ 0 → Unchanged s r.ctx) ↔ Harmless s p data.length := by
  have hret := f.ret
  have hbody : (writeBody s data p nb).2 = data.length := by
    unfold writeBody
    rw [if_pos index]
  constructor
  · intro h
    have hz : r.ret ≤ 0 := by omega
    exact .unread (finished_within f hz (h hz)) index
  · intro h _
    apply finished_unread f index
    cases h with
    | refused hwhy => exact absurd hwhy passed
    | copied _ hread _ _ => simp [index] at hread
    | inside hin _ => exact hin
    | unread hin _ => exact hin

/-- With the index block read, the call is harmless when it copies or needs no block. -/
theorem finished_begun_iff (f : Finished data p (writeBody s data p nb) r) (file : RegularFile s)
    (b : Begun s data p nb u) (index : s.io.bread 0 = true)
    (reach : p + data.length ≤ blockSize * (s.node.iBlocks - 1 + nb))
    (needless : p ≤ s.node.iSize → p + data.length ≤ blockSize * (s.node.iBlocks - 1) → nb = 0)
    (passed : ¬ (maxFilesize < p + data.length ∨ spaceAvailable s (nbAllocs s data.length p) < 0)) :
    (r.ret ≤ 0 → Unchanged s r.ctx) ↔ Harmless s p data.length := by
  have hret := f.ret
  have hwrote := b.wrote reach
  have hleft := writeBody_le s data p nb
  constructor
  · intro h
    by_cases hfirst : 0 < data.length ∧ s.io.bread 1 = true ∧ s.io.ucopy 0 = none
    · exact .copied hfirst.1 index hfirst.2.1 hfirst.2.2
    have hz : r.ret ≤ 0 := by
      have := not_congr hwrote |>.mpr hfirst
      omega
    have hzero : nb = 0 := by
      have hsame := (h hz).iBlocks
      rw [finished_grown f b] at hsame
      omega
    subst hzero
    exact .inside (finished_within f hz (h hz)) reach
  · intro h hz
    have hnone : ¬ (0 < data.length ∧ s.io.bread 1 = true ∧ s.io.ucopy 0 = none) := by
      rw [← hwrote]
      omega
    cases h with
    | refused hwhy => exact absurd hwhy passed
    | copied hpos _ hread hcopy => exact absurd ⟨hpos, hread, hcopy⟩ hnone
    | inside hin hend =>
      obtain rfl := needless hin hend
      exact finished_inside f file b hz hin
    | unread _ hread => simp [index] at hread

end

/-- A call of `ouichefs_write` that writes nothing changes nothing, if and only if
it is one of the harmless ones. -/
theorem nothing_written_iff (s : Ctx) (fFlags : Nat) (data : List Byte) (pos : Nat)
    (file : RegularFile s) :
    ((ouichefsWrite s fFlags data pos).ret ≤ 0 →
      Unchanged s (ouichefsWrite s fFlags data pos).ctx) ↔
    Harmless s (startPos s fFlags pos) data.length := by
  rcases ouichefsWrite_cases s fFlags data pos with ⟨hwhy, _, hsame⟩ | ⟨hmax, hspace, f⟩
  · rw [hsame]
    exact ⟨fun _ => .refused hwhy, fun _ _ => ⟨rfl, rfl, fun _ _ => rfl, rfl, rfl⟩⟩
  have hpassed := not_or.mpr ⟨Nat.not_lt.mpr hmax, hspace⟩
  obtain ⟨hnb, hold, hone, hle⟩ := file.nbAllocs hmax
  have hbytes : maxFilesize = 4194304 := rfl
  have hblock : blockSize = 4096 := rfl
  cases index : s.io.bread 0 with
  | false => exact finished_unread_iff f index hpassed
  | true =>
    obtain ⟨u, hu⟩ := RegularFile.begun file data
      (by rw [hnb]; omega) hspace index
    refine finished_begun_iff f file hu index ?_ ?_ hpassed
    · rw [hnb, hblock]
      omega
    · rw [hnb, hblock]
      omega

theorem NewFile.regular {s : Ctx} (h : NewFile s) : RegularFile s := by
  refine ⟨by rw [h.iSize]; decide, by rw [h.iBlocks, h.iSize]; decide, ?_, ?_, h.volume⟩
  · intro i _ hi
    exact h.zero i hi
  · intro i hi
    rw [h.iBlocks] at hi
    omega

/-- A new file that is opened with `io` to come. -/
def newCtx (io : Io) : Ctx := { freshCtx with io := io }

theorem newCtx_regular (io : Io) : RegularFile (newCtx io) :=
  NewFile.regular ⟨freshCtx_new.iBlocks, freshCtx_new.iSize, freshCtx_new.zero, freshCtx_new.volume,
    freshCtx_new.index⟩

/-- No disk read succeeds, and the call is at the start of the file. -/
theorem nothing_written_iff_new : ∃ io : Io, io.bread 0 = false ∧
    (ouichefsWrite (newCtx io) 1 [66] 0).ret = 0 ∧
    Unchanged (newCtx io) (ouichefsWrite (newCtx io) 1 [66] 0).ctx := by
  obtain ⟨io, hio⟩ : ∃ io : Io, io = { calmIo with bread := fun _ => false } := ⟨_, rfl⟩
  have hret : (ouichefsWrite (newCtx io) 1 [66] 0).ret = 0 := by
    rw [hio]
    decide +kernel
  refine ⟨io, by rw [hio], hret, ?_⟩
  exact (nothing_written_iff (newCtx io) 1 [66] 0 (newCtx_regular io)).mpr
    (.unread (by rw [hio]; decide) (by rw [hio]; rfl)) (by rw [hret])

/-- The user buffer cannot be read: nothing is written and a block is taken. -/
theorem nothing_written_takes_block : ∃ io : Io, io.ucopy 0 = some 0 ∧
    RegularFile (newCtx io) ∧ (ouichefsWrite (newCtx io) 1 [66] 0).ret = 0 ∧
    ¬ Unchanged (newCtx io) (ouichefsWrite (newCtx io) 1 [66] 0).ctx := by
  obtain ⟨io, hio⟩ : ∃ io : Io, io = { calmIo with ucopy := fun _ => some 0 } := ⟨_, rfl⟩
  refine ⟨io, by rw [hio], newCtx_regular io, by rw [hio]; decide +kernel, ?_⟩
  intro h
  have hblocks := h.iBlocks
  rw [hio] at hblocks
  revert hblocks
  decide +kernel

/-! ## Writes with insertion -/

/-- A call that returns an error leaves the file, the volume and the position alone. -/
def FailsClean (s : Ctx) (fFlags : Nat) (data : List Byte) (pos : Nat) : Prop :=
  (ouichefsLightWrite s fFlags data pos).ret < 0 →
    Unchanged s (ouichefsLightWrite s fFlags data pos).ctx ∧
      (ouichefsLightWrite s fFlags data pos).ctx.content = s.content ∧
      (ouichefsLightWrite s fFlags data pos).pos = pos

/-- With `p` the position a call works at: if the room is enough for the gap, it is
enough for the data too; a call with data at the end of a full block is refused;
and a call that moves its position to the end of the file is not refused. -/
structure Clean (s : Ctx) (size pos p : Nat) : Prop where
  gap : s.node.iSize < p → p + size ≤ maxFilesize →
    ¬ spaceAvailable s (gapBlocks s.entries (p - s.node.iSize)) < 0 →
    ¬ spaceAvailable s (gapBlocks s.entries (p - s.node.iSize) + secondBlocks s size p) < 0
  full : p ≤ s.node.iSize → p + size ≤ maxFilesize → 0 < size → EndsFullBlock s.entries p →
    spaceAvailable s (neededBlocks s size p) < 0
  append : p ≠ pos → p + size ≤ maxFilesize ∧ ¬ spaceAvailable s (neededBlocks s size p) < 0

theorem EndsFullBlock.needs {s : Ctx} {es : List Word} {p n : Nat} (h : EndsFullBlock es p)
    (shape : Shape s es) (size : s.node.iSize = total es) (pos : 0 < n) :
    0 < neededBlocks s n p := by
  obtain ⟨hlo, hhi⟩ := h.bounds
  have hb : 0 < blockSize := by decide
  obtain ⟨A, e, B, q, hf, hrun⟩ := findBlockPos_found shape (show 0 < p by omega) hhi
  have hq : q = blockSize := by
    rw [hf.split] at h
    exact (endsFullBlock_iff hf.offset hf.pos hf.le).mp h
  have hdata := (dataBlocks_spec n (Nat.le_refl _)).1
  rw [neededBlocks_at (by omega) hrun rfl n, hq]
  unfold blockSize at hdata ⊢
  omega

/-- A call that was turned down without a change. -/
theorem unchanged_of_refused {s t : Ctx} {size : Nat} {b : Ctx × Int × Nat}
    (h : Refused s.popBread size b) (ctx : t = b.1) : Unchanged s t ∧ t.content = s.content := by
  obtain ⟨_, hdisk, hsbi, hnode⟩ := h
  rw [← ctx] at hdisk hsbi hnode
  have hblocks : ∀ i, t.blocks i = s.blocks i :=
    fun i => blocks_congr (congrArg Inode.indexBlock hnode) (congrFun hdisk _) i
  refine ⟨⟨congrArg Inode.iSize hnode, congrArg Inode.iBlocks hnode, fun i _ => hblocks i,
    by rw [hsbi]; rfl, by rw [hsbi]; rfl⟩, ?_⟩
  unfold Ctx.content Ctx.entries
  rw [funext hblocks, hnode, hdisk]
  rfl

section

variable {s : Ctx} {fFlags pos : Nat} {data : List Byte}

/-- A call that is too large is turned down before it reads the index block. -/
theorem failsClean_too_large {p : Nat} (hp : p = startPos s fFlags pos)
    (large : maxFilesize < p + data.length) :
    FailsClean s fFlags data pos ↔ Clean s data.length pos p := by
  have hrun : ouichefsLightWrite s fFlags data pos = ⟨s, -errNospc, p⟩ := by
    unfold ouichefsLightWrite
    rw [writeFlags_eq]
    simp only [← hp]
    rw [if_pos large]
  unfold FailsClean
  rw [hrun]
  constructor
  · intro h
    obtain ⟨_, _, hpos⟩ := h (show -errNospc < 0 by decide)
    exact ⟨fun _ hfits => by omega, fun _ hfits => by omega, fun hne => absurd hpos hne⟩
  · intro h _
    refine ⟨⟨rfl, rfl, fun _ _ => rfl, rfl, rfl⟩, rfl, ?_⟩
    by_contra hne
    have := (h.append hne).1
    omega

/-- A call behind the end: the position is the one that was passed. -/
theorem failsClean_gap {p : Nat} (hp : p = startPos s fFlags pos) (wf : WellFormed s)
    (live : Live s) (reads : s.io.NoReadFails) (copies : s.io.NoCopyFails)
    (fits : p + data.length ≤ maxFilesize) (gap : s.node.iSize < p) :
    FailsClean s fFlags data pos ↔ Clean s data.length pos p := by
  have hpos : p = pos := by
    rw [hp] at gap ⊢
    unfold startPos at gap ⊢
    split
    · rename_i happend
      rw [if_pos happend] at gap
      omega
    · rfl
  have hshape : Shape s.popBread s.entries :=
    (wf.shape live.apart).congr (fun _ _ => rfl) rfl rfl
  have hheld : Held s.popBread s.entries := ⟨live.volume, live.data, live.index⟩
  have hr := ouichefsLightWrite_returns s fFlags data pos (hp ▸ fits) (reads 0)
  rw [← hp] at hr
  obtain ⟨b, hb⟩ : ∃ b, b = lightWriteBody s.popBread data p := ⟨_, rfl⟩
  obtain ⟨nb, hnb⟩ : ∃ nb, nb = gapBlocks s.entries (p - s.node.iSize) +
    secondBlocks s data.length p := ⟨_, rfl⟩
  obtain ⟨hrefused, hhalf, hdone⟩ := @lightWriteBody_gap_ends s.popBread s.entries data p hshape
    hheld wf.size (wf.size ▸ gap) (fun n => reads (n + 1)) copies fits nb (by rw [hnb, wf.size]; rfl)
  rw [← hb] at hr hrefused hhalf hdone
  rw [← wf.size] at hrefused hhalf
  have hclean : Clean s data.length pos p ↔
      (¬ spaceAvailable s (gapBlocks s.entries (p - s.node.iSize)) < 0 →
        ¬ spaceAvailable s nb < 0) := by
    rw [hnb]
    refine ⟨fun h => h.gap gap fits, fun h => ⟨fun _ _ => h, fun hle => ?_, fun hne => ?_⟩⟩
    · omega
    · exact absurd hpos hne
  rw [hclean]
  constructor
  · intro h hfirst hsecond
    obtain ⟨hcode, hsize⟩ := hhalf hfirst hsecond
    obtain ⟨hfail, hctx, _⟩ := hr.failed hcode (by decide)
    have hsame := (h hfail).1.iSize
    rw [hctx, hsize] at hsame
    omega
  · intro h hfail
    by_cases hfirst : spaceAvailable s (gapBlocks s.entries (p - s.node.iSize)) < 0
    · obtain ⟨_, hctx, hat⟩ := hr.failed (hrefused hfirst).ends (by decide)
      obtain ⟨hsame, hcontent⟩ := unchanged_of_refused (hrefused hfirst) hctx
      exact ⟨hsame, hcontent, hat.trans hpos⟩
    · exact absurd hfail (hr.passed (hdone (h hfirst)).1)

/-- A call within the file. -/
theorem failsClean_within {p : Nat} (hp : p = startPos s fFlags pos) (wf : WellFormed s)
    (live : Live s) (reads : s.io.NoReadFails) (copies : s.io.NoCopyFails)
    (fits : p + data.length ≤ maxFilesize) (within : p ≤ s.node.iSize) :
    FailsClean s fFlags data pos ↔ Clean s data.length pos p := by
  have hshape : Shape s.popBread s.entries :=
    (wf.shape live.apart).congr (fun _ _ => rfl) rfl rfl
  have hheld : Held s.popBread s.entries := ⟨live.volume, live.data, live.index⟩
  have hr := ouichefsLightWrite_returns s fFlags data pos (hp ▸ fits) (reads 0)
  rw [← hp] at hr
  obtain ⟨b, hb⟩ : ∃ b, b = lightWriteBody s.popBread data p := ⟨_, rfl⟩
  have hmax : maxFilesize = 4194304 := rfl
  obtain ⟨hrefused, hstuck, hdone, hblocks⟩ := @lightWriteBody_within_ends s.popBread s.entries data
    p hshape hheld wf.size (wf.size ▸ within) (fun n => reads (n + 1)) copies (by omega)
  rw [← hb] at hr hrefused hstuck hdone hblocks
  by_cases hspace : spaceAvailable s (neededBlocks s data.length p) < 0
  · -- refused: only the position can differ
    obtain ⟨hfail, hctx, hat⟩ := hr.failed (hrefused hspace).ends (by decide)
    obtain ⟨hsame, hcontent⟩ := unchanged_of_refused (hrefused hspace) hctx
    constructor
    · intro h
      refine ⟨fun hgap => by omega, fun _ _ _ _ => hspace, fun hne => absurd ?_ hne⟩
      rw [← hat]
      exact (h hfail).2.2
    · intro h _
      refine ⟨hsame, hcontent, ?_⟩
      rw [hat]
      by_contra hne
      exact (h.append hne).2 hspace
  by_cases hfull : EndsFullBlock s.entries p ∧ 0 < data.length
  · have hcode := hstuck hspace hfull
    have hneed : 0 < neededBlocks s data.length p :=
      EndsFullBlock.needs hfull.1 (wf.shape live.apart) wf.size hfull.2
    obtain ⟨hfail, hctx, _⟩ := hr.failed hcode (by decide)
    constructor
    · intro h
      have hsame := (h hfail).1.iBlocks
      have hgrown := hblocks hspace
      rw [hctx] at hsame
      rw [hsame] at hgrown
      have : s.node.iBlocks = s.node.iBlocks + neededBlocks s data.length p := hgrown
      omega
    · intro h
      exact absurd (h.full within fits hfull.2 hfull.1) hspace
  · have hcode := hdone hspace hfull
    constructor
    · intro _
      exact ⟨fun hgap => by omega, fun _ _ hlen hends => absurd ⟨hends, hlen⟩ hfull,
        fun _ => ⟨fits, hspace⟩⟩
    · intro _ hfail
      exact absurd hfail (hr.passed (by rw [hcode]))

end

/-- When no read and no copy fails, a call of `ouichefs_light_write` that returns an
error changes nothing if and only if the condition holds. -/
theorem failing_changes_nothing_iff (s : Ctx) (fFlags : Nat) (data : List Byte) (pos : Nat)
    (wf : WellFormed s) (live : Live s) (reads : s.io.NoReadFails) (copies : s.io.NoCopyFails) :
    FailsClean s fFlags data pos ↔ Clean s data.length pos (startPos s fFlags pos) := by
  rcases Nat.lt_or_ge maxFilesize (startPos s fFlags pos + data.length) with hlarge | hfits
  · exact failsClean_too_large rfl hlarge
  rcases Nat.lt_or_ge s.node.iSize (startPos s fFlags pos) with hgap | hle
  · exact failsClean_gap rfl wf live reads copies hfits hgap
  · exact failsClean_within rfl wf live reads copies hfits hle

/-- A byte behind the maximal size of a file. -/
theorem failing_changes_nothing_small :
    (ouichefsLightWrite smallCtx 1 [66] 4194304).ret = -28 ∧
      FailsClean smallCtx 1 [66] 4194304 := by
  refine ⟨by decide +kernel, (failing_changes_nothing_iff smallCtx 1 [66] 4194304
    (smallCtx_shape.wellFormed smallCtx_held.nonzero rfl) (smallCtx_shape.live smallCtx_held)
    (fun _ => rfl) (fun _ => rfl)).mpr ?_⟩
  exact ⟨fun _ hfits => absurd hfits (by decide), fun hle => absurd hle (by decide),
    fun hne => absurd rfl hne⟩

/-- A byte appended to a full block is refused after a block has been taken for it. -/
theorem failing_takes_block : WellFormed fullCtx ∧ Live fullCtx ∧
    (ouichefsLightWrite fullCtx 1 [66] 4096).ret = -61 ∧
    fullCtx.node.iBlocks = 2 ∧ (ouichefsLightWrite fullCtx 1 [66] 4096).ctx.node.iBlocks = 3 ∧
    ¬ FailsClean fullCtx 1 [66] 4096 := by
  have hret : (ouichefsLightWrite fullCtx 1 [66] 4096).ret = -61 := by decide +kernel
  have hblocks : (ouichefsLightWrite fullCtx 1 [66] 4096).ctx.node.iBlocks = 3 := by decide +kernel
  refine ⟨fullCtx_shape.wellFormed fullCtx_held.nonzero (by decide),
    fullCtx_shape.live fullCtx_held, hret, rfl, hblocks, ?_⟩
  intro h
  have hsame := (h (by rw [hret]; decide)).1.iBlocks
  rw [hblocks] at hsame
  revert hsame
  decide

end Aborted
