import OuicheFs.FileRun

/-!
# Plain writes and defragmentation

`ouichefs_write` leaves entries that record a block number and no size, while a
defragmentation goes by the recorded sizes. On a file with data the first pass
takes every block for an empty one: it either goes on for ever or hands the only
block over to the second pass, which frees it.
-/
namespace PlainWrite

open CInt ByteBuffer IndexEntry Allocator FileContext Layout OuicheWrite OuicheDefrag OuicheRead
  Reserve Insert FileRun LightWrite Compaction Loop

/-- A call of `ouichefs_write` that returns the length of its data. -/
inductive WriteStep : Ctx → Ctx → Prop
  | write (s : Ctx) (io : Io) (fFlags pos : Nat) (data : List Byte) :
      (ouichefsWrite { s with io := io } fFlags data pos).ret = data.length →
      WriteStep s (ouichefsWrite { s with io := io } fFlags data pos).ctx

/-- With no failing read or copy, a defragmentation ends and every read within
the file returns the same bytes as before. -/
def DefragSafe (io : Io) (s : Ctx) : Prop :=
  ∃ fuel r, ouichefsDefrag fuel { s with io := io } = some r ∧
    ∀ before fFlags size pos, pos ≤ s.node.iSize →
      (ouichefsRead before { r.1 with io := io } fFlags size pos).data =
        (ouichefsRead before { s with io := io } fFlags size pos).data

/-- The blocks a call asks for. -/
def nbAllocs (s : Ctx) (size pos : Nat) : Nat :=
  (max ((idivCeil (u32 (max (pos + u32 size) s.node.iSize : Nat)) blockSize : Int) -
    (i32 s.node.iBlocks - 1)) 0).toNat

/-- The result of a call that passed the checks, from what its body left. -/
structure Finished (data : List Byte) (pos : Nat) (b : Ctx × Nat) (r : WriteResult) : Prop where
  ret : r.ret = ((data.length - b.2 : Nat) : Int)
  disk : r.ctx.disk = b.1.disk
  sbi : r.ctx.sbi = b.1.sbi
  node : ∃ mt ct, r.ctx.node = { b.1.node with
    iSize := max b.1.node.iSize (pos + (data.length - b.2)), iMtime := mt, iCtime := ct }

theorem ouichefsWrite_cases (s : Ctx) (fFlags : Nat) (data : List Byte) (pos : Nat) :
    ((maxFilesize < startPos s fFlags pos + data.length ∨
        spaceAvailable s (nbAllocs s data.length (startPos s fFlags pos)) < 0) ∧
      (ouichefsWrite s fFlags data pos).ret = -errNospc ∧
      (ouichefsWrite s fFlags data pos).ctx = s) ∨
    (startPos s fFlags pos + data.length ≤ maxFilesize ∧
      ¬ spaceAvailable s (nbAllocs s data.length (startPos s fFlags pos)) < 0 ∧
      Finished data (startPos s fFlags pos)
        (writeBody s data (startPos s fFlags pos)
          (nbAllocs s data.length (startPos s fFlags pos)))
        (ouichefsWrite s fFlags data pos)) := by
  unfold ouichefsWrite
  rw [writeFlags_eq]
  obtain ⟨p, hp⟩ : ∃ p, p = startPos s fFlags pos := ⟨_, rfl⟩
  simp only [← hp]
  rw [← nbAllocs]
  split
  · rename_i hmax
    exact Or.inl ⟨Or.inl hmax, rfl, rfl⟩
  rename_i hmax
  split
  · rename_i hspace
    exact Or.inl ⟨Or.inr hspace, rfl, rfl⟩
  rename_i hspace
  refine Or.inr ⟨Nat.le_of_not_lt hmax, hspace, ?_⟩
  obtain ⟨b, hb⟩ : ∃ b, b = writeBody s data p (nbAllocs s data.length p) := ⟨_, rfl⟩
  rw [← hb]
  by_cases hgrow : p + (data.length - b.2) > b.1.node.iSize
  · have hmax : max b.1.node.iSize (p + (data.length - b.2)) = p + (data.length - b.2) := by omega
    rw [if_pos hgrow]
    split
    · exact ⟨rfl, rfl, rfl, _, _, by rw [hmax]⟩
    · exact ⟨rfl, rfl, rfl, b.1.node.iMtime, b.1.node.iCtime, by rw [hmax]⟩
  · have hmax : max b.1.node.iSize (p + (data.length - b.2)) = b.1.node.iSize := by omega
    rw [if_neg hgrow]
    split
    · exact ⟨rfl, rfl, rfl, _, _, by rw [hmax]⟩
    · exact ⟨rfl, rfl, rfl, b.1.node.iMtime, b.1.node.iCtime, by rw [hmax]⟩

/-- The entries record the blocks `bs` and no size. -/
structure PlainInv (s : Ctx) (bs : List Nat) : Prop where
  shape : Shape s (freshEntries bs)
  held : Held s (freshEntries bs)
  low : ∀ b ∈ bs, b < 524288
  small : s.sbi.nrBlocks ≤ 524288

theorem PlainInv.numbers {s : Ctx} {bs : List Nat} (h : PlainInv s bs) :
    numbers (freshEntries bs) = bs := numbers_freshEntries h.low

section

variable {s t : Ctx} {bs : List Nat}

theorem PlainInv.congr (h : PlainInv s bs) (disk : t.disk = s.disk) (sbi : t.sbi = s.sbi)
    (iBlocks : t.node.iBlocks = s.node.iBlocks)
    (index : t.node.indexBlock = s.node.indexBlock) : PlainInv t bs := by
  refine ⟨h.shape.congr (fun i _ => blocks_congr index (by rw [disk]) i) iBlocks index,
    ⟨sbi ▸ h.held.ok, sbi ▸ h.held.data, by rw [sbi, index]; exact h.held.index⟩, h.low,
    sbi ▸ h.small⟩

theorem PlainInv.slot (h : PlainInv s bs) {i : Nat} (lt : i < bs.length) :
    (s.blocks i).toNat = bs[i]?.getD 0 := by
  have hl := h.shape.length_le
  rw [freshEntries_length] at hl
  have hslot := h.shape.slots i (by omega)
  simp only [freshEntries, List.getElem?_map, List.getElem?_eq_getElem lt, Option.map_some,
    Option.getD_some] at hslot ⊢
  rw [hslot, freshEntry_toNat (h.low _ (List.getElem_mem lt))]

theorem PlainInv.nodup (h : PlainInv s bs) : bs.Nodup := by
  have := h.shape.distinct
  rwa [h.numbers] at this

theorem PlainInv.other (h : PlainInv s bs) {i j : Nat} (hi : i < bs.length) (hj : j < bs.length)
    (ne : i ≠ j) : bs[i]?.getD 0 ≠ bs[j]?.getD 0 := by
  simp only [List.getElem?_eq_getElem hi, List.getElem?_eq_getElem hj, Option.getD_some]
  intro heq
  exact ne ((List.Nodup.getElem_inj_iff h.nodup).mp heq)

/-- Only bytes of the blocks `bs` change. -/
structure BytesOnly (s t : Ctx) (bs : List Nat) : Prop where
  disk : ∀ b, b ∉ bs → t.disk b = s.disk b
  sbi : t.sbi = s.sbi
  node : t.node = s.node

theorem BytesOnly.refl (s : Ctx) (bs : List Nat) : BytesOnly s s bs := ⟨fun _ _ => rfl, rfl, rfl⟩

theorem BytesOnly.trans {u : Ctx} (h : BytesOnly s t bs) (h' : BytesOnly t u bs) :
    BytesOnly s u bs :=
  ⟨fun b hb => (h'.disk b hb).trans (h.disk b hb), h'.sbi.trans h.sbi, h'.node.trans h.node⟩

theorem PlainInv.bytesOnly (h : PlainInv s bs) (d : BytesOnly s t bs) : PlainInv t bs := by
  have hindex : t.disk s.node.indexBlock = s.disk s.node.indexBlock := by
    apply d.disk
    rw [← h.numbers]
    exact h.shape.apart
  refine ⟨h.shape.congr ?_ (by rw [d.node]) (by rw [d.node]),
    ⟨d.sbi ▸ h.held.ok, d.sbi ▸ h.held.data, by rw [d.sbi, d.node]; exact h.held.index⟩, h.low,
    d.sbi ▸ h.small⟩
  intro i _
  exact blocks_congr (by rw [d.node]) hindex i

/-- A user copy writes to one block, completely or not. -/
theorem copyFromUser_bytesOnly {bno : Nat} (mem : bno ∈ bs) (s : Ctx) (off len : Nat)
    (src : Nat → Byte) : BytesOnly s (s.copyFromUser bno off len src).1 bs := by
  have hset : ∀ (block : Buffer) (b : Nat), b ∉ bs → s.disk.set bno block b = s.disk b :=
    fun block b hb => set_of_ne _ _ (fun heq => hb (heq ▸ mem))
  unfold Ctx.copyFromUser
  split
  · exact ⟨fun b hb => hset _ b hb, rfl, rfl⟩
  · exact ⟨fun b hb => hset _ b hb, rfl, rfl⟩

theorem PlainInv.slot_mem (h : PlainInv s bs) {i : Nat} (lt : i < bs.length) :
    (s.blocks i).toNat ∈ bs := by
  rw [h.slot lt]
  simp [List.getElem?_eq_getElem lt]

theorem writeLoop_bytesOnly (buff : List Byte) (n : Nat) :
    ∀ (s : Ctx) (lbi lp remaining : Nat), s.node.indexBlock ∉ bs →
      (∀ i, i < n → (s.blocks (lbi + i)).toNat ∈ bs) →
      BytesOnly s (writeLoop buff n s lbi lp remaining).1 bs := by
  induction n with
  | zero =>
    intro s lbi lp remaining _ _
    exact BytesOnly.refl s bs
  | succ n ih =>
    intro s lbi lp remaining hapart hmem
    have hbno : ((s.touch lbi).blocks lbi).toNat ∈ bs := hmem 0 (by omega)
    rw [writeLoop]
    split
    · exact BytesOnly.refl s bs
    simp only
    split
    · exact ⟨fun _ _ => rfl, rfl, rfl⟩
    obtain ⟨u, hu⟩ : ∃ u, u = ((s.touch lbi).popBread.copyFromUser
        ((s.touch lbi).blocks lbi).toNat lp (min (blockSize - lp) remaining)
        (fun k => buff.getD (buff.length - remaining + k) 0)).1 := ⟨_, rfl⟩
    have hcopy : BytesOnly s u bs := by
      obtain ⟨hdisk, hsbi, hnode⟩ := copyFromUser_bytesOnly hbno (s.touch lbi).popBread lp
        (min (blockSize - lp) remaining) (fun k => buff.getD (buff.length - remaining + k) 0)
      rw [hu]
      exact ⟨hdisk, hsbi, hnode⟩
    rw [← hu]
    split
    · exact hcopy
    · refine hcopy.trans (ih u (lbi + 1) 0 _ (hcopy.node ▸ hapart) ?_)
      intro i hi
      have hslot : u.blocks (lbi + 1 + i) = s.blocks (lbi + (i + 1)) := by
        rw [show lbi + 1 + i = lbi + (i + 1) by omega]
        exact blocks_congr (by rw [hcopy.node]) (hcopy.disk _ hapart) _
      rw [hslot]
      exact hmem (i + 1) (by omega)

theorem PlainInv.index_notMem (h : PlainInv s bs) : s.node.indexBlock ∉ bs := by
  have := h.shape.apart
  rwa [h.numbers] at this

theorem PlainInv.copies (h : PlainInv s bs) (buff : List Byte) {n lbi : Nat} (lp remaining : Nat)
    (le : ∀ i, i < n → lbi + i < bs.length) :
    BytesOnly s (writeLoop buff n s lbi lp remaining).1 bs :=
  writeLoop_bytesOnly buff n s lbi lp remaining h.index_notMem (fun i hi => h.slot_mem (le i hi))

/-- The blocks a call asks for are appended to those of the file. -/
structure Extended (s : Ctx) (bs fresh : List Nat) (nb : Nat) (r : Ctx × Bool) : Prop where
  length : fresh.length = nb
  succeeded : r.2 = false
  plain : PlainInv r.1 (bs ++ fresh)
  allocated : Allocated s.sbi r.1.sbi fresh
  frame : IndexOnly s r.1
  node : r.1.node = { s.node with iBlocks := s.node.iBlocks + nb }

theorem PlainInv.reserve (h : PlainInv s bs) {nb : Nat} (space : ¬ spaceAvailable s nb < 0)
    (few : nb < 1000000000) :
    ∃ fresh, Extended s bs fresh nb (reserveWriteBlocks s nb) := by
  have hl := h.shape.length_le
  rw [spaceAvailable_neg_iff h.shape few] at space
  simp only [freshEntries_length, not_or, Nat.not_lt] at hl space
  have hstart : (max (i32 s.node.iBlocks - 1) 0).toNat = (freshEntries bs).length := by
    rw [h.shape.iBlocks, i32_eq_self (by simp; omega) (by simp; omega)]
    simp
  have hnil : freshEntries bs ++ [] = freshEntries bs := List.append_nil _
  obtain ⟨fresh, hins⟩ := insert_fresh
    (hnil.symm ▸ h.shape) (hnil.symm ▸ h.held) (addressable_of_small h.small _)
    (by simp; omega) space.2
  simp only [ne_eq, not_true_eq_false, false_and, if_false] at hins
  have hlist : freshEntries bs ++ freshEntries fresh ++ [] = freshEntries (bs ++ fresh) := by
    simp [freshEntries]
  have hshape := hins.shape
  have hheld := hins.held
  rw [hlist] at hshape hheld
  have hflag : (reserveEmptyBlocks (freshEntries bs).length nb s).2 = false := by
    obtain ⟨_, hr⟩ := reserveEmptyBlocks_spec nb (freshEntries bs).length s h.held.ok space.2
      (by rw [h.shape.iBlocks]; simp; omega) (by
        intro i hlo hhi
        rw [freshEntries_length] at hlo hhi
        rw [h.shape.slots i (by omega), List.getElem?_eq_none (by simpa using hlo)]
        rfl)
    exact hr.succeeded
  refine ⟨fresh, ?_⟩
  unfold reserveWriteBlocks
  rw [hstart]
  refine ⟨hins.length, hflag, ⟨hshape, hheld, ?_, ?_⟩, hins.allocated, hins.frame, hins.node⟩
  · intro b hb
    rcases List.mem_append.mp hb with hold | hnew
    · exact h.low b hold
    · exact Nat.lt_of_lt_of_le (hins.allocated.were_free b hnew).2.1 h.small
  · rw [hins.allocated.layout.nrBlocks]
    exact h.small

/-- The file after a call, with the blocks `fresh` behind the old ones. -/
structure Lengthened (s : Ctx) (bs fresh : List Nat) (t : Ctx) : Prop where
  plain : PlainInv t (bs ++ fresh)
  allocated : Allocated s.sbi t.sbi fresh
  frame : ∀ b, b ≠ s.node.indexBlock → b ∉ bs ++ fresh → t.disk b = s.disk b
  index : t.node.indexBlock = s.node.indexBlock
  mode : t.node.iMode = s.node.iMode

theorem PlainInv.unchanged (h : PlainInv s bs) (disk : t.disk = s.disk) (sbi : t.sbi = s.sbi)
    (node : t.node = s.node) : Lengthened s bs [] t := by
  refine ⟨?_, ?_, fun b _ _ => by rw [disk], by rw [node], by rw [node]⟩
  · rw [List.append_nil]
    exact h.congr disk sbi (by rw [node]) (by rw [node])
  · rw [sbi]
    exact Allocated.nil h.held.ok

/-- The copies after an extension write to the blocks of the file. -/
theorem Extended.copied {fresh : List Nat} {nb : Nat} {r : Ctx × Bool}
    (e : Extended s bs fresh nb r) (d : BytesOnly r.1 t (bs ++ fresh)) :
    Lengthened s bs fresh t := by
  refine ⟨e.plain.bytesOnly d, d.sbi ▸ e.allocated, ?_, ?_, ?_⟩
  · intro b hi hb
    rw [d.disk b hb, e.frame.disk b hi]
  · rw [d.node]
    exact e.frame.index
  · rw [d.node, e.node]

theorem writeBody_lengthened (h : PlainInv s bs) (buff : List Byte) (pos : Nat) {nb : Nat}
    (space : ¬ spaceAvailable s nb < 0) (few : nb < 1000000000) :
    ∃ fresh, Lengthened s bs fresh (writeBody s buff pos nb).1 := by
  have h' : PlainInv s.popBread bs := h.congr rfl rfl rfl rfl
  unfold writeBody
  split
  · exact ⟨[], h.unchanged rfl rfl rfl⟩
  obtain ⟨fresh, hr⟩ := h'.reserve space few
  obtain ⟨r, hrdef⟩ : ∃ r, r = reserveWriteBlocks s.popBread nb := ⟨_, rfl⟩
  rw [← hrdef] at hr
  simp only [← hrdef]
  split
  · obtain ⟨hp, ha, hf, hi, hm⟩ := hr.copied (BytesOnly.refl r.1 _)
    exact ⟨fresh, hp, ha, hf, hi, hm⟩
  · have hloop := @PlainInv.copies r.1 _ hr.plain buff
      (i32 ((r.1.node.iBlocks : Int) - 1) - (pos / blockSize : Nat)).toNat (pos / blockSize)
      (pos % blockSize) buff.length (by
        rw [hr.plain.shape.nbBlocks, freshEntries_length]
        intro i hi
        omega)
    obtain ⟨hp, ha, hf, hi, hm⟩ := hr.copied hloop
    exact ⟨fresh, hp, ha, hf, hi, hm⟩

theorem nbAllocs_lt (one : 0 < s.node.iBlocks) (few : s.node.iBlocks ≤ 1025) (size pos : Nat) :
    nbAllocs s size pos < 1000000000 := by
  have hi : i32 s.node.iBlocks = s.node.iBlocks := i32_eq_self (by omega) (by omega)
  obtain ⟨x, hx⟩ : ∃ x, x = u32 (max (pos + u32 size) s.node.iSize : Nat) := ⟨_, rfl⟩
  have hu : x < 4294967296 := by
    rw [hx]
    unfold u32
    omega
  unfold nbAllocs
  rw [← hx, hi]
  unfold idivCeil blockSize
  split <;> omega

theorem PlainInv.nbAllocs_lt (h : PlainInv s bs) (size pos : Nat) :
    nbAllocs s size pos < 1000000000 := by
  have hl := h.shape.length_le
  have hi := h.shape.iBlocks
  exact PlainWrite.nbAllocs_lt (by omega) (by omega) size pos

/-- A call keeps the file plain, whatever fails. -/
theorem ouichefsWrite_lengthened (h : PlainInv s bs) (fFlags : Nat) (data : List Byte) (pos : Nat) :
    ∃ fresh, Lengthened s bs fresh (ouichefsWrite s fFlags data pos).ctx := by
  rcases ouichefsWrite_cases s fFlags data pos with ⟨_, _, hsame⟩ | ⟨_, hspace, f⟩
  · rw [hsame]
    exact ⟨[], h.unchanged rfl rfl rfl⟩
  · obtain ⟨fresh, hb⟩ := writeBody_lengthened h data (startPos s fFlags pos) hspace
      (h.nbAllocs_lt _ _)
    obtain ⟨mt, ct, hnode⟩ := f.node
    refine ⟨fresh, hb.plain.congr f.disk f.sbi (by rw [hnode]) (by rw [hnode]),
      f.sbi ▸ hb.allocated, fun b hi hn => by rw [f.disk, hb.frame b hi hn], ?_, ?_⟩
    · rw [hnode]
      exact hb.index
    · rw [hnode]
      exact hb.mode

end

theorem reserveEmptyBlocks_iSize (n : Nat) : ∀ (bli : Nat) (s : Ctx),
    (reserveEmptyBlocks bli n s).1.node.iSize = s.node.iSize := by
  induction n with
  | zero => exact fun _ _ => rfl
  | succ n ih =>
    intro bli s
    rw [reserveEmptyBlocks]
    simp only
    split
    · exact ih (bli + 1) _
    split
    · rfl
    · exact ih (bli + 1) _

theorem writeLoop_node (buff : List Byte) (n : Nat) : ∀ (s : Ctx) (lbi lp remaining : Nat),
    (writeLoop buff n s lbi lp remaining).1.node = s.node := by
  induction n with
  | zero => exact fun _ _ _ _ => rfl
  | succ n ih =>
    intro s lbi lp remaining
    rw [writeLoop]
    split
    · rfl
    simp only
    split
    · rfl
    split
    · rw [node_copyFromUser]
      rfl
    · rw [ih, node_copyFromUser]
      rfl

theorem writeBody_iSize (s : Ctx) (buff : List Byte) (pos nb : Nat) :
    (writeBody s buff pos nb).1.node.iSize = s.node.iSize := by
  unfold writeBody
  split
  · rfl
  simp only
  split
  · exact reserveEmptyBlocks_iSize _ _ _
  · rw [writeLoop_node]
    exact reserveEmptyBlocks_iSize _ _ _

/-- Writing nothing without asking for a block leaves the inode alone. -/
theorem writeBody_nothing (s : Ctx) (pos : Nat) : (writeBody s [] pos 0).1.node = s.node := by
  unfold writeBody
  split
  · rfl
  simp only
  split
  · rfl
  · rw [writeLoop_node]
    rfl

/-- A complete write after which the size is 0 has written nothing. -/
theorem ouichefsWrite_zero {s : Ctx} {fFlags pos : Nat} {data : List Byte}
    (inv : s.node.iSize = 0 → s.node.iBlocks = 1)
    (full : (ouichefsWrite s fFlags data pos).ret = data.length)
    (zero : (ouichefsWrite s fFlags data pos).ctx.node.iSize = 0) :
    (ouichefsWrite s fFlags data pos).ctx.node.iBlocks = 1 := by
  obtain ⟨p, hp⟩ : ∃ p, p = startPos s fFlags pos := ⟨_, rfl⟩
  rcases ouichefsWrite_cases s fFlags data pos with ⟨_, hret, _⟩ | ⟨_, _, f⟩
  · rw [hret] at full
    simp only [errNospc] at full
    omega
  rw [← hp] at f
  obtain ⟨mt, ct, hnode⟩ := f.node
  have hwritten := f.ret.symm.trans full
  rw [hnode] at zero ⊢
  simp only [writeBody_iSize] at zero
  -- the size only grows, so position, data and old size are all 0
  have hnil : data = [] := List.eq_nil_of_length_eq_zero (by omega)
  have hold : s.node.iSize = 0 := by omega
  have hp0 : p = 0 := by omega
  have hnone : nbAllocs s data.length p = 0 := by
    unfold nbAllocs
    rw [hp0, hnil, hold, inv hold]
    decide +kernel
  rw [hnone, hnil]
  simp only [writeBody_nothing]
  exact inv hold

theorem NewFile.plain {s : Ctx} (h : NewFile s) (small : s.sbi.nrBlocks ≤ 524288) :
    PlainInv s [] :=
  ⟨(h.inv small).shape, (h.inv small).held, by simp, small⟩

theorem run_plain {s₀ s : Ctx} (new : NewFile s₀) (small : s₀.sbi.nrBlocks ≤ 524288)
    (run : Relation.ReflTransGen WriteStep s₀ s) : ∃ bs, PlainInv s bs := by
  induction run with
  | refl => exact ⟨[], NewFile.plain new small⟩
  | @tail t _ _ step ih =>
    obtain ⟨bs, h⟩ := ih
    cases step with
    | write io fFlags pos data _ =>
      have hio : PlainInv { t with io := io } bs := h.congr rfl rfl rfl rfl
      obtain ⟨fresh, hl⟩ := ouichefsWrite_lengthened hio fFlags data pos
      exact ⟨_, hl.plain⟩

theorem run_zero {s₀ s : Ctx} (new : NewFile s₀)
    (run : Relation.ReflTransGen WriteStep s₀ s) (zero : s.node.iSize = 0) :
    s.node.iBlocks = 1 := by
  induction run with
  | refl => exact new.iBlocks
  | tail _ step ih =>
    cases step with
    | write io fFlags pos data full => exact ouichefsWrite_zero ih full zero

/-- A read without a data block from the cursor on returns nothing. -/
theorem ouichefsRead_nothing (before : Nat → Byte) {s : Ctx} (fFlags size : Nat)
    (iBlocks : s.node.iBlocks = 1) : (ouichefsRead before s fFlags size 0).data = [] := by
  have hnone : (i32 ((s.popBread.node.iBlocks : Int) - 1) - i32 ((0 / blockSize : Nat) : Int)).toNat
      = 0 := by
    change (i32 ((s.node.iBlocks : Int) - 1) - _).toNat = 0
    rw [iBlocks]
    decide
  unfold ouichefsRead
  split
  · rfl
  split
  · rfl
  simp only [hnone, readLoop]

theorem defragSafe_of_zero {io : Io} {s : Ctx} (zero : s.node.iSize = 0)
    (iBlocks : s.node.iBlocks = 1) : DefragSafe io s := by
  obtain ⟨t, ht⟩ : ∃ t : Ctx, t = { s with io := io } := ⟨_, rfl⟩
  have hsize : t.node.iSize = 0 := by rw [ht]; exact zero
  have hblocks : t.node.iBlocks = 1 := by rw [ht]; exact iBlocks
  obtain ⟨r, hr, hone⟩ : ∃ r, ouichefsDefrag 1 t = some r ∧ r.1.node.iBlocks = 1 := by
    unfold ouichefsDefrag
    split
    · exact ⟨_, rfl, hblocks⟩
    obtain ⟨p, hp⟩ : ∃ p : Pass, p = ⟨t.popBread.touch 0, 0,
      getBlockSize ((t.popBread.touch 0).blocks 0), getBlockSize ((t.popBread.touch 0).blocks 0)⟩ :=
      ⟨_, rfl⟩
    have hnode : p.ctx.node = t.node := by rw [hp]; rfl
    have hdone : passStep p = .done (p, 0) := by
      refine if_neg ?_
      rw [hnode, hsize]
      omega
    have hit : iterate passStep 1 p = some (p, 0) := by
      simp only [iterate, hdone]
    simp only [← hp, hit]
    refine ⟨_, rfl, ?_⟩
    have hnb : ∀ bli, u64 (((p.ctx.touch p.bli).node.iBlocks : Int) - 1) - bli = 0 := by
      intro bli
      change u64 ((p.ctx.node.iBlocks : Int) - 1) - bli = 0
      rw [hnode, hblocks]
      exact Nat.zero_sub bli
    change (secondPass p).node.iBlocks = 1
    unfold secondPass
    simp only [hnb, freeLoop]
    change u64 ((p.ctx.node.iBlocks : Int) - _) = 1
    rw [hnode, hblocks]
    decide
  rw [ht] at hr
  refine ⟨1, r, hr, ?_⟩
  intro before fFlags size pos hpos
  obtain rfl : pos = 0 := by omega
  have hafter := ouichefsRead_nothing before (s := { r.1 with io := io }) fFlags size hone
  have hbefore := @ouichefsRead_nothing before { s with io := io } fFlags size iBlocks
  exact hafter.trans hbefore.symm

/-- The first pass on an index without sizes: nothing is ever moved. -/
structure Stuck (p : Pass) : Prop where
  bli : p.bli = 0
  dataMoved : p.dataMoved = 0
  bytes : 0 < p.ctx.node.iSize
  index : ∃ es, Shape p.ctx es ∧ es.length ≠ 1 ∧ ∀ e ∈ es, getBlockSize e = 0

theorem Stuck.step {p : Pass} (h : Stuck p) : ∃ p', passStep p = .next p' ∧ Stuck p' := by
  obtain ⟨es, hshape, hone, hempty⟩ := h.index
  have hl := hshape.length_le
  have hib := hshape.iBlocks
  obtain ⟨q, hq⟩ : ∃ q, q = p.ctx.touch (((0 : Nat) : Int) + 1) := ⟨_, rfl⟩
  have hqn : q.node = p.ctx.node := by rw [hq]; rfl
  have hqshape : Shape q es := by
    rw [hq]
    exact hshape.congr (fun _ _ => rfl) rfl rfl
  have hgo : p.dataMoved < p.ctx.node.iSize ∧ p.bli < u64 ((p.ctx.node.iBlocks : Int) - 2) := by
    refine ⟨by rw [h.dataMoved]; exact h.bytes, ?_⟩
    rw [h.bli, hib]
    unfold u64
    omega
  have hskip : blockEmpty (q.blocks 1) = true := by
    rw [blockEmpty_iff, hqshape.slots 1 (by omega)]
    rcases hes : es[1]? with _ | e
    · rfl
    · exact hempty e (List.mem_of_getElem? hes)
  obtain ⟨u, hu⟩ : ∃ u, u = bubbleUpBlock q 1 (i32 ((q.node.iBlocks : Int) - 1)) := ⟨_, rfl⟩
  have hstep : passStep p = .next { p with ctx := u } := by
    unfold passStep
    rw [if_pos hgo]
    simp only [h.bli, ← hq]
    rw [if_pos hskip, hu]
  -- the rotation permutes the entries, if there are any behind the first
  have hrotated : u.node = p.ctx.node ∧
      ∃ es', Shape u es' ∧ es'.length ≠ 1 ∧ ∀ e ∈ es', getBlockSize e = 0 := by
    match es, hone with
    | [], _ =>
      have hsame : u = q := by
        rw [hu, bubbleUpBlock, hqshape.nbBlocks]
        rfl
      rw [hsame]
      exact ⟨hqn, [], hqshape, by simp, hempty⟩
    | e :: z :: R, _ =>
      obtain ⟨hs, _, _, hn, _, _⟩ := bubbleUpBlock_spec (s := q) (A := [e]) (R := R) (z := z) hqshape
        (hempty z (by simp))
      refine ⟨by rw [hu]; exact hn.trans hqn, [e] ++ (R ++ [z]), by rw [hu]; exact hs, by simp, ?_⟩
      intro f hf
      apply hempty f
      simp only [List.mem_append, List.mem_cons, List.not_mem_nil, or_false] at hf ⊢
      exact hf.imp_right Or.symm
  exact ⟨_, hstep, h.bli, h.dataMoved, by rw [hrotated.1]; exact h.bytes, hrotated.2⟩

/-- On an index without sizes a defragmentation ends only for a single data
block, and it frees that block. -/
theorem ouichefsDefrag_hollow {s : Ctx} {es : List Word} (shape : Shape s es)
    (empty : ∀ e ∈ es, getBlockSize e = 0) (bytes : 0 < s.node.iSize)
    (reads : s.io.NoReadFails) {fuel : Nat} {r : Ctx × Int} (run : ouichefsDefrag fuel s = some r) :
    es.length = 1 ∧ r.1.node.iBlocks = 1 := by
  obtain ⟨q, hq⟩ : ∃ q, q = s.popBread.touch 0 := ⟨_, rfl⟩
  have hqshape : Shape q es := by
    rw [hq]
    exact shape.congr (fun _ _ => rfl) rfl rfl
  have hfirst : getBlockSize (q.blocks 0) = 0 := by
    rw [hqshape.slots 0 (by omega)]
    rcases hes : es[0]? with _ | e
    · rfl
    · exact empty e (List.mem_of_getElem? hes)
  obtain ⟨p, hp⟩ : ∃ p : Pass, p = ⟨q, 0, 0, 0⟩ := ⟨_, rfl⟩
  have hrun : (iterate passStep fuel p).map (fun r =>
      if r.2 < 0 then (r.1.ctx, r.2) else (secondPass r.1, 0)) = some r := by
    unfold ouichefsDefrag at run
    rw [if_neg (by rw [reads 0]; simp)] at run
    simp only [← hq, hfirst] at run
    rw [hp]
    exact run
  by_cases hone : es.length = 1
  · refine ⟨hone, ?_⟩
    have hdone : passStep p = .done (p, 0) := by
      refine if_neg ?_
      rw [hp]
      rintro ⟨_, hlt⟩
      simp only [hqshape.iBlocks, hone] at hlt
      exact absurd hlt (by decide)
    have heq : r = (secondPass p, 0) := by
      cases fuel with
      | zero => cases hrun
      | succ fuel =>
        simp only [iterate, hdone] at hrun
        exact (Option.some.inj hrun).symm
    have hsep : Separated s es p [] es := by
      rw [hp]
      refine ⟨?_, if_pos ((blockEmpty_iff _).mpr hfirst), empty, by simp, by simp, ?_⟩
      · rw [hq]
        have hkept := kept_all (t := s.popBread.touch 0) shape rfl rfl rfl rfl
        rwa [Overlap.held_eq_nil.mpr (total_of_sizes_zero empty)] at hkept
      · intro hok n
        rw [hq]
        exact hok (n + 1)
    have hc := hsep.squeezed
    rw [heq]
    exact hc.shape.iBlocks
  · have hstuck : Stuck p := by
      rw [hp]
      refine ⟨rfl, rfl, ?_, es, hqshape, hone, empty⟩
      rw [hq]
      exact bytes
    rw [iterate_diverges Stuck (fun p hp => hp.step) hstuck] at hrun
    cases hrun

/-- The first byte of a file on a single block can be read. -/
theorem ouichefsRead_first (before : Nat → Byte) {s : Ctx} (iBlocks : s.node.iBlocks = 2)
    (bytes : 0 < s.node.iSize) (reads : s.io.NoReadFails) (copies : s.io.NoCopyFails) :
    (ouichefsRead before s 0 1 0).data ≠ [] := by
  have hn : i32 ((s.popBread.node.iBlocks : Int) - 1) = 1 := by
    change i32 ((s.node.iBlocks : Int) - 1) = 1
    rw [iBlocks]
    decide
  have hsize : s.popBread.node.iSize = s.node.iSize := rfl
  obtain ⟨last, hlast⟩ : ∃ last, last = if s.node.iSize % blockSize = 0 ∧ s.node.iSize ≠ 0 then
    blockSize else s.node.iSize % blockSize := ⟨_, rfl⟩
  have hpos : 0 < last ∧ last ≤ 4096 := by
    rw [hlast]
    by_cases hfull : s.node.iSize % blockSize = 0 ∧ s.node.iSize ≠ 0
    · rw [if_pos hfull]
      decide
    · rw [if_neg hfull]
      unfold blockSize at hfull ⊢
      omega
  have havail : u64 ((last : Int) - ((0 : Nat) : Int)) = last := by
    rw [Nat.cast_zero, sub_zero]
    exact u64_natCast (show last < 18446744073709551616 by omega)
  unfold ouichefsRead
  rw [if_neg (by decide), if_neg (by rw [reads 0]; simp)]
  simp only [hn, hsize, ← hlast]
  change (readLoop before 1 last 1 s.popBread 0 ((0 : Nat) : Int) 1).2 ≠ []
  unfold readLoop
  have hb : (s.popBread.touch 0).io.bread 0 = true := reads 1
  have hc : (s.popBread.touch 0).popBread.io.ucopy 0 = none := copies 0
  simp only [hb, hc, havail]
  have hlen : (if (0 : Int) = 1 - 1 then last else u64 ((blockSize : Int) - ((0 : Nat) : Int))) =
      last := if_pos (by decide)
  simp only [hlen]
  rw [if_neg (by decide), if_neg (by decide), if_neg (by omega), if_neg (by simp)]
  have hmin : min last 1 = 1 := by omega
  rw [hmin]
  simp [peek]

theorem not_defragSafe {io : Io} {s : Ctx} {bs : List Nat} (h : PlainInv s bs)
    (bytes : 0 < s.node.iSize) (reads : io.NoReadFails) (copies : io.NoCopyFails) :
    ¬ DefragSafe io s := by
  rintro ⟨fuel, r, hrun, hread⟩
  have hio : PlainInv { s with io := io } bs := h.congr rfl rfl rfl rfl
  obtain ⟨hone, hib⟩ := ouichefsDefrag_hollow hio.shape
    (by
      intro e he
      obtain ⟨b, _, rfl⟩ := List.mem_map.mp he
      exact getBlockSize_freshEntry b) bytes reads hrun
  have htwo : s.node.iBlocks = 2 := by rw [h.shape.iBlocks, hone]
  apply ouichefsRead_first (fun _ => 0) (s := { s with io := io }) htwo bytes reads copies
  rw [← hread (fun _ => 0) 0 1 0 (by omega)]
  exact ouichefsRead_nothing _ _ _ hib

/-- With reads and copies that succeed, a defragmentation of a file written by
`ouichefs_write` is safe exactly if the file has no byte. -/
theorem defragSafe_iff_empty (s₀ s : Ctx) (new : NewFile s₀)
    (run : Relation.ReflTransGen WriteStep s₀ s) (io : Io) (reads : io.NoReadFails)
    (copies : io.NoCopyFails) :
    (s.node.iSize = 0 → DefragSafe io s) ∧
      (s₀.sbi.nrBlocks ≤ 524288 → DefragSafe io s → s.node.iSize = 0) := by
  constructor
  · intro hzero
    exact defragSafe_of_zero hzero (run_zero new run hzero)
  · intro hsmall hsafe
    obtain ⟨bs, h⟩ := run_plain new hsmall run
    by_contra hbytes
    exact not_defragSafe h (Nat.pos_of_ne_zero hbytes) reads copies hsafe

/-- A new file after a write of one byte. -/
def oneByteCtx : Ctx := (ouichefsWrite freshCtx 1 [66] 0).ctx

theorem oneByteCtx_sizes : oneByteCtx.node.iSize = 1 ∧ oneByteCtx.node.iBlocks = 2 := by
  decide +kernel

theorem freshCtx_step : WriteStep freshCtx oneByteCtx :=
  WriteStep.write freshCtx calmIo 1 0 [66] (by decide +kernel)

theorem defragSafe_iff_empty_fresh :
    DefragSafe calmIo freshCtx ∧ ¬ DefragSafe calmIo oneByteCtx := by
  refine ⟨(defragSafe_iff_empty freshCtx freshCtx freshCtx_new .refl calmIo (fun _ => rfl)
    (fun _ => rfl)).1 rfl, ?_⟩
  intro hsafe
  have hzero := (defragSafe_iff_empty freshCtx oneByteCtx freshCtx_new (.single freshCtx_step)
    calmIo (fun _ => rfl) (fun _ => rfl)).2 (by decide) hsafe
  rw [oneByteCtx_sizes.1] at hzero
  cases hzero

/-- Not every file that `ouichefs_write` leaves can be defragmented. -/
theorem defragSafe_not_always : ¬ ∀ s₀ s, NewFile s₀ → Relation.ReflTransGen WriteStep s₀ s →
    DefragSafe calmIo s := by
  intro hall
  have hrun : Relation.ReflTransGen WriteStep freshCtx oneByteCtx := .single freshCtx_step
  obtain ⟨bs, h⟩ := run_plain freshCtx_new (by decide) hrun
  have hpos : 0 < oneByteCtx.node.iSize := by
    rw [oneByteCtx_sizes.1]
    exact Nat.one_pos
  exact not_defragSafe h hpos (fun _ => rfl) (fun _ => rfl)
    (hall freshCtx oneByteCtx freshCtx_new hrun)

end PlainWrite
