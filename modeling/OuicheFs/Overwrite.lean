import OuicheFs.PlainWrite

/-!
# Reading back plain writes

In a run of complete calls of `ouichefs_write` on a new file the number of data
blocks stays in step with the size, so `ouichefs_read` finds the end of the file
and every byte is the one of the latest write over it. The exception is a call
with no data that cannot read the index block: it moves the size and allocates
nothing.
-/
namespace Overwrite

open CInt ByteBuffer IndexEntry Allocator FileContext Layout OuicheWrite OuicheRead
  Reserve FileRun LightWrite PlainWrite

/-- A call of `ouichefs_write`, with the position it starts from. -/
structure Call where
  pos : Nat
  data : List Byte

/-- The end of the furthest call. -/
def extent : List Call → Nat
  | [] => 0
  | c :: log => max (extent log) (c.pos + c.data.length)

/-- The byte the latest call over the offset `o` has left there; the latest call
stands first. -/
def latest : List Call → Nat → Option Byte
  | [], _ => none
  | c :: log, o =>
    if c.pos ≤ o ∧ o < c.pos + c.data.length then c.data[o - c.pos]? else latest log o

/-- Runs of calls that all return the length of their data. -/
inductive WriteRun (condition : Ctx → Io → Call → Prop) (s₀ : Ctx) : List Call → Ctx → Prop
  | start : WriteRun condition s₀ [] s₀
  | write (log : List Call) (s : Ctx) (io : Io) (fFlags pos : Nat) (data : List Byte) :
      WriteRun condition s₀ log s → condition s io ⟨startPos s fFlags pos, data⟩ →
      (ouichefsWrite { s with io := io } fFlags data pos).ret = data.length →
      WriteRun condition s₀ (⟨startPos s fFlags pos, data⟩ :: log)
        (ouichefsWrite { s with io := io } fFlags data pos).ctx

/-- A call without data reads the index block, or starts within the blocks the
file has. -/
def ReachesIndex (s : Ctx) (io : Io) (c : Call) : Prop :=
  c.data = [] → io.bread 0 = true ∨ c.pos ≤ blockSize * (s.node.iBlocks - 1)

/-- Size, block count and all reads are as the calls say. -/
structure ReadsBack (log : List Call) (s : Ctx) : Prop where
  size : s.node.iSize = extent log
  blocks : s.node.iBlocks = (s.node.iSize + 4095) / 4096 + 1
  read : ∀ (before : Nat → Byte) (io : Io) (fFlags size pos : Nat), io.NoReadFails →
    io.NoCopyFails → readFlags fFlags = true → pos ≤ s.node.iSize →
    (ouichefsRead before { s with io := io } fFlags size pos).ret =
        (min size (s.node.iSize - pos) : Nat) ∧
      (ouichefsRead before { s with io := io } fFlags size pos).data.length =
        min size (s.node.iSize - pos) ∧
      ∀ o b, pos ≤ o → o < pos + min size (s.node.iSize - pos) → latest log o = some b →
        (ouichefsRead before { s with io := io } fFlags size pos).data[o - pos]? = some b

theorem latest_lt_extent {log : List Call} {o : Nat} {b : Byte} (h : latest log o = some b) :
    o < extent log := by
  induction log with
  | nil => cases h
  | cons c log ih =>
    simp only [latest, extent] at h ⊢
    split at h
    · omega
    · have := ih h
      omega

/-- The byte at an offset, by the blocks alone. -/
def fileByte (disk : Store) (bs : List Nat) (o : Nat) : Byte :=
  disk (bs[o / blockSize]?.getD 0) (o % blockSize)

section

variable {s t : Ctx} {bs : List Nat}

/-- The state after `len` bytes have been copied to the offset `lp` of the block
at slot `lbi`. -/
structure Copied (s t : Ctx) (bs : List Nat) (lbi lp len : Nat) (src : Nat → Byte) : Prop where
  plain : PlainInv t bs
  bytes : ∀ o, o / blockSize < bs.length → fileByte t.disk bs o =
    if blockSize * lbi + lp ≤ o ∧ o < blockSize * lbi + lp + len
    then src (o - (blockSize * lbi + lp)) else fileByte s.disk bs o

theorem copyFromUser_copied (h : PlainInv s bs) {bno lbi lp len : Nat} (lt : lbi < bs.length)
    (block : bno = bs[lbi]?.getD 0) (fits : lp + len ≤ blockSize) (src : Nat → Byte)
    (ok : (s.copyFromUser bno lp len src).2 = true) :
    Copied s (s.copyFromUser bno lp len src).1 bs lbi lp len src := by
  subst block
  have hmem : bs[lbi]?.getD 0 ∈ bs := by
    simp [List.getElem?_eq_getElem lt]
  unfold Ctx.copyFromUser at ok ⊢
  split at ok
  · refine ⟨h.bytesOnly ⟨?_, rfl, rfl⟩, ?_⟩
    · intro b hb
      exact set_of_ne _ _ (fun heq => hb (heq ▸ hmem))
    · intro o ho
      have hdiv := Nat.div_add_mod o blockSize
      have hmod := Nat.mod_lt o (show 0 < blockSize by decide)
      simp only [fileByte]
      by_cases hblock : o / blockSize = lbi
      · rw [hblock, set_self]
        rw [hblock] at hdiv
        by_cases hin : lp ≤ o % blockSize ∧ o % blockSize < lp + len
        · rw [blit_inside _ _ hin.1 hin.2, if_pos (by omega)]
          congr 1
          omega
        · rw [blit_outside _ _ (by omega), if_neg (by omega)]
      · rw [set_of_ne _ _ (h.other ho lt hblock), if_neg]
        intro hin
        apply hblock
        unfold blockSize at *
        omega
  · cases ok

/-- The loop of a call that writes all its data. -/
theorem writeLoop_complete (buff : List Byte) (n : Nat) :
    ∀ (s : Ctx) (lbi lp remaining : Nat), PlainInv s bs → (∀ i, i < n → lbi + i < bs.length) →
      lp < blockSize → remaining ≤ buff.length → (writeLoop buff n s lbi lp remaining).2 = 0 →
      PlainInv (writeLoop buff n s lbi lp remaining).1 bs ∧
        ∀ o, o / blockSize < bs.length →
          fileByte (writeLoop buff n s lbi lp remaining).1.disk bs o =
            if blockSize * lbi + lp ≤ o ∧ o < blockSize * lbi + lp + remaining
            then buff.getD (buff.length - remaining + (o - (blockSize * lbi + lp))) 0
            else fileByte s.disk bs o := by
  induction n with
  | zero =>
    intro s lbi lp remaining h _ _ _ hdone
    simp only [writeLoop] at hdone ⊢
    refine ⟨h, fun o _ => ?_⟩
    rw [if_neg (by omega)]
  | succ n ih =>
    intro s lbi lp remaining h hlen hlp hle
    rw [writeLoop]
    split
    · intro _
      refine ⟨h, fun o _ => ?_⟩
      rw [if_neg (by omega)]
    rename_i hrem
    simp only
    split
    · intro hdone
      exact absurd hdone hrem
    obtain ⟨len, hlendef⟩ : ∃ len, len = min (blockSize - lp) remaining := ⟨_, rfl⟩
    have hlt : lbi < bs.length := hlen 0 (by omega)
    have hslot : ((s.touch lbi).blocks lbi).toNat = bs[lbi]?.getD 0 := h.slot hlt
    rw [← hlendef, hslot]
    split
    · intro hdone
      exact absurd hdone hrem
    rename_i hok
    intro hdone
    have h' : PlainInv (s.touch lbi).popBread bs := h.congr rfl rfl rfl rfl
    have hc := copyFromUser_copied h' hlt rfl (show lp + len ≤ blockSize by omega)
      (fun k => buff.getD (buff.length - remaining + k) 0) (by simpa using hok)
    obtain ⟨hinv, hbytes⟩ := ih _ (lbi + 1) 0 (remaining - len) hc.plain (fun i hi => by
      have := hlen (i + 1) (by omega)
      omega) (by decide) (by omega) hdone
    refine ⟨hinv, fun o ho => ?_⟩
    -- the rest of the loop starts at the next block boundary, or has nothing to do
    have hnext : blockSize * (lbi + 1) = blockSize * lbi + blockSize := Nat.mul_succ _ _
    rw [hbytes o ho, hc.bytes o ho, hnext]
    split
    · rename_i hin
      have hoff : buff.length - (remaining - len) + (o - (blockSize * lbi + blockSize + 0)) =
          buff.length - remaining + (o - (blockSize * lbi + lp)) := by omega
      rw [if_pos (by omega), hoff]
    · split
      · rw [if_pos (by omega)]
      · rw [if_neg (by omega)]
        rfl

/-- The blocks a call asks for are those missing up to the end of the file it
will leave. -/
theorem nbAllocs_eq {n size pos : Nat} (iBlocks : s.node.iBlocks = n + 1) (le : n ≤ 1024)
    (fits : pos + size ≤ maxFilesize) (bounded : s.node.iSize ≤ maxFilesize) :
    nbAllocs s size pos = (max (pos + size) s.node.iSize + 4095) / 4096 - n := by
  have hi : i32 s.node.iBlocks = n + 1 := by
    rw [iBlocks, i32_eq_self (by omega) (by omega)]
    rfl
  have hmax : maxFilesize = 4194304 := rfl
  unfold nbAllocs
  rw [hi, u32_natCast (show size < 4294967296 by omega),
    u32_natCast (show max (pos + size) s.node.iSize < 4294967296 by omega)]
  unfold idivCeil blockSize
  split <;> omega

/-- What a complete call leaves, by the blocks `bs'`. -/
structure Overwritten (s : Ctx) (bs : List Nat) (c : Call) (t : Ctx) (bs' : List Nat) : Prop where
  plain : PlainInv t bs'
  size : t.node.iSize = max s.node.iSize (c.pos + c.data.length)
  length : bs'.length = (t.node.iSize + 4095) / 4096
  inside : ∀ o, c.pos ≤ o → o < c.pos + c.data.length →
    c.data[o - c.pos]? = some (fileByte t.disk bs' o)
  outside : ∀ o, o < blockSize * bs.length → ¬ (c.pos ≤ o ∧ o < c.pos + c.data.length) →
    fileByte t.disk bs' o = fileByte s.disk bs o

/-- A call that reads its index block takes the missing blocks and copies. -/
theorem writeBody_run (h : PlainInv s bs) (buff : List Byte) (pos : Nat) {nb : Nat}
    (space : ¬ spaceAvailable s nb < 0) (few : nb < 1000000000) (index : s.io.bread 0 = true) :
    ∃ fresh r, Extended s bs fresh nb r ∧ writeBody s buff pos nb =
      writeLoop buff (bs.length + nb - pos / blockSize) r.1 (pos / blockSize) (pos % blockSize)
        buff.length := by
  have h' : PlainInv s.popBread bs := h.congr rfl rfl rfl rfl
  obtain ⟨fresh, hr⟩ := h'.reserve space few
  obtain ⟨r, hrdef⟩ : ∃ r, r = reserveWriteBlocks s.popBread nb := ⟨_, rfl⟩
  rw [← hrdef] at hr
  refine ⟨fresh, r, ⟨hr.length, hr.succeeded, hr.plain, hr.allocated, ⟨hr.frame.disk,
    hr.frame.index⟩, hr.node⟩, ?_⟩
  have hcount : (i32 ((r.1.node.iBlocks : Int) - 1) - (pos / blockSize : Nat)).toNat =
      bs.length + nb - pos / blockSize := by
    rw [hr.plain.shape.nbBlocks, freshEntries_length, List.length_append, hr.length]
    omega
  unfold writeBody
  rw [if_neg (by rw [index]; simp), ← hrdef]
  simp only
  rw [if_neg (by rw [hr.succeeded]; simp), hcount]

/-- Taking blocks writes to the index block only. -/
theorem extended_fileByte {fresh : List Nat} {nb : Nat} {r : Ctx × Bool}
    (e : Extended s bs fresh nb r) {o : Nat} (lt : o / blockSize < (bs ++ fresh).length) :
    fileByte r.1.disk (bs ++ fresh) o = fileByte s.disk (bs ++ fresh) o := by
  have hmem : (bs ++ fresh)[o / blockSize]?.getD 0 ∈ bs ++ fresh := by
    rw [List.getElem?_eq_getElem lt]
    exact List.getElem_mem lt
  have hapart : (bs ++ fresh)[o / blockSize]?.getD 0 ≠ s.node.indexBlock := by
    intro heq
    apply e.plain.shape.apart
    rw [e.plain.numbers, e.frame.index, ← heq]
    exact hmem
  exact congrFun (e.frame.disk _ hapart) _

theorem writeBody_overwrites (h : PlainInv s bs) {c : Call} {nb : Nat}
    (space : ¬ spaceAvailable s nb < 0) (few : nb < 1000000000)
    (index : s.io.bread 0 = true) (full : (writeBody s c.data c.pos nb).2 = 0) :
    ∃ fresh, fresh.length = nb ∧ PlainInv (writeBody s c.data c.pos nb).1 (bs ++ fresh) ∧
      ∀ o, o < 4096 * (bs.length + nb) →
        fileByte (writeBody s c.data c.pos nb).1.disk (bs ++ fresh) o =
          if c.pos ≤ o ∧ o < c.pos + c.data.length then c.data.getD (o - c.pos) 0
          else fileByte s.disk (bs ++ fresh) o := by
  obtain ⟨fresh, r, hr, hbody⟩ := writeBody_run h c.data c.pos space few index
  have hlen := hr.length
  rw [hbody] at full ⊢
  have hdiv := Nat.div_add_mod c.pos blockSize
  have hmod := Nat.mod_lt c.pos (show 0 < blockSize by decide)
  obtain ⟨hplain, hbytes⟩ := writeLoop_complete c.data _ r.1 (c.pos / blockSize)
    (c.pos % blockSize) c.data.length hr.plain (by simp only [List.length_append]; omega) hmod
    (Nat.le_refl _) full
  refine ⟨fresh, hlen, hplain, fun o ho => ?_⟩
  have hblock : o / blockSize < (bs ++ fresh).length := by
    rw [List.length_append, hlen]
    exact Nat.div_lt_of_lt_mul ho
  rw [hbytes o hblock, hdiv, Nat.sub_self, Nat.zero_add, extended_fileByte hr hblock]

theorem writeLoop_le (buff : List Byte) (n : Nat) : ∀ (s : Ctx) (lbi lp remaining : Nat),
    (writeLoop buff n s lbi lp remaining).2 ≤ remaining := by
  induction n with
  | zero => exact fun _ _ _ _ => Nat.le_refl _
  | succ n ih =>
    intro s lbi lp remaining
    rw [writeLoop]
    split
    · exact Nat.le_refl _
    simp only
    split
    · exact Nat.le_refl _
    split
    · exact Nat.le_refl _
    · exact Nat.le_trans (ih _ _ _ _) (Nat.sub_le _ _)

theorem writeBody_le (s : Ctx) (buff : List Byte) (pos nb : Nat) :
    (writeBody s buff pos nb).2 ≤ buff.length := by
  unfold writeBody
  split
  · exact Nat.le_refl _
  simp only
  split
  · exact Nat.le_refl _
  · exact writeLoop_le _ _ _ _ _ _

theorem fileByte_append (disk : Store) (fresh : List Nat) {o : Nat}
    (lt : o < blockSize * bs.length) : fileByte disk (bs ++ fresh) o = fileByte disk bs o := by
  unfold fileByte
  rw [List.getElem?_append_left (Nat.div_lt_of_lt_mul lt)]

theorem ouichefsWrite_overwrites (h : PlainInv s bs) (length : bs.length = (s.node.iSize + 4095) / 4096)
    (fFlags pos : Nat) (data : List Byte) (index : ReachesIndex s s.io ⟨startPos s fFlags pos, data⟩)
    (full : (ouichefsWrite s fFlags data pos).ret = data.length) :
    ∃ bs', Overwritten s bs ⟨startPos s fFlags pos, data⟩ (ouichefsWrite s fFlags data pos).ctx
      bs' := by
  obtain ⟨p, hp⟩ : ∃ p, p = startPos s fFlags pos := ⟨_, rfl⟩
  rcases ouichefsWrite_cases s fFlags data pos with ⟨_, hret, _⟩ | ⟨hmax, hspace, f⟩
  · rw [hret] at full
    simp only [errNospc] at full
    omega
  rw [← hp] at hmax hspace f index ⊢
  obtain ⟨mt, ct, hnode⟩ := f.node
  have hl := h.shape.length_le
  have hib := h.shape.iBlocks
  have hfull := f.ret.symm.trans full
  rw [freshEntries_length] at hl hib
  have hnb := nbAllocs_eq hib hl hmax (by unfold maxFilesize; omega)
  obtain ⟨nb, hnbdef⟩ : ∃ nb, nb = nbAllocs s data.length p := ⟨_, rfl⟩
  rw [← hnbdef] at hnb hspace f hnode hfull
  have hsize : (ouichefsWrite s fFlags data pos).ctx.node.iSize =
      max s.node.iSize (p + data.length) := by
    rw [hnode]
    simp only [writeBody_iSize]
    omega
  by_cases hread : s.io.bread 0 = true
  · have hle := writeBody_le s data p nb
    obtain ⟨fresh, hfresh, hplain, hbytes⟩ := writeBody_overwrites h (c := ⟨p, data⟩) hspace
      (hnbdef ▸ h.nbAllocs_lt _ _) hread (by change (writeBody s data p nb).2 = 0; omega)
    refine ⟨bs ++ fresh, ?_, hsize, ?_, ?_, ?_⟩
    · exact hplain.congr f.disk f.sbi (by rw [hnode]) (by rw [hnode])
    · rw [List.length_append, hfresh, hsize]
      omega
    · intro o hlo hhi
      simp only at hlo hhi hbytes ⊢
      rw [f.disk, hbytes o (by omega), if_pos ⟨hlo, hhi⟩, List.getD_eq_getElem?_getD,
        List.getElem?_eq_getElem (by omega)]
      rfl
    · intro o ho hout
      rw [f.disk, hbytes o (by unfold blockSize at ho; omega), if_neg hout, fileByte_append _ _ ho]
  · -- nothing is read and nothing written, and no block is missing
    have hbody : writeBody s data p nb = (s.popBread, data.length) := by
      unfold writeBody
      rw [if_pos (by simpa using hread)]
    rw [hbody] at hfull f hnode
    have hnil : data = [] := List.eq_nil_of_length_eq_zero (by omega)
    have hpos := (index hnil).resolve_left hread
    simp only [hib, Nat.add_sub_cancel, blockSize] at hpos
    subst hnil
    refine ⟨bs, ?_, hsize, ?_, ?_, ?_⟩
    · exact h.congr f.disk f.sbi (by rw [hnode]; rfl) (by rw [hnode]; rfl)
    · rw [hsize]
      simp only [List.length_nil]
      omega
    · intro o hlo hhi
      simp only [List.length_nil] at hlo hhi
      omega
    · intro o _ _
      rw [f.disk]
      rfl

theorem readLoop_none (before : Nat → Byte) (nb last : Int) (n : Nat) (s : Ctx) (lbi lp : Int) :
    (readLoop before nb last n s lbi lp 0).2 = [] := by
  cases n <;> simp [readLoop]

/-- The copy loop serves the last block up to the end of the file, any other one whole. -/
theorem available_eq {n last lbi lp : Nat} (size : last ≤ blockSize) (block : lp ≤ blockSize)
    (tail : lbi + 1 = n → lp ≤ last) :
    (if (lbi : Int) = (n : Int) - 1 then u64 ((last : Int) - lp) else u64 ((blockSize : Int) - lp)) =
      if lbi + 1 = n then last - lp else blockSize - lp := by
  by_cases hlast : lbi + 1 = n
  · rw [if_pos hlast, if_pos (by omega), u64_sub (tail hlast) (Nat.lt_of_le_of_lt size (by decide))]
  · rw [if_neg hlast, if_neg (by omega), u64_sub block (by decide)]

/-- That is all of the block that belongs to the file. -/
theorem served_eq {n size last lbi lp : Nat} (length : n = (size + 4095) / 4096)
    (ends : size = 4096 * (n - 1) + last) (lt : lbi < n) (pos : 4096 * lbi + lp ≤ size) :
    (if lbi + 1 = n then last - lp else 4096 - lp) =
      min (4096 - lp) (size - (4096 * lbi + lp)) := by
  by_cases hlast : lbi + 1 = n
  · have hleft : size - (4096 * lbi + lp) = last - lp := by omega
    rw [if_pos hlast, hleft, Nat.min_eq_right (by omega)]
  · rw [if_neg hlast, Nat.min_eq_left (by omega)]

/-- The bytes of the file from `pos` on. -/
def fileBytes (disk : Store) (bs : List Nat) (pos len : Nat) : List Byte :=
  (List.range len).map fun i => fileByte disk bs (pos + i)

theorem fileBytes_append (disk : Store) (bs : List Nat) (pos m n : Nat) :
    fileBytes disk bs pos (m + n) = fileBytes disk bs pos m ++ fileBytes disk bs (pos + m) n := by
  simp [fileBytes, List.range_add, Function.comp_def, Nat.add_assoc]

theorem peek_eq (before : Nat → Byte) (disk : Store) {lbi lp len : Nat}
    (fits : lp + len ≤ blockSize) :
    peek before (disk (bs[lbi]?.getD 0)) lp len = fileBytes disk bs (blockSize * lbi + lp) len := by
  apply List.map_congr_left
  intro k hk
  have hk := List.mem_range.mp hk
  have hdiv : (blockSize * lbi + lp + k) / blockSize = lbi := by
    unfold blockSize at *
    omega
  have hmod : (blockSize * lbi + lp + k) % blockSize = lp + k := by
    unfold blockSize at *
    omega
  rw [if_pos (by omega), fileByte, hdiv, hmod]
  congr 1

/-- The loop delivers the bytes from its cursor to the end of the file. -/
theorem readLoop_delivers (before : Nat → Byte) {size last : Nat}
    (length : bs.length = (size + 4095) / 4096) (ends : size = 4096 * (bs.length - 1) + last)
    (n : Nat) : ∀ (s : Ctx) (lbi lp remaining : Nat), PlainInv s bs → s.io.NoReadFails →
      s.io.NoCopyFails → lbi + n = bs.length → lp < blockSize → blockSize * lbi + lp ≤ size →
      (readLoop before bs.length last n s lbi lp remaining).2 =
        fileBytes s.disk bs (blockSize * lbi + lp) (min remaining (size - (blockSize * lbi + lp))) := by
  induction n with
  | zero =>
    intro s lbi lp remaining _ _ _ hn _ hpos
    have hnone : min remaining (size - (blockSize * lbi + lp)) = 0 := by
      unfold blockSize at *
      omega
    rw [hnone]
    rfl
  | succ n ih =>
    intro s lbi lp remaining h reads copies hn hlp hpos
    obtain ⟨pos, hposdef⟩ : ∃ pos, pos = blockSize * lbi + lp := ⟨_, rfl⟩
    obtain ⟨avail, havail⟩ : ∃ avail, avail = min (blockSize - lp) (size - pos) := ⟨_, rfl⟩
    have hlt : lbi < bs.length := by omega
    have hslot : (if 0 ≤ (lbi : Int) then (((s.touch lbi).blocks (lbi : Int).toNat)).toNat
        else (le32 before (4 * (-(lbi : Int)).toNat)).toNat) = bs[lbi]?.getD 0 := by
      rw [if_pos (by omega), Int.toNat_natCast]
      exact h.slot hlt
    have hsize : (if (lbi : Int) = (bs.length : Int) - 1 then u64 ((last : Int) - lp)
        else u64 ((blockSize : Int) - lp)) = avail := by
      have hshort : last ≤ 4096 := by omega
      have htail : lbi + 1 = bs.length → lp ≤ last := by
        unfold blockSize at hpos
        omega
      rw [available_eq hshort (Nat.le_of_lt hlp) htail, havail, hposdef]
      exact served_eq length ends hlt hpos
    rw [readLoop, ← hposdef]
    simp only [hslot, hsize]
    split
    · rename_i hrem
      rw [hrem, Nat.zero_min]
      rfl
    rename_i hrem
    rw [if_neg (by rw [show (s.touch lbi).io.bread 0 = true from reads 0]; simp)]
    split
    · rename_i hnone
      have hnone : min remaining (size - pos) = 0 := by omega
      rw [hnone]
      rfl
    rw [if_neg (by rw [show (s.touch lbi).popBread.io.ucopy 0 = none from copies 0]; simp)]
    rw [peek_eq before _ (by omega), ← hposdef]
    have hdisk : (s.touch lbi).popBread.disk = s.disk := rfl
    rw [hdisk]
    rcases Nat.le_total remaining avail with hall | hmore
    · -- the block serves what is left
      rw [Nat.min_eq_right hall, Nat.sub_self, readLoop_none, List.append_nil,
        Nat.min_eq_left (show remaining ≤ size - pos by omega)]
    rw [Nat.min_eq_left hmore]
    by_cases hlast : n = 0
    · subst hlast
      have hend : size - pos ≤ blockSize - lp := by
        rw [hposdef]
        unfold blockSize at hlp ⊢
        omega
      rw [Nat.min_eq_right hend] at havail
      simp only [readLoop, List.append_nil]
      rw [← havail, Nat.min_eq_right hmore]
    · have hcast : ((lbi : Int) + 1) = ((lbi + 1 : Nat) : Int) := by omega
      have hblock : avail = blockSize - lp := by
        unfold blockSize at *
        omega
      have hnext : blockSize * (lbi + 1) + 0 = pos + avail := by
        unfold blockSize at *
        omega
      have hrest := ih ((s.touch lbi).popBread.popUcopy) (lbi + 1) 0 (remaining - avail)
        (h.congr rfl rfl rfl rfl) (fun k => reads (k + 1)) (fun k => copies (k + 1)) (by omega)
        (by decide) (by rw [hnext]; omega)
      rw [hcast]
      rw [hnext] at hrest
      rw [show (0 : Int) = ((0 : Nat) : Int) from rfl, hrest]
      have hle : avail ≤ size - pos := by
        rw [havail]
        exact Nat.min_le_right _ _
      change fileBytes s.disk bs pos avail ++ fileBytes s.disk bs (pos + avail) _ = _
      rw [← fileBytes_append, ← Nat.sub_sub, Nat.sub_min_sub_right,
        Nat.add_sub_cancel' (le_min hmore hle)]

/-- A call that comes to the copy loop, with its cursor in a block of the file or
behind the last one. -/
theorem ouichefsRead_loop (before : Nat → Byte) (h : PlainInv s bs) {fFlags pos q r last : Nat}
    (size : Nat) (readable : readFlags fFlags = true) (index : s.io.bread 0 = true)
    (hlast : last = if s.node.iSize % blockSize = 0 ∧ s.node.iSize ≠ 0 then blockSize
      else s.node.iSize % blockSize)
    (hq : q = pos / blockSize) (hr : r = pos % blockSize) (le : q ≤ bs.length) {d : Ctx × List Byte}
    (run : readLoop before bs.length last (bs.length - q) s.popBread q r size = d) :
    ouichefsRead before s fFlags size pos = ⟨d.1, d.2.length, pos + d.2.length, d.2⟩ := by
  have hl := h.shape.length_le
  rw [freshEntries_length] at hl
  have hlbi : i32 (q : Int) = q := i32_eq_self (by omega) (by omega)
  have hnb : i32 ((s.popBread.node.iBlocks : Int) - 1) = bs.length := by
    rw [← freshEntries_length bs]
    exact h.shape.nbBlocks
  have hcount : ((bs.length : Int) - q).toNat = bs.length - q := Int.toNat_sub _ _
  unfold ouichefsRead
  rw [if_neg (by rw [readable]; simp), if_neg (by rw [index]; simp)]
  simp only [← hq, ← hr, hnb, hlbi, hcount, show s.popBread.node.iSize = s.node.iSize from rfl,
    ← hlast, run]

theorem ouichefsRead_delivers (before : Nat → Byte) (h : PlainInv s bs)
    (length : bs.length = (s.node.iSize + 4095) / 4096) {fFlags pos : Nat} (size : Nat)
    (reads : s.io.NoReadFails) (copies : s.io.NoCopyFails) (readable : readFlags fFlags = true)
    (le : pos ≤ s.node.iSize) :
    (ouichefsRead before s fFlags size pos).data =
        fileBytes s.disk bs pos (min size (s.node.iSize - pos)) ∧
      (ouichefsRead before s fFlags size pos).ret = (min size (s.node.iSize - pos) : Nat) := by
  obtain ⟨last, hlast⟩ : ∃ last, last = if s.node.iSize % blockSize = 0 ∧ s.node.iSize ≠ 0 then
    blockSize else s.node.iSize % blockSize := ⟨_, rfl⟩
  have hends : s.node.iSize = 4096 * (bs.length - 1) + last := by
    unfold blockSize at hlast
    split at hlast <;> omega
  obtain ⟨q, hq⟩ : ∃ q, q = pos / blockSize := ⟨_, rfl⟩
  obtain ⟨r, hr⟩ : ∃ r, r = pos % blockSize := ⟨_, rfl⟩
  have hdiv : blockSize * q + r = pos := by
    rw [hq, hr]
    exact Nat.div_add_mod pos blockSize
  have hmod : r < blockSize := by
    rw [hr]
    exact Nat.mod_lt pos (by decide)
  have hle : q ≤ bs.length := by
    unfold blockSize at hdiv hmod
    omega
  have hloop := readLoop_delivers before length hends (bs.length - q) s.popBread q r size
    (h.congr rfl rfl rfl rfl) (fun k => reads (k + 1)) copies (Nat.add_sub_of_le hle) hmod
    (by rw [hdiv]; exact le)
  rw [hdiv] at hloop
  rw [ouichefsRead_loop before h size readable (reads 0) hlast hq hr hle rfl, hloop]
  exact ⟨rfl, by simp [fileBytes]⟩

/-- The invariant of a run: the bytes of the file are those of the latest calls. -/
structure Remembers (log : List Call) (s : Ctx) (bs : List Nat) : Prop where
  plain : PlainInv s bs
  size : s.node.iSize = extent log
  length : bs.length = (s.node.iSize + 4095) / 4096
  bytes : ∀ o b, latest log o = some b → fileByte s.disk bs o = b

theorem Overwritten.remembers {log : List Call} {c : Call} {bs' : List Nat}
    (w : Overwritten s bs c t bs') (h : Remembers log s bs) : Remembers (c :: log) t bs' := by
  refine ⟨w.plain, ?_, w.length, ?_⟩
  · rw [w.size, h.size]
    rfl
  · intro o b hb
    have hlt := latest_lt_extent hb
    simp only [latest, extent] at hb hlt
    split at hb
    · rename_i hin
      rw [w.inside o hin.1 hin.2] at hb
      exact Option.some.inj hb
    · rename_i hout
      have hsize := h.size
      have hlength := h.length
      have hold := latest_lt_extent hb
      rw [w.outside o (by unfold blockSize; omega) hout]
      exact h.bytes o b hb

theorem run_remembers {s₀ : Ctx} (new : NewFile s₀) (small : s₀.sbi.nrBlocks ≤ 524288)
    {log : List Call} (run : WriteRun ReachesIndex s₀ log s) : ∃ bs, Remembers log s bs := by
  induction run with
  | start => exact ⟨[], NewFile.plain new small, new.iSize, by rw [new.iSize]; rfl, by simp [latest]⟩
  | write log s io fFlags pos data _ index full ih =>
    obtain ⟨bs, h⟩ := ih
    have hio : PlainInv { s with io := io } bs := h.plain.congr rfl rfl rfl rfl
    obtain ⟨bs', w⟩ := ouichefsWrite_overwrites hio h.length fFlags pos data index full
    exact ⟨bs', Overwritten.remembers w ⟨hio, h.size, h.length, h.bytes⟩⟩

theorem Remembers.readsBack {log : List Call} (h : Remembers log s bs) : ReadsBack log s := by
  refine ⟨h.size, ?_, ?_⟩
  · rw [h.plain.shape.iBlocks, freshEntries_length, h.length]
  · intro before io fFlags size pos reads copies readable le
    have hio : PlainInv { s with io := io } bs := h.plain.congr rfl rfl rfl rfl
    obtain ⟨hdata, hret⟩ := ouichefsRead_delivers before hio h.length size reads copies
      readable le
    refine ⟨hret, by rw [hdata]; simp [fileBytes], ?_⟩
    intro o b hlo hhi hb
    rw [hdata, fileBytes, List.getElem?_map, List.getElem?_range
      (show o - pos < min size (s.node.iSize - pos) by omega)]
    simp only [Option.map_some, Nat.add_sub_cancel' hlo]
    rw [h.bytes o b hb]

end

/-- In every run of complete writes on a new file whose empty calls reach the
index block, every read returns what the latest writes have left. -/
theorem read_your_writes (s₀ s : Ctx) (log : List Call) (new : NewFile s₀)
    (small : s₀.sbi.nrBlocks ≤ 524288) (run : WriteRun ReachesIndex s₀ log s) :
    ReadsBack log s := by
  obtain ⟨bs, h⟩ := run_remembers new small run
  exact h.readsBack

/-- Two bytes, the second of them overwritten. -/
theorem read_your_writes_overlap :
    ∃ s, WriteRun ReachesIndex freshCtx [⟨1, [67]⟩, ⟨0, [66, 66]⟩] s ∧ s.node.iSize = 2 ∧
      (ouichefsRead (fun _ => 0) { s with io := calmIo } 0 2 0).data[1]? = some 67 := by
  obtain ⟨t, ht⟩ : ∃ t, t = (ouichefsWrite freshCtx 1 [66, 66] 0).ctx := ⟨_, rfl⟩
  obtain ⟨u, hu⟩ : ∃ u, u = (ouichefsWrite { t with io := calmIo } 1 [67] 1).ctx := ⟨_, rfl⟩
  have hfirst : WriteRun ReachesIndex freshCtx [⟨0, [66, 66]⟩] t := by
    rw [ht]
    exact WriteRun.write [] freshCtx calmIo 1 0 [66, 66] .start (by simp [ReachesIndex])
      (by decide +kernel)
  have hrun : WriteRun ReachesIndex freshCtx [⟨1, [67]⟩, ⟨0, [66, 66]⟩] u := by
    rw [hu]
    exact WriteRun.write _ t calmIo 1 1 [67] hfirst (by simp [ReachesIndex])
      (by rw [ht]; decide +kernel)
  have hback := read_your_writes freshCtx u _ freshCtx_new (by decide) hrun
  have hsize : u.node.iSize = 2 := hback.size
  obtain ⟨_, _, hread⟩ := hback.read (fun _ => 0) calmIo 0 2 0 (fun _ => rfl) (fun _ => rfl)
    (by decide) (by omega)
  exact ⟨u, hrun, hsize, hread 1 67 (by omega) (by omega) (by decide)⟩

/-- A call without data that cannot read the index block sets the size of a new
file to 5000 and gives it no block. -/
theorem reads_back_not_always : ¬ ∀ (s : Ctx) (log : List Call),
    WriteRun (fun _ _ _ => True) freshCtx log s → ReadsBack log s := by
  intro hall
  obtain ⟨io, hio⟩ : ∃ io : Io, io = { calmIo with bread := fun _ => false } := ⟨_, rfl⟩
  have hrun : WriteRun (fun _ _ _ => True) freshCtx [⟨5000, []⟩]
      (ouichefsWrite { freshCtx with io := io } 1 [] 5000).ctx :=
    WriteRun.write [] freshCtx io 1 5000 [] .start trivial (by rw [hio]; decide +kernel)
  have hblocks := (hall _ _ hrun).blocks
  rw [hio] at hblocks
  exact absurd hblocks (by decide +kernel)

end Overwrite
