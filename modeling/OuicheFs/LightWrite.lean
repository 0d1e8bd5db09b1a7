import OuicheFs.GapFill

/-!
# The whole call of a write with insertion

Whatever fails on the way, `ouichefs_light_write` leaves a file whose content is
the old one, with a gap appended if the position lies behind the end, and with
a prefix of the data inserted at the position. The size of the inode and the
number of blocks follow the list of entries.
-/
namespace LightWrite

open Bits CInt ByteBuffer IndexEntry Allocator FileContext Layout OuicheFile OuicheWrite Reserve
  Pour Search Insert GapFill

/-- The blocks a call takes when it gets as far as the copy loop. -/
def neededBlocks (s : Ctx) (size pos : Nat) : Nat :=
  if pos > s.node.iSize then
    let p := (blockSize - lastRoom s.entries + (pos - s.node.iSize)) % blockSize
    gapBlocks s.entries (pos - s.node.iSize) +
      (dataBlocks size p + if p = 0 then 1 else 0)
  else
    match findBlockPos pos s.blocks (i32 ((s.node.iBlocks : Int) - 1)) with
    | none => 0
    | some (k, p) => dataBlocks size p.toNat +
        if s.blocks k = 0 ∨ p.toNat < getBlockSize (s.blocks k) then 1 else 0

theorem neededBlocks_gap {s : Ctx} {es : List Word} {pos : Nat} (shape : Shape s es)
    (size : s.node.iSize = total es) (gap : total es < pos) (n : Nat) {p : Nat}
    (hp : p = (4096 - lastRoom es + (pos - total es)) % 4096) :
    neededBlocks s n pos = gapBlocks es (pos - total es) +
      (dataBlocks n p + if p = 0 then 1 else 0) := by
  unfold neededBlocks
  rw [if_pos (by omega)]
  simp only [shape.entries_eq, size, blockSize, ← hp]

theorem neededBlocks_at {s : Ctx} {pos k p : Nat} {e : Word} (inside : ¬ pos > s.node.iSize)
    (found : findBlockPos pos s.blocks (i32 ((s.node.iBlocks : Int) - 1)) = some (k, (p : Int)))
    (at_ : s.blocks k = e) (n : Nat) :
    neededBlocks s n pos = dataBlocks n p + if e = 0 ∨ p < getBlockSize e then 1 else 0 := by
  unfold neededBlocks
  rw [if_neg inside, found]
  simp only [at_, Int.toNat_natCast]

theorem neededBlocks_empty {s : Ctx} (shape : Shape s []) (n : Nat) :
    neededBlocks s n 0 = dataBlocks n 0 + 1 := by
  rw [neededBlocks_at (by omega) (findBlockPos_zero _ _) (shape.slots 0 (by decide)) n]
  rfl

/-- What holds when the body of the call is left: a gap `g` has been appended
and the first `m` bytes of the data have been inserted. -/
structure Body (s : Ctx) (es : List Word) (pos : Nat) (buff : List Byte) (fresh : List Nat)
    (es' : List Word) (g : List Byte) (m : Nat) (r : Ctx × Int × Nat) : Prop where
  left : r.2.2 = buff.length - m
  le : m ≤ buff.length
  code : r.2.1 ≤ 0
  shape : Shape r.1 es'
  allocated : Allocated s.sbi r.1.sbi fresh
  blocks : (numbers es').Perm (numbers es ++ fresh)
  frame : ∀ b, b ≠ s.node.indexBlock → b ∉ numbers es' → r.1.disk b = s.disk b
  node : ∃ n, r.1.node = { s.node with iBlocks := n, iSize := s.node.iSize + g.length }
  gap : g = [] ∨ g.length = pos - total es
  filled : 0 < m → g.length = pos - total es
  source : g = [] ∨ g = gapBytes s.disk es fresh (pos - total es)
  bytes : bytesOf r.1.disk es' = (bytesOf s.disk es ++ g).take pos ++ buff.take m ++
    (bytesOf s.disk es ++ g).drop pos
  positive : m = buff.length → buff ≠ [] → (∀ e ∈ es, 0 < getBlockSize e) →
    ∀ e ∈ es', 0 < getBlockSize e
  dense : m = buff.length → buff ≠ [] → total es ≤ pos → Dense es → Dense es'

section

variable {s : Ctx} {es : List Word} {pos : Nat} {buff : List Byte}

/-- The call is left before anything has been changed. -/
theorem Body.unchanged {t : Ctx} {ret : Int} (shape : Shape s es) (ok : BlocksOk s.sbi)
    (disk : t.disk = s.disk) (sbi : t.sbi = s.sbi) (node : t.node = s.node) (code : ret < 0) :
    Body s es pos buff [] es [] 0 (t, ret, buff.length) := by
  have hp : Prepared s t es [] es := Prepared.refl shape ok disk sbi node
  have hall : 0 = buff.length → buff ≠ [] → False := fun h hne =>
    hne (List.eq_nil_of_length_eq_zero h.symm)
  refine ⟨rfl, Nat.zero_le _, Int.le_of_lt code, hp.shape, hp.allocated, hp.blocks, hp.frame,
    ⟨s.node.iBlocks, node⟩, Or.inl rfl, fun h => absurd h (lt_irrefl 0), Or.inl rfl, ?_,
    fun h hne => (hall h hne).elim, fun h hne => (hall h hne).elim⟩
  rw [hp.bytes]
  simp

/-- An insertion at a position within the file. -/
theorem body_of_outcome {t : Ctx} {fresh : List Nat} {es' : List Word} {m : Nat}
    {r : Ctx × Int × Nat} (o : Outcome t es pos buff fresh es' m r) (le : pos ≤ total es)
    (disk : t.disk = s.disk) (sbi : t.sbi = s.sbi) (node : t.node = s.node) :
    Body s es pos buff fresh es' [] m r := by
  obtain ⟨n, hn⟩ := o.node
  refine ⟨o.left, o.le, o.code, o.shape, sbi ▸ o.allocated, o.blocks, ?_,
    ⟨n, by rw [hn, node]; simp⟩, Or.inl rfl, fun _ => by simp; omega, Or.inl rfl, ?_, o.positive,
    o.dense⟩
  · rw [← node, ← disk]
    exact o.frame
  · rw [o.bytes, disk, List.append_nil]

/-- An insertion at the end of the gap. -/
theorem body_of_filled {t u : Ctx} {fresh fresh' : List Nat} {es₁ es' : List Word} {m : Nat}
    {r : Ctx × Int × Nat} (f : Filled s t es pos fresh es₁)
    (size : s.node.iSize = total es) (gap : total es < pos)
    (o : Outcome u es₁ pos buff fresh' es' m r) (disk : u.disk = t.disk) (sbi : u.sbi = t.sbi)
    (node : u.node = t.node) : ∃ g, Body s es pos buff (fresh ++ fresh') es' g m r := by
  obtain ⟨g, hgdef⟩ : ∃ g, g = gapBytes s.disk es fresh (pos - total es) := ⟨_, rfl⟩
  have hg := f.bytes
  rw [← hgdef] at hg
  obtain ⟨n, hn⟩ := f.node
  obtain ⟨k, hk⟩ := o.node
  have hlen : g.length = pos - total es := by
    have := congrArg List.length hg
    simp only [bytesOf_length, f.size, List.length_append] at this
    omega
  have hindex : u.node.indexBlock = s.node.indexBlock := by rw [node, hn]
  have hsource : g = gapBytes s.disk es (fresh ++ fresh') (pos - total es) := by
    have hroom := hlen
    rw [hgdef, gapBytes, List.length_take] at hroom
    rw [hgdef, gapBytes, gapBytes, List.flatMap_append, ← List.append_assoc]
    exact (List.take_append_of_le_length (by omega)).symm
  refine ⟨g, o.left, o.le, o.code, o.shape, f.allocated.append (sbi ▸ o.allocated), ?_, ?_,
    ⟨k, ?_⟩, Or.inr hlen, fun _ => hlen, Or.inr hsource, ?_, ?_, ?_⟩
  · have := o.blocks
    rw [f.blocks] at this
    simpa using this
  · intro b hb hbn
    rw [o.frame b (hindex ▸ hb) hbn, disk, f.frame b hb]
  · have hsize : s.node.iSize + g.length = pos := by omega
    rw [hk, node, hn, hsize]
  · rw [o.bytes, disk, hg]
  · intro hm hne hpos
    exact o.positive hm hne (f.positive hpos)
  · intro hm hne _ hdense
    exact o.dense hm hne (Nat.le_of_eq f.size) (f.dense hdense)

theorem lightWriteBody_gap (shape : Shape s es) (held : Held s es)
    (size : s.node.iSize = total es) (gap : total es < pos)
    (small : pos + buff.length ≤ 4194304) (addr : Addressable s.sbi (neededBlocks s buff.length pos)) :
    ∃ fresh es' g m, Body s es pos buff fresh es' g m (lightWriteBody s buff pos) := by
  have hgap : pos > s.node.iSize := by omega
  obtain ⟨p, hp⟩ : ∃ p, p = (4096 - lastRoom es + (pos - total es)) % 4096 := ⟨_, rfl⟩
  rw [neededBlocks_gap shape size gap buff.length hp] at addr
  unfold lightWriteBody
  rw [if_pos hgap]
  rcases fillToReachPos_spec shape held size gap (by omega) (addr.mono (by omega)) with
    ⟨u, hrun, hdisk, hsbi, hnode⟩ | ⟨u, fresh, es₁, k, p', hrun, f, hcur, hp'⟩
  · rw [hrun]
    exact ⟨[], es, [], 0, Body.unchanged shape held.ok hdisk hsbi hnode
      (show -errNospc < 0 by decide)⟩
  rw [hrun]
  rw [← hp] at hp'
  subst hp'
  have addr' : Addressable u.sbi (dataBlocks buff.length p' + if p' = 0 then 1 else 0) :=
    addressable_allocated (by rw [f.length]; exact addr) f.allocated
  cases hcur with
  | behind hlast =>
    obtain ⟨fresh', es', m, o⟩ := @lightWriteInsert_behind _ buff _ f.shape f.held
      (by omega) (by simpa using addr') hlast
    rw [f.size] at o
    obtain ⟨g, hb⟩ := body_of_filled f size gap o rfl rfl rfl
    exact ⟨_, es', g, m, hb⟩
  | inside A e hes hpos hlt =>
    subst hes
    obtain ⟨fresh', es', m, o⟩ := @lightWriteInsert_inside _ _ _ _ _ buff f.shape f.held
      (le_refl _) (by omega) false false (by simp) (addr'.mono (by simp)) 0 (by simp) (by simp)
    have hsize : total A + getBlockSize e = pos := by
      have := f.size
      simpa using this
    rw [hsize] at o
    obtain ⟨g, hb⟩ := body_of_filled f size gap o rfl rfl rfl
    exact ⟨_, es', g, m, hb⟩

/-- A position found by the search, `p` bytes behind the start of the entry `e`:
the cursor is there. -/
theorem lightWriteBody_at_eq {A B : List Word} {e : Word} {p : Nat}
    (shape : Shape s (A ++ e :: B)) (size : s.node.iSize = total (A ++ e :: B))
    (le : pos ≤ total (A ++ e :: B))
    (found : findBlockPos pos s.blocks (i32 ((s.node.iBlocks : Int) - 1)) =
      some (A.length, (p : Int))) (hp : p ≤ getBlockSize e) :
    lightWriteBody s buff pos = lightWriteInsert
      { s with touched := (List.range (A.length + 1)).map Int.ofNat ++ s.touched } buff A.length p
      (decide (p < getBlockSize e)) (decide (A.length ≠ A.length + B.length))
      (A.length + B.length) := by
  have hin : ¬ pos > s.node.iSize := by omega
  have hs := getBlockSize_le e
  have hlen := shape.length_le
  simp only [List.length_append, List.length_cons] at hlen
  have hat : ({ s with touched := (List.range (A.length + 1)).map Int.ofNat ++ s.touched } :
      Ctx).blocks A.length = e := shape.blocks_at
  have hcopy : u64 ((getBlockSize e : Int) - p) = getBlockSize e - p :=
    u64_sub (by omega) (by omega)
  have hlast : (max (i32 s.node.iBlocks - 2) 0).toNat = A.length + B.length := by
    rw [shape.iBlocks, i32_eq_self (by simp; omega) (by simp; omega)]
    simp only [List.length_append, List.length_cons]
    omega
  have hmove : decide (getBlockSize e - p > 0) = decide (p < getBlockSize e) := by
    exact decide_eq_decide.mpr Nat.sub_pos_iff_lt
  unfold lightWriteBody
  rw [if_neg hin]
  simp only [found, Option.map_some, Option.getD_some, Int.toNat_natCast]
  rw [hat, hcopy, hmove, hlast]

/-- The insertion at a position found by the search. -/
theorem lightWriteBody_at {A B : List Word} {e : Word} {p : Nat}
    (shape : Shape s (A ++ e :: B)) (held : Held s (A ++ e :: B))
    (size : s.node.iSize = total (A ++ e :: B)) (le : pos ≤ total (A ++ e :: B))
    (found : findBlockPos pos s.blocks (i32 ((s.node.iBlocks : Int) - 1)) =
      some (A.length, (p : Int)))
    (offset : total A + p = pos) (hp : p ≤ getBlockSize e)
    (small : pos + buff.length ≤ 4194304)
    (addr : Addressable s.sbi (neededBlocks s buff.length pos)) :
    ∃ fresh es' m, Body s (A ++ e :: B) pos buff fresh es' [] m (lightWriteBody s buff pos) := by
  have hin : ¬ pos > s.node.iSize := by omega
  have hat : s.blocks A.length = e := shape.blocks_at
  obtain ⟨q, hq⟩ : ∃ q : Ctx, q = { s with
    touched := (List.range (A.length + 1)).map Int.ofNat ++ s.touched } := ⟨_, rfl⟩
  have hshape : Shape q (A ++ e :: B) := by
    rw [hq]
    exact shape.congr (fun _ _ => rfl) rfl rfl
  have hheld : Held q (A ++ e :: B) := by
    rw [hq]
    exact ⟨held.ok, held.data, held.index⟩
  have hshift : decide (A.length ≠ A.length + B.length) = true ↔ B ≠ [] := by
    rw [decide_eq_true_iff, ← List.length_pos_iff]
    omega
  have haddr : Addressable q.sbi
      (dataBlocks buff.length p + (decide (p < getBlockSize e)).toNat) := by
    rw [neededBlocks_at hin found hat buff.length] at addr
    rw [hq]
    apply addr.mono
    by_cases hlt : p < getBlockSize e <;> simp [hlt]
  obtain ⟨fresh, es', m, o⟩ := lightWriteInsert_inside hshape hheld hp
    (by omega) rfl haddr hshift (fun _ => rfl)
  rw [offset] at o
  rw [lightWriteBody_at_eq shape size le found hp, ← hq]
  exact ⟨fresh, es', m, body_of_outcome o le (by rw [hq]) (by rw [hq]) (by rw [hq])⟩

/-- In a file without a data block the cursor is in a new block. -/
theorem lightWriteBody_empty_eq (shape : Shape s []) (size : s.node.iSize = 0) :
    lightWriteBody s buff 0 =
      lightWriteInsert { s with touched := 0 :: s.touched } buff 0 0 false false 0 := by
  have hin : ¬ 0 > s.node.iSize := by omega
  have found := findBlockPos_zero s.blocks (i32 ((s.node.iBlocks : Int) - 1))
  have hat : ({ s with touched := 0 :: s.touched } : Ctx).blocks 0 = 0 :=
    shape.slots 0 (by decide)
  have hlast : (max (i32 s.node.iBlocks - 2) 0).toNat = 0 := by
    rw [shape.iBlocks, i32_eq_self (by simp) (by simp)]
    rfl
  have htouched : (List.range (0 + 1)).map Int.ofNat ++ s.touched = 0 :: s.touched := rfl
  unfold lightWriteBody
  rw [if_neg hin]
  simp only [found, Option.map_some, Option.getD_some, Int.toNat_zero]
  rw [htouched, hat, hlast]
  rfl

/-- The first write to a file without a data block. -/
theorem lightWriteBody_empty (shape : Shape s []) (held : Held s [])
    (size : s.node.iSize = 0) (small : buff.length ≤ 4194304)
    (addr : Addressable s.sbi (neededBlocks s buff.length 0)) :
    ∃ fresh es' m, Body s [] 0 buff fresh es' [] m (lightWriteBody s buff 0) := by
  rw [neededBlocks_empty shape buff.length] at addr
  obtain ⟨fresh, es', m, o⟩ := lightWriteInsert_behind
    (s := { s with touched := 0 :: s.touched }) (shape.congr (fun _ _ => rfl) rfl rfl)
    ⟨held.ok, held.data, held.index⟩ small addr (by simp)
  rw [lightWriteBody_empty_eq shape size]
  exact ⟨fresh, es', m, body_of_outcome o (le_refl _) rfl rfl rfl⟩

theorem lightWriteBody_spec (shape : Shape s es) (held : Held s es)
    (size : s.node.iSize = total es) (small : pos + buff.length ≤ 4194304)
    (addr : Addressable s.sbi (neededBlocks s buff.length pos)) :
    ∃ fresh es' g m, Body s es pos buff fresh es' g m (lightWriteBody s buff pos) := by
  rcases Nat.lt_or_ge (total es) pos with hgap | hle
  · exact lightWriteBody_gap shape held size hgap small addr
  rcases Nat.eq_zero_or_pos pos with rfl | hpos
  · cases es with
    | nil =>
      obtain ⟨fresh, es', m, hb⟩ := lightWriteBody_empty shape held size (by omega) addr
      exact ⟨fresh, es', [], m, hb⟩
    | cons e B =>
      obtain ⟨fresh, es', m, hb⟩ := lightWriteBody_at (A := []) (p := 0) shape held size hle
        (findBlockPos_zero _ _) rfl (Nat.zero_le _) small addr
      exact ⟨fresh, es', [], m, hb⟩
  · obtain ⟨A, e, B, p, hf, hrun⟩ := findBlockPos_found shape hpos hle
    obtain rfl := hf.split
    obtain ⟨fresh, es', m, hb⟩ := lightWriteBody_at shape held size hle hrun hf.offset hf.le
      small addr
    exact ⟨fresh, es', [], m, hb⟩

/-! ## The call -/

/-- The position a call works at. -/
def startPos (s : Ctx) (fFlags pos : Nat) : Nat :=
  if fFlags &&& oAppend ≠ 0 then s.node.iSize else pos

theorem writeFlags_eq (s : Ctx) (fFlags pos : Nat) :
    writeFlags s fFlags pos = some (startPos s fFlags pos) := by
  simp [writeFlags, startPos, oRdonly]

/-- What a call at position `pos` leaves behind. -/
structure Written (s : Ctx) (es : List Word) (pos : Nat) (buff : List Byte) (fresh : List Nat)
    (es' : List Word) (g : List Byte) (m : Nat) (r : WriteResult) : Prop where
  le : m ≤ buff.length
  shape : Shape r.ctx es'
  held : Held r.ctx es'
  size : r.ctx.node.iSize = total es'
  allocated : Allocated s.sbi r.ctx.sbi fresh
  blocks : (numbers es').Perm (numbers es ++ fresh)
  frame : ∀ b, b ≠ s.node.indexBlock → b ∉ numbers es' → r.ctx.disk b = s.disk b
  node : ∃ n k mt ct, r.ctx.node =
    { s.node with iBlocks := n, iSize := k, iMtime := mt, iCtime := ct }
  gap : g = [] ∨ g.length = pos - total es
  filled : 0 < m → g.length = pos - total es
  source : g = [] ∨ g = gapBytes s.disk es fresh (pos - total es)
  bytes : bytesOf r.ctx.disk es' = (bytesOf s.disk es ++ g).take pos ++ buff.take m ++
    (bytesOf s.disk es ++ g).drop pos
  positive : m = buff.length → buff ≠ [] → (∀ e ∈ es, 0 < getBlockSize e) →
    ∀ e ∈ es', 0 < getBlockSize e
  dense : m = buff.length → buff ≠ [] → total es ≤ pos → Dense es → Dense es'
  pos : r.pos = pos + m
  ret : 0 ≤ r.ret → r.ret = m

theorem held_of_allocated {t : Ctx} {es' : List Word} {fresh : List Nat} (held : Held s es)
    (a : Allocated s.sbi t.sbi fresh) (blocks : (numbers es').Perm (numbers es ++ fresh))
    (index : t.node.indexBlock = s.node.indexBlock) : Held t es' := by
  refine ⟨a.ok, ?_, index ▸ (a.used held.index).1⟩
  intro b hb
  rcases List.mem_append.mp (blocks.mem_iff.mp hb) with hold | hnew
  · exact (a.used (held.data b hold)).1
  · exact a.fresh_used hnew

/-- The end of the call turns what is left to write into the result. -/
theorem Body.finish {fresh : List Nat} {es' : List Word} {g : List Byte} {m : Nat}
    {r : Ctx × Int × Nat} (b : Body s es pos buff fresh es' g m r) (held : Held s es)
    (size : s.node.iSize = total es) :
    Written s es pos buff fresh es' g m
      (let t := if buff.length - r.2.2 > 0 then
        { r.1 with node := { r.1.node with
            iSize := r.1.node.iSize + (buff.length - r.2.2), iMtime := r.1.io.now,
            iCtime := r.1.io.now } } else r.1
       ⟨t, if r.2.1 = 0 then ((buff.length - r.2.2 : Nat) : Int) else r.2.1,
        pos + (buff.length - r.2.2)⟩) := by
  obtain ⟨n, hn⟩ := b.node
  have hle := b.le
  have hm : buff.length - r.2.2 = m := by
    rw [b.left]
    omega
  have htotal : total es' = s.node.iSize + g.length + m := by
    have := congrArg List.length b.bytes
    simp only [bytesOf_length, List.length_append, List.length_take, List.length_drop] at this
    omega
  have hcode := b.code
  have hret : 0 ≤ (if r.2.1 = 0 then (m : Int) else r.2.1) →
      (if r.2.1 = 0 then (m : Int) else r.2.1) = m := by
    split
    · exact fun _ => rfl
    · omega
  rw [hm]
  by_cases hpos : m > 0
  · rw [if_pos hpos]
    refine ⟨hle, b.shape.congr (fun _ _ => rfl) rfl rfl, ?_, ?_, b.allocated, b.blocks, b.frame,
      ⟨n, s.node.iSize + g.length + m, r.1.io.now, r.1.io.now, by rw [hn]⟩, b.gap, b.filled,
      b.source, b.bytes, b.positive, b.dense, rfl, hret⟩
    · exact held_of_allocated held b.allocated b.blocks (by rw [hn])
    · rw [htotal, hn]
  · rw [if_neg hpos]
    have hz : m = 0 := by omega
    refine ⟨hle, b.shape, ?_, ?_, b.allocated, b.blocks, b.frame,
      ⟨n, s.node.iSize + g.length, s.node.iMtime, s.node.iCtime, by rw [hn]⟩, b.gap, b.filled,
      b.source, b.bytes, b.positive, b.dense, rfl, hret⟩
    · exact held_of_allocated held b.allocated b.blocks (by rw [hn])
    · rw [htotal, hn, hz]
      rfl

/-- The call keeps every file well-formed and inserts a prefix of the data,
whichever disk reads and user copies fail. -/
theorem ouichefsLightWrite_spec (shape : Shape s es) (held : Held s es)
    (size : s.node.iSize = total es) (fFlags : Nat)
    (addr : Addressable s.sbi (neededBlocks s buff.length (startPos s fFlags pos))) :
    ∃ fresh es' g m, Written s es (startPos s fFlags pos) buff fresh es' g m
      (ouichefsLightWrite s fFlags buff pos) := by
  unfold ouichefsLightWrite
  rw [writeFlags_eq]
  obtain ⟨p, hp⟩ : ∃ p, p = startPos s fFlags pos := ⟨_, rfl⟩
  rw [← hp] at addr ⊢
  simp only
  by_cases hmax : p + buff.length > maxFilesize
  · rw [if_pos hmax]
    have hb : Body s es p buff [] es [] 0 (s, -errNospc, buff.length) :=
      Body.unchanged shape held.ok rfl rfl rfl (by decide)
    have hw := hb.finish held size
    simp only [Nat.sub_self, lt_irrefl, if_false, Nat.add_zero] at hw
    exact ⟨[], es, [], 0, hw⟩
  rw [if_neg hmax]
  have hsmall : p + buff.length ≤ 4194304 := Nat.not_lt.mp hmax
  by_cases hread : s.io.bread 0 = false
  · rw [if_pos hread]
    have hb : Body s es p buff [] es [] 0 (s.popBread, -errIo, buff.length) :=
      Body.unchanged shape held.ok rfl rfl rfl (by decide)
    exact ⟨[], es, [], 0, hb.finish held size⟩
  · rw [if_neg hread]
    obtain ⟨fresh, es', g, m, hb⟩ := lightWriteBody_spec (s := s.popBread)
      (shape.congr (fun _ _ => rfl) rfl rfl) ⟨held.ok, held.data, held.index⟩ size hsmall addr
    have hb' : Body s es p buff fresh es' g m (lightWriteBody s.popBread buff p) :=
      ⟨hb.left, hb.le, hb.code, hb.shape, hb.allocated, hb.blocks, hb.frame, hb.node, hb.gap,
        hb.filled, hb.source, hb.bytes, hb.positive, hb.dense⟩
    exact ⟨fresh, es', g, m, hb'.finish held size⟩

end

/-- The first write to a file without a data block, down to its copy loop. -/
theorem ouichefsLightWrite_first {s t : Ctx} {data : List Byte} {nb : Nat} (shape : Shape s [])
    (size : s.node.iSize = 0) (read : ¬ s.io.bread 0 = false) (small : data.length ≤ maxFilesize)
    (count : dataBlocks data.length 0 + 1 = nb) (space : ¬ spaceAvailable s nb < 0)
    (reserved : (reserveEmptyBlocks 0 nb { s.popBread with touched := 0 :: 0 :: s.touched }).1 = t)
    (fFlags : Nat) :
    ouichefsLightWrite s fFlags data 0 =
      let r := lightWriteLoop data (i32 ((t.node.iBlocks : Int) - 1) - ((0 : Nat) : Int)).toNat t 0 0
        data.length
      let written := data.length - r.2.2
      let u := if written > 0 then
        { r.1 with node := { r.1.node with
            iSize := r.1.node.iSize + written, iMtime := r.1.io.now, iCtime := r.1.io.now } }
        else r.1
      ⟨u, if r.2.1 = 0 then written else r.2.1, 0 + written⟩ := by
  obtain ⟨q, hq⟩ : ∃ q : Ctx, q = { s.popBread with touched := 0 :: 0 :: s.touched } := ⟨_, rfl⟩
  have hz : q.blocks 0 = 0 := by
    rw [hq]
    exact shape.slots 0 (by decide)
  have hstart : startPos s fFlags 0 = 0 := by
    simp [startPos, size]
  have hspace : ¬ spaceAvailable q nb < 0 := by
    rw [hq]
    exact space
  have hinsert : lightWriteInsert { s.popBread with touched := 0 :: s.touched } data 0 0 false
      false 0 = lightWriteLoop data
        (i32 ((t.node.iBlocks : Int) - 1) - ((0 : Nat) : Int)).toNat t 0 0 data.length := by
    have htouch : ({ s.popBread with touched := 0 :: s.touched } : Ctx).touch ((0 : Nat) : Int) =
        q := by
      rw [hq]
      rfl
    unfold lightWriteInsert
    simp only [htouch, hz, if_true, Bool.toNat_false, Nat.add_zero, Bool.false_eq_true, false_and,
      if_false, lt_irrefl]
    rw [← dataBlocks, count, if_neg hspace, hq, reserved]
  have hbody := @lightWriteBody_empty_eq s.popBread data (shape.congr (fun _ _ => rfl) rfl rfl) size
  have htouched : s.popBread.touched = s.touched := rfl
  rw [htouched, hinsert] at hbody
  unfold ouichefsLightWrite
  rw [writeFlags_eq]
  simp only [hstart, Nat.zero_add, if_neg (Nat.not_lt.mpr small), if_neg read, hbody]

/-! ## Insertion -/

/-- The result of a call that writes `data` at `pos` as an insertion. -/
structure IsInsertion (s : Ctx) (pos : Nat) (data : List Byte) (r : WriteResult) : Prop where
  inside : pos ≤ s.node.iSize →
    r.ctx.content = s.content.take pos ++ data ++ s.content.drop pos
  behind : s.node.iSize < pos →
    ∃ g, g.length = pos - s.node.iSize ∧ r.ctx.content = s.content ++ g ++ data
  size : r.ctx.node.iSize = max s.node.iSize pos + data.length
  pos : r.pos = pos + data.length

/-- A call that returns the length of its data is an insertion, provided that
the blocks it takes have numbers an entry can record. -/
theorem ouichefsLightWrite_inserts (s : Ctx) (fFlags pos : Nat) (data : List Byte)
    (wf : WellFormed s) (live : Live s) (nonempty : data ≠ [])
    (addr : Addressable s.sbi (neededBlocks s data.length (startPos s fFlags pos)))
    (full : (ouichefsLightWrite s fFlags data pos).ret = data.length) :
    IsInsertion s (startPos s fFlags pos) data (ouichefsLightWrite s fFlags data pos) := by
  have hsize := wf.size
  obtain ⟨fresh, es', g, m, w⟩ := ouichefsLightWrite_spec (wf.shape live.apart) live.held hsize
    fFlags addr
  obtain ⟨p, hp⟩ : ∃ p, p = startPos s fFlags pos := ⟨_, rfl⟩
  rw [← hp] at w ⊢
  have hlen : 0 < data.length := List.length_pos_iff.mpr nonempty
  have hm : m = data.length := by
    have := w.ret (by omega)
    omega
  have hg := w.filled (by omega)
  have hold : s.content.length = s.node.iSize := by
    rw [Ctx.content, bytesOf_length, hsize]
  have hnew : (ouichefsLightWrite s fFlags data pos).ctx.content =
      (s.content ++ g).take p ++ data ++ (s.content ++ g).drop p := by
    rw [w.shape.content_eq, w.bytes, hm, List.take_length]
    rfl
  refine ⟨?_, ?_, ?_, by rw [w.pos, hm]⟩
  · intro hle
    have hnil : g = [] := List.eq_nil_of_length_eq_zero (by omega)
    rw [hnew, hnil, List.append_nil]
  · intro hlt
    refine ⟨g, by omega, ?_⟩
    have hall : (s.content ++ g).length ≤ p := by
      rw [List.length_append]
      omega
    rw [hnew, List.take_of_length_le hall, List.drop_of_length_le hall, List.append_nil]
  · have := congrArg List.length hnew
    rw [w.shape.content_eq, bytesOf_length, ← w.size] at this
    simp only [List.length_append, List.length_take, List.length_drop] at this
    omega

/-- A file of three bytes on a volume of a hundred blocks. -/
def smallCtx : Ctx where
  sbi := ⟨100, 102, 2, 1, 1, 100, 90, fun _ => false, fun b => decide (10 ≤ b ∧ b < 100)⟩
  disk := fun b => if b = 6 then
      ofWords32 (fun i => [setBlockSize (freshEntry 7) 3][i]?.getD 0)
    else fun k => BitVec.ofNat 8 (65 + k)
  node := ⟨33188, 0, 0, 3, ⟨0, 0⟩, ⟨0, 0⟩, ⟨0, 0⟩, 2, 1, 6⟩
  io := calmIo
  touched := []

theorem smallCtx_shape : Shape smallCtx [setBlockSize (freshEntry 7) 3] :=
  shape_of_words (by decide) rfl rfl (by decide) (by decide)

theorem smallCtx_held : Held smallCtx [setBlockSize (freshEntry 7) 3] := by
  have hused : ∀ b, b = 6 ∨ b = 7 → Used smallCtx.sbi b := by
    rintro b (rfl | rfl) <;> exact ⟨by decide, by decide, by decide⟩
  refine ⟨⟨by decide, by decide +kernel, by decide⟩, ?_, hused 6 (Or.inl rfl)⟩
  intro b hb
  have h7 : b = 7 := by
    have hn : numbers [setBlockSize (freshEntry 7) 3] = [7] := by decide
    rw [hn] at hb
    exact List.mem_singleton.mp hb
  exact hused b (Or.inr h7)

theorem ouichefsLightWrite_inserts_small :
    (ouichefsLightWrite smallCtx 1 [88] 1).ret = 1 ∧
      IsInsertion smallCtx 1 [88] (ouichefsLightWrite smallCtx 1 [88] 1) := by
  have hret : (ouichefsLightWrite smallCtx 1 [88] 1).ret = 1 := by decide +kernel
  exact ⟨hret, ouichefsLightWrite_inserts smallCtx 1 1 [88]
    (smallCtx_shape.wellFormed smallCtx_held.nonzero rfl) (smallCtx_shape.live smallCtx_held)
    (by decide) (addressable_of_small (by decide) _) hret⟩

/-- An empty file on a volume of 2^20 blocks. The only free block has the
number of the index block plus 2^19. -/
def crowdedCtx : Ctx where
  sbi := ⟨1048576, 1048611, 20561, 33, 32, 1048610, 1, fun _ => false,
    setBit (fun _ => false) 554288⟩
  disk := fun b => if b = 30000 then ofWords32 (fun _ => 0) else fun _ => 65
  node := ⟨33188, 0, 0, 0, ⟨0, 0⟩, ⟨0, 0⟩, ⟨0, 0⟩, 1, 1, 30000⟩
  io := calmIo
  touched := []

theorem crowdedCtx_shape : Shape crowdedCtx [] :=
  shape_of_words (by decide) rfl rfl (by decide) (by decide)

theorem crowdedCtx_held : Held crowdedCtx [] := by
  have hfree : ∀ b, b ≠ 554288 → crowdedCtx.sbi.bfreeBitmap b = false := fun b hb =>
    setBit_of_ne (fun _ => false) hb
  refine ⟨⟨hfree 0 (by decide), ?_, by decide⟩, by simp, ⟨by decide, by decide, ?_⟩⟩
  · have hp := popcount_setBit (m := fun _ => false) (show 554288 < 1048576 by decide) rfl
    change 1 = popcount (setBit (fun _ => false) 554288) 1048576
    rw [hp]
    simp [popcount]
  · exact hfree 30000 (by decide)

/-- The block the call asks for is recorded under the number of the index
block, so the data overwrites the entry that is to name it. -/
theorem crowdedCtx_run :
    (ouichefsLightWrite crowdedCtx 1 [66] 0).ret = 1 ∧
      (ouichefsLightWrite crowdedCtx 1 [66] 0).ctx.content = [65] := by
  have hget := @getFreeBlock_eq crowdedCtx.sbi 554288 (by decide) (by decide)
    (by decide) (fun j hj => setBit_of_ne (fun _ => false) (Nat.ne_of_lt hj))
  have hres := @reserveEmptyBlocks_next { crowdedCtx.popBread with touched := [0, 0] } 0 _ _ 0 hget
    (by decide) (by decide +kernel)
  have hcall := @ouichefsLightWrite_first _ _ [66] _ crowdedCtx_shape rfl (by decide)
    (by decide) (show _ = 1 by decide +kernel) (by decide +kernel) (congrArg Prod.fst hres) 1
  rw [hcall]
  exact ⟨by decide +kernel, by decide +kernel⟩

theorem ouichefsLightWrite_misrecorded :
    WellFormed crowdedCtx ∧ Live crowdedCtx ∧
      (ouichefsLightWrite crowdedCtx 1 [66] 0).ret = ([66] : List Byte).length ∧
      ¬ IsInsertion crowdedCtx 0 [66] (ouichefsLightWrite crowdedCtx 1 [66] 0) := by
  obtain ⟨hret, hcontent⟩ := crowdedCtx_run
  refine ⟨crowdedCtx_shape.wellFormed (by simp) rfl, crowdedCtx_shape.live crowdedCtx_held,
    hret, ?_⟩
  intro h
  have hnew := h.inside (Nat.zero_le _)
  rw [hcontent, crowdedCtx_shape.content_eq] at hnew
  exact absurd hnew (by decide)

end LightWrite
