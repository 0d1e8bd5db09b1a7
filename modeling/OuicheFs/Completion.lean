import OuicheFs.LightWrite

/-!
# When an insertion goes through

With room on the volume and in the index, `ouichefs_light_write` returns the
length of its data unless the position is the end of a full block: the search
leaves the cursor behind the last byte of that block, and the copy loop takes a
block without room for an error. How far a call gets depends on the sizes and
counts alone, not on the block numbers that the entries record.
-/
namespace Completion

open CInt ByteBuffer IndexEntry Allocator FileContext Layout OuicheFile OuicheWrite Reserve
  Pour Search Insert GapFill LightWrite

/-- The position is the end of a block of 4096 bytes. -/
def EndsFullBlock (es : List Word) (pos : Nat) : Prop :=
  ∃ A e B, es = A ++ e :: B ∧ getBlockSize e = blockSize ∧ pos = total A + blockSize

/-- The blocks that are more than enough for a write. -/
def ample (s : Ctx) (size pos : Nat) : Nat :=
  (pos - s.node.iSize + 4095) / 4096 + (size + 4095) / 4096 + 1

/-- The blocks a call behind the end asks for in its second space check. The slot
it looks at is the first one behind the filled gap, which may be the one behind
the last slot of the index. -/
def secondBlocks (s : Ctx) (size pos : Nat) : Nat :=
  let gap := pos - s.node.iSize
  let p := (blockSize - lastRoom s.entries + gap) % blockSize
  dataBlocks size p +
    if p = 0 ∧ s.blocks (s.entries.length + gapBlocks s.entries gap) = 0 then 1 else 0

theorem lightWriteLoop_completes (buff : List Byte) (n : Nat) :
    ∀ (s : Ctx) (lbi lp remaining : Nat), s.io.NoReadFails → s.io.NoCopyFails → lp < blockSize →
      remaining = 0 ∨ lp + remaining ≤ blockSize * n →
      (lightWriteLoop buff n s lbi lp remaining).2 = (0, 0) := by
  induction n with
  | zero =>
    intro s lbi lp remaining _ _ _ hroom
    have hz : remaining = 0 := by omega
    rw [hz]
    rfl
  | succ n ih =>
    intro s lbi lp remaining reads copies hlp hroom
    rw [lightWriteLoop]
    split
    · rename_i hz
      rw [hz]
    rename_i hrem
    have hread : ¬ (s.touch lbi).io.bread 0 = false := by
      rw [show (s.touch lbi).io.bread 0 = true from reads 0]
      simp
    have havail : u64 ((blockSize : Int) - lp) = blockSize - lp :=
      u64_sub (Nat.le_of_lt hlp) (by decide)
    have hcopy : ∀ (dst off len : Nat) (src : Nat → Byte),
        ((s.touch lbi).popBread.copyFromUser dst off len src).2 = true ∧
          ((s.touch lbi).popBread.copyFromUser dst off len src).1.io =
            (s.touch lbi).popBread.popUcopy.io := by
      intro dst off len src
      unfold Ctx.copyFromUser
      rw [show (s.touch lbi).popBread.io.ucopy 0 = none from copies 0]
      exact ⟨rfl, rfl⟩
    simp only [if_neg hread, havail]
    rw [if_neg (by omega), if_neg (by rw [(hcopy _ _ _ _).1]; simp)]
    apply ih
    · intro k
      change ((s.touch lbi).popBread.copyFromUser _ _ _ _).1.io.bread k = true
      rw [(hcopy _ _ _ _).2]
      exact reads (k + 1)
    · intro k
      change ((s.touch lbi).popBread.copyFromUser _ _ _ _).1.io.ucopy k = none
      rw [(hcopy _ _ _ _).2]
      exact copies (k + 1)
    · decide
    · rw [Nat.mul_succ] at hroom
      omega

/-- Behind the last byte of a full block the loop gives up. -/
theorem lightWriteLoop_stuck (buff : List Byte) {n remaining : Nat} (s : Ctx) (lbi : Nat)
    (blocks : 0 < n) (bytes : 0 < remaining) (reads : s.io.NoReadFails) :
    (lightWriteLoop buff n s lbi blockSize remaining).2 = (-errNodata, remaining) := by
  obtain ⟨n, rfl⟩ : ∃ k, n = k + 1 := ⟨n - 1, by omega⟩
  rw [lightWriteLoop, if_neg (by omega)]
  have hread : ¬ (s.touch lbi).io.bread 0 = false := by
    rw [show (s.touch lbi).io.bread 0 = true from reads 0]
    simp
  simp only [if_neg hread]
  rw [if_pos (by decide)]

theorem lightWriteLoop_nothing (buff : List Byte) (n : Nat) (s : Ctx) (lbi lp : Nat) :
    lightWriteLoop buff n s lbi lp 0 = (s, 0, 0) := by
  cases n <;> rfl

theorem lightWriteLoop_node (buff : List Byte) (n : Nat) : ∀ (s : Ctx) (lbi lp remaining : Nat),
    (lightWriteLoop buff n s lbi lp remaining).1.node = s.node := by
  induction n with
  | zero => exact fun _ _ _ _ => rfl
  | succ n ih =>
    intro s lbi lp remaining
    rw [lightWriteLoop]
    split
    · rfl
    simp only
    split
    · rfl
    split
    · rfl
    split
    · rw [node_copyFromUser]
      rfl
    · rw [ih]
      change (Ctx.copyFromUser _ _ _ _ _).1.node = s.node
      rw [node_copyFromUser]
      rfl

theorem moveOldContentTo_goes (s : Ctx) (from_ to_ lp : Nat) (reads : s.io.NoReadFails) :
    (moveOldContentTo s from_ to_ lp).2 = 0 ∧
      (moveOldContentTo s from_ to_ lp).1.node = s.node ∧
      (moveOldContentTo s from_ to_ lp).1.io = s.popBread.popBread.io := by
  have hfrom : ((s.touch from_).touch to_).io.bread 0 = true := reads 0
  have hto : ((s.touch from_).touch to_).popBread.io.bread 0 = true := reads 1
  unfold moveOldContentTo
  simp only [hfrom, hto]
  rw [if_neg (by simp)]
  exact ⟨rfl, rfl, rfl⟩

/-- The state in which the copy loop begins: `nb` blocks more, and nothing of
what may fail is used up. -/
theorem lightWriteInsert_reaches {s t : Ctx} {buff : List Byte} {lbi lp nb start lastBli : Nat}
    {move shift : Bool} (ok : BlocksOk s.sbi) (reads : s.io.NoReadFails)
    (copies : s.io.NoCopyFails)
    (hnb : nb = if s.blocks lbi = 0 then dataBlocks buff.length lp + move.toNat + 1
      else dataBlocks buff.length lp + move.toNat)
    (hstart : start = if s.blocks lbi = 0 then lbi else lbi + 1)
    (space : ¬ spaceAvailable (s.touch lbi) nb < 0) (enough : nb ≤ s.sbi.nrFreeBlocks)
    (small : s.node.iBlocks + nb < 18446744073709551616)
    (shifted : t = if shift = true ∧ nb > 0 then shiftBlocks (s.touch lbi) start nb lastBli
      else s.touch lbi)
    (hole : ∀ i, start ≤ i → i < start + nb → t.blocks i = 0) :
    ∃ u : Ctx, u.io.NoReadFails ∧ u.io.NoCopyFails ∧ u.node.iBlocks = s.node.iBlocks + nb ∧
      lightWriteInsert s buff lbi lp move shift lastBli =
        lightWriteLoop buff (i32 (((s.node.iBlocks + nb : Nat) : Int) - 1) - lbi).toNat u lbi lp
          buff.length := by
  have hkeep : t.io = s.io ∧ t.sbi = s.sbi ∧ t.node = s.node := by
    rw [shifted]
    split
    · have hf := shiftBlocksLoop_frame start nb (lastBli + 1 - start) (s.touch lbi)
      exact ⟨shiftBlocksLoop_io start nb _ _, hf.2.1, hf.2.2⟩
    · exact ⟨rfl, rfl, rfl⟩
  obtain ⟨hio, hsbi, hnode⟩ := hkeep
  obtain ⟨fresh, hr⟩ := reserveEmptyBlocks_spec nb start t (hsbi ▸ ok) (hsbi ▸ enough)
    (by rw [hnode]; exact small) hole
  have hrio := reserveEmptyBlocks_io nb start t
  obtain ⟨v, hv⟩ : ∃ v, v = (reserveEmptyBlocks start nb t).1 := ⟨_, rfl⟩
  have hvnode : v.node.iBlocks = s.node.iBlocks + nb := by
    rw [hv, hr.node, hnode]
  rw [← hv, hio] at hrio
  obtain ⟨r, hrdef⟩ : ∃ r : Ctx × Int, r = if move then moveOldContentTo v lbi (lbi + nb) lp
    else (v, 0) := ⟨_, rfl⟩
  have hrest : r.2 = 0 ∧ r.1.node = v.node ∧ r.1.io.NoReadFails ∧ r.1.io.NoCopyFails := by
    rw [hrdef]
    split
    · obtain ⟨hret, hn, hmio⟩ := moveOldContentTo_goes v lbi (lbi + nb) lp (by rw [hrio]; exact reads)
      refine ⟨hret, hn, ?_, ?_⟩
      · rw [hmio]
        intro k
        change v.io.bread (k + 1 + 1) = true
        rw [hrio]
        exact reads _
      · rw [hmio]
        intro k
        change v.io.ucopy k = none
        rw [hrio]
        exact copies k
    · rw [hrio]
      exact ⟨rfl, rfl, reads, copies⟩
  refine ⟨r.1, hrest.2.2.1, hrest.2.2.2, by rw [hrest.2.1, hvnode], ?_⟩
  unfold lightWriteInsert
  have hat : (s.touch lbi).blocks lbi = s.blocks lbi := rfl
  simp only [hat]
  rw [← dataBlocks, ← hnb, if_neg space, ← hstart, ← shifted, ← hv, ← hrdef,
    if_neg (by rw [hrest.1]; decide), hrest.2.1, hvnode]

/-- The space check of the insertion fails. -/
theorem lightWriteInsert_refused {s : Ctx} {buff : List Byte} {lbi lp nb lastBli : Nat}
    {move shift : Bool}
    (hnb : nb = if s.blocks lbi = 0 then dataBlocks buff.length lp + move.toNat + 1
      else dataBlocks buff.length lp + move.toNat)
    (space : spaceAvailable (s.touch lbi) nb < 0) :
    lightWriteInsert s buff lbi lp move shift lastBli = (s.touch lbi, -errNospc, buff.length) := by
  unfold lightWriteInsert
  have hat : (s.touch lbi).blocks lbi = s.blocks lbi := rfl
  simp only [hat]
  rw [← dataBlocks, ← hnb, if_pos space]

/-- The insertion at a cursor in the entry `e`: it goes through unless there is
no byte left in the block. -/
theorem lightWriteInsert_at {s : Ctx} {A B : List Word} {e : Word} {buff : List Byte}
    {lp lastBli : Nat} {move shift : Bool} (slots : Slots s (A ++ e :: B)) (ne : e ≠ 0)
    (ok : BlocksOk s.sbi) (reads : s.io.NoReadFails) (copies : s.io.NoCopyFails)
    (hlp : lp ≤ blockSize)
    (hshift : shift = true ↔ B ≠ []) (hlast : B ≠ [] → lastBli = A.length + B.length)
    (room : dataBlocks buff.length lp + move.toNat + (A ++ e :: B).length ≤ 1024)
    (enough : dataBlocks buff.length lp + move.toNat ≤ s.sbi.nrFreeBlocks) :
    (lightWriteInsert s buff A.length lp move shift lastBli).2 =
        (if lp = blockSize ∧ 0 < buff.length then (-errNodata, buff.length) else (0, 0)) ∧
      (lightWriteInsert s buff A.length lp move shift lastBli).1.node.iBlocks =
        s.node.iBlocks + (dataBlocks buff.length lp + move.toNat) := by
  have hat : s.blocks A.length = e := slots.blocks_at
  obtain ⟨nb, hnb⟩ : ∃ nb, nb = dataBlocks buff.length lp + move.toNat := ⟨_, rfl⟩
  obtain ⟨hfits, _⟩ := dataBlocks_spec buff.length hlp
  rw [← hnb] at room enough
  have slots0 : Slots (s.touch A.length) (A ++ e :: B) :=
    ⟨slots.length_le, slots.slots, slots.iBlocks⟩
  have hib := slots.iBlocks
  have hspace : ¬ spaceAvailable (s.touch A.length) nb < 0 := by
    rw [Slots.spaceAvailable_neg_iff slots0 (by omega)]
    rintro (hfull | hfew)
    · omega
    · exact absurd hfew (Nat.not_lt.mpr enough)
  have hsplit : (A ++ [e]) ++ B = A ++ e :: B := by simp
  have hlenA : (A ++ [e]).length = A.length + 1 := by simp
  have hlen : (A ++ e :: B).length = A.length + 1 + B.length := by simp; omega
  have hole := @slots_hole (s.touch A.length) (A ++ [e]) B nb (hsplit ▸ slots0) (by omega)
  rw [← shift_behind hshift hlast] at hole
  obtain ⟨u, hureads, hucopies, hublocks, hrun⟩ := lightWriteInsert_reaches ok reads copies
    (by rw [hat, if_neg ne, hnb]) (by rw [hat, if_neg ne]) hspace enough (by omega) rfl (by
      intro i hlo hhi
      exact hole.zero i (by omega) (by omega))
  have hcount : (i32 (((s.node.iBlocks + nb : Nat) : Int) - 1) - A.length).toNat =
      1 + B.length + nb := by
    rw [hib, i32_eq_self (by omega) (by omega)]
    omega
  rw [hrun, hcount, lightWriteLoop_node, ← hnb]
  refine ⟨?_, hublocks⟩
  split
  · rename_i hfull
    rw [hfull.1]
    exact lightWriteLoop_stuck buff u A.length (by omega) hfull.2 hureads
  · rename_i hroom
    by_cases hbytes : 0 < buff.length
    · apply lightWriteLoop_completes buff _ u A.length lp _ hureads hucopies (by omega)
      right
      unfold blockSize at *
      omega
    · rw [show buff.length = 0 by omega, lightWriteLoop_nothing]

/-- The insertion into a new block behind the last one. -/
theorem lightWriteInsert_new {s : Ctx} {es : List Word} {buff : List Byte} (slots : Slots s es)
    (ok : BlocksOk s.sbi) (reads : s.io.NoReadFails) (copies : s.io.NoCopyFails)
    (room : dataBlocks buff.length 0 + 1 + es.length ≤ 1024)
    (enough : dataBlocks buff.length 0 + 1 ≤ s.sbi.nrFreeBlocks) :
    (lightWriteInsert s buff es.length 0 false false 0).2 = (0, 0) ∧
      (lightWriteInsert s buff es.length 0 false false 0).1.node.iBlocks =
        s.node.iBlocks + (dataBlocks buff.length 0 + 1) := by
  have hat : s.blocks es.length = 0 := by
    rw [slots.slots _ (by omega)]
    simp
  obtain ⟨nb, hnb⟩ : ∃ nb, nb = dataBlocks buff.length 0 + 1 := ⟨_, rfl⟩
  obtain ⟨hfits, _⟩ := @dataBlocks_spec buff.length 0 (by omega)
  rw [← hnb] at room enough
  have slots0 : Slots (s.touch es.length) es := ⟨slots.length_le, slots.slots, slots.iBlocks⟩
  have hib := slots.iBlocks
  have hspace : ¬ spaceAvailable (s.touch es.length) nb < 0 := by
    rw [Slots.spaceAvailable_neg_iff slots0 (by omega)]
    rintro (hfull | hfew)
    · omega
    · exact absurd hfew (Nat.not_lt.mpr enough)
  obtain ⟨u, hureads, hucopies, hublocks, hrun⟩ := @lightWriteInsert_reaches s (s.touch es.length)
    buff es.length 0 nb es.length 0 false false ok reads copies (by rw [hat, if_pos rfl, hnb]; rfl)
    (by rw [hat, if_pos rfl]) hspace enough (by omega) (by simp) (by
      intro i hlo hhi
      rw [slots0.slots i (by omega), List.getElem?_eq_none hlo]
      rfl)
  have hcount : (i32 (((s.node.iBlocks + nb : Nat) : Int) - 1) - es.length).toNat = nb := by
    rw [hib, i32_eq_self (by omega) (by omega)]
    omega
  rw [hrun, hcount, lightWriteLoop_node, ← hnb]
  refine ⟨?_, hublocks⟩
  apply lightWriteLoop_completes buff _ u es.length 0 _ hureads hucopies (by decide)
  right
  unfold blockSize
  omega

/-- With the index full and nothing to allocate, the cursor is behind the last block and
nothing is copied. -/
theorem lightWriteInsert_past {s : Ctx} {es : List Word} {buff : List Byte} (slots : Slots s es)
    (full : es.length = 1024) (ne : s.blocks es.length ≠ 0) (nothing : dataBlocks buff.length 0 = 0)
    (space : ¬ spaceAvailable (s.touch es.length) 0 < 0) :
    lightWriteInsert s buff es.length 0 false false 0 = (s.touch es.length, 0, buff.length) := by
  have hat : (s.touch es.length).blocks es.length = s.blocks es.length := rfl
  have hcount : (i32 (((s.touch es.length).node.iBlocks : Int) - 1) - es.length).toNat = 0 := by
    change (i32 ((s.node.iBlocks : Int) - 1) - es.length).toNat = 0
    rw [slots.iBlocks, i32_eq_self (by omega) (by omega)]
    omega
  unfold lightWriteInsert
  simp only [hat, if_neg ne]
  rw [← dataBlocks, nothing, Bool.toNat_false, if_neg space]
  simp only [Bool.false_eq_true, false_and, if_false, reserveEmptyBlocks, lt_irrefl]
  rw [hcount]
  rfl

section

variable {s : Ctx} {es : List Word} {buff : List Byte} {pos : Nat}

theorem EndsFullBlock.bounds (h : EndsFullBlock es pos) : blockSize ≤ pos ∧ pos ≤ total es := by
  obtain ⟨A, e, B, rfl, hfull, rfl⟩ := h
  rw [total_append, total_cons, hfull]
  omega

/-- The block that the search finds is the one whose end the position may be. -/
theorem endsFullBlock_iff {A B : List Word} {e : Word} {p : Nat} (hpos : total A + p = pos)
    (lo : 1 ≤ p) (hi : p ≤ getBlockSize e) :
    EndsFullBlock (A ++ e :: B) pos ↔ p = blockSize := by
  have hs := getBlockSize_le e
  constructor
  · rintro ⟨A', e', B', heq, hfull, hends⟩
    unfold blockSize at *
    rcases Nat.lt_trichotomy A.length A'.length with hlt | hsame | hgt
    · have := total_le_of_split heq hlt
      omega
    · rw [(List.append_inj heq hsame).1] at hpos
      omega
    · have := total_le_of_split heq.symm hgt
      omega
  · intro hp
    refine ⟨A, e, B, rfl, ?_, by omega⟩
    unfold blockSize at *
    omega

theorem dataBlocks_le (size : Nat) {lp : Nat} (h : lp ≤ blockSize) :
    dataBlocks size lp ≤ (size + 4095) / 4096 := by
  obtain ⟨_, hneed⟩ := dataBlocks_spec size h
  omega

theorem gapBlocks_le (es : List Word) (gap : Nat) : gapBlocks es gap ≤ (gap + 4095) / 4096 := by
  have hlt := idivCeil_pred_mul_lt (a := gap - lastRoom es) (b := 4096) (by decide)
  unfold gapBlocks blockSize
  omega

/-- The call is turned down before it has changed anything. -/
structure Refused (s : Ctx) (size : Nat) (r : Ctx × Int × Nat) : Prop where
  ends : r.2 = (-errNospc, size)
  disk : r.1.disk = s.disk
  sbi : r.1.sbi = s.sbi
  node : r.1.node = s.node

/-- The room left after a gap has been filled. -/
theorem Grown.space {u : Ctx} {A L : List Word} {fresh : List Nat}
    (g : Grown s u es pos fresh A L) (slots : Slots s es) {n : Nat}
    (few : gapBlocks es (pos - total es) + n < 1000000000) :
    spaceAvailable u n < 0 ↔ spaceAvailable s (gapBlocks es (pos - total es) + n) < 0 := by
  have hcount := g.allocated.count
  have hfresh := g.length
  have hlen : (A ++ pour L (pos - total es)).length = es.length + fresh.length := by
    have := congrArg List.length g.run
    simpa using this
  rw [Slots.spaceAvailable_neg_iff g.slots (by omega), Slots.spaceAvailable_neg_iff slots few]
  omega

theorem secondBlocks_eq (shape : Shape s es) (size : s.node.iSize = total es) (n : Nat) {p : Nat}
    (hp : p = (4096 - lastRoom es + (pos - total es)) % 4096) :
    secondBlocks s n pos = dataBlocks n p +
      if p = 0 ∧ s.blocks (es.length + gapBlocks es (pos - total es)) = 0 then 1 else 0 := by
  unfold secondBlocks
  simp only [shape.entries_eq, size, blockSize, ← hp]

/-- The insertion behind a filled gap. -/
theorem lightWriteInsert_behind_gap {u : Ctx} {A L : List Word} {fresh : List Nat} {k p nb : Nat}
    (g : Grown s u es pos fresh A L)
    (landed : Landed es (A ++ pour L (pos - total es)) pos k p) (reads : u.io.NoReadFails)
    (copies : u.io.NoCopyFails) (small : buff.length ≤ 4194304)
    (hnb : nb = dataBlocks buff.length p +
      if p = 0 ∧ s.blocks (es.length + gapBlocks es (pos - total es)) = 0 then 1 else 0) :
    (spaceAvailable u nb < 0 →
      lightWriteInsert u buff k p false false 0 = (u.touch k, -errNospc, buff.length)) ∧
    (¬ spaceAvailable u nb < 0 →
      (lightWriteInsert u buff k p false false 0).2.1 = 0 ∧
        (es.length + gapBlocks es (pos - total es) < 1024 →
          (lightWriteInsert u buff k p false false 0).2 = (0, 0))) := by
  have hpast := g.past
  rw [g.length] at hpast
  have hslots := g.slots
  have hcursor := landed.cursor
  have hlen : (A ++ pour L (pos - total es)).length = es.length + gapBlocks es (pos - total es) := by
    have := congrArg List.length g.run
    rw [← g.length]
    simpa using this
  obtain ⟨es', hes'⟩ : ∃ es', es' = A ++ pour L (pos - total es) := ⟨_, rfl⟩
  rw [← hes'] at hslots hcursor hlen
  rw [← hlen] at hpast hnb ⊢
  have hfull := hslots.length_le
  cases hcursor with
  | behind _ =>
    have hdata := @dataBlocks_le buff.length 0 (by decide)
    have hat : u.blocks es'.length = s.blocks es'.length := hpast _ (Nat.le_refl _)
    have hasked : nb = if u.blocks es'.length = 0 then
        dataBlocks buff.length 0 + false.toNat + 1 else dataBlocks buff.length 0 + false.toNat := by
      rw [hnb, hat]
      by_cases hz : s.blocks es'.length = 0
      · rw [if_pos ⟨rfl, hz⟩, if_pos hz]
        rfl
      · rw [if_neg (fun h => hz h.2), if_neg hz]
        rfl
    refine ⟨fun hspace => lightWriteInsert_refused hasked hspace, fun hspace => ?_⟩
    have hroom := hspace
    rw [Slots.spaceAvailable_neg_iff hslots (by rw [hasked]; split <;> simp <;> omega)] at hroom
    rcases Nat.lt_or_ge es'.length 1024 with hlt | hge
    · have hz : u.blocks es'.length = 0 := by
        rw [hslots.slots _ hlt]
        simp
      rw [if_pos hz, Bool.toNat_false, Nat.add_zero] at hasked
      obtain ⟨hends, _⟩ := @lightWriteInsert_new u es' buff hslots g.allocated.ok reads copies
        (by omega) (by omega)
      rw [hends]
      exact ⟨rfl, fun _ => rfl⟩
    · have hnone : nb = 0 := by omega
      have hne : u.blocks es'.length ≠ 0 := by
        intro hz
        rw [if_pos hz] at hasked
        omega
      rw [if_neg hne, Bool.toNat_false, Nat.add_zero, hnone] at hasked
      rw [lightWriteInsert_past hslots (by omega) hne hasked.symm (hnone ▸ hspace)]
      exact ⟨rfl, fun hlt => absurd hlt (by omega)⟩
  | inside C e hsplit hpos hlt =>
    subst hsplit
    have hdata := dataBlocks_le buff.length (Nat.le_of_lt hlt)
    have hne : e ≠ 0 := by
      rintro rfl
      exact absurd hpos (by decide)
    have hat : u.blocks C.length = e := hslots.blocks_at
    rw [if_neg (by omega), Nat.add_zero] at hnb
    have hasked : nb = if u.blocks C.length = 0 then
        dataBlocks buff.length (getBlockSize e) + false.toNat + 1
        else dataBlocks buff.length (getBlockSize e) + false.toNat := by
      rw [hat, if_neg hne, hnb]
      rfl
    refine ⟨fun hspace => lightWriteInsert_refused hasked hspace, fun hspace => ?_⟩
    rw [Slots.spaceAvailable_neg_iff hslots (by omega)] at hspace
    obtain ⟨hends, _⟩ := @lightWriteInsert_at u C [] e buff (getBlockSize e) 0 false false hslots hne
      g.allocated.ok reads copies (Nat.le_of_lt hlt) (by simp) (by simp)
      (by simp only [Bool.toNat_false]; omega) (by simp only [Bool.toNat_false]; omega)
    rw [if_neg (by unfold blockSize; omega)] at hends
    rw [hends]
    exact ⟨rfl, fun _ => rfl⟩

/-- How a call behind the end goes: it is turned down, or it stops with the gap
filled, or it does not fail. -/
theorem lightWriteBody_gap_ends (shape : Shape s es) (held : Held s es)
    (size : s.node.iSize = total es) (gap : total es < pos) (reads : s.io.NoReadFails)
    (copies : s.io.NoCopyFails) (small : pos + buff.length ≤ 4194304) {nb : Nat}
    (hnb : nb = gapBlocks es (pos - total es) + secondBlocks s buff.length pos) :
    (spaceAvailable s (gapBlocks es (pos - total es)) < 0 →
      Refused s buff.length (lightWriteBody s buff pos)) ∧
    (¬ spaceAvailable s (gapBlocks es (pos - total es)) < 0 → spaceAvailable s nb < 0 →
      (lightWriteBody s buff pos).2 = (-errNospc, buff.length) ∧
        (lightWriteBody s buff pos).1.node.iSize = pos) ∧
    (¬ spaceAvailable s nb < 0 → (lightWriteBody s buff pos).2.1 = 0 ∧
      (es.length + gapBlocks es (pos - total es) < 1024 →
        (lightWriteBody s buff pos).2 = (0, 0))) := by
  have hgap := gapBlocks_le es (pos - total es)
  obtain ⟨p, hp⟩ : ∃ p, p = (4096 - lastRoom es + (pos - total es)) % 4096 := ⟨_, rfl⟩
  have hdata := @dataBlocks_le buff.length p (by unfold blockSize; omega)
  have hsecond := secondBlocks_eq shape size buff.length hp
  have hfew : secondBlocks s buff.length pos < 10000 := by
    rw [hsecond]
    split <;> omega
  unfold lightWriteBody
  rw [if_pos (by omega)]
  rcases fillToReachPos_grows shape.toSlots held.nonzero held.ok size gap (by omega) with
    ⟨hspace, u, hrun, hdisk, hsbi, hnode, _⟩ | ⟨hspace, u, fresh, A, L, k, p', hrun, g, hlanded⟩
  · rw [hrun]
    refine ⟨fun _ => ⟨rfl, hdisk, hsbi, hnode⟩, fun h => absurd hspace h, fun h => absurd ?_ h⟩
    rw [spaceAvailable_neg_iff shape (by omega)] at hspace ⊢
    omega
  obtain rfl : p' = p := hlanded.offset.trans hp.symm
  have hspace' := Grown.space g shape.toSlots
    (show gapBlocks es (pos - total es) + secondBlocks s buff.length pos < 1000000000 by omega)
  obtain ⟨hrefused, hdone⟩ := lightWriteInsert_behind_gap g hlanded (by rw [g.io]; exact reads)
    (by rw [g.io]; exact copies) (by omega) hsecond
  rw [hrun, hnb, ← hspace']
  refine ⟨fun h => absurd h hspace, fun _ h => ?_, hdone⟩
  obtain ⟨n, hnode⟩ := g.node
  simp only [hrefused h]
  refine ⟨trivial, ?_⟩
  change u.node.iSize = pos
  rw [hnode]

/-- How a call at a position found by the search goes. -/
theorem lightWriteBody_at_ends {A B : List Word} {e : Word} {p : Nat}
    (shape : Shape s (A ++ e :: B)) (held : Held s (A ++ e :: B))
    (size : s.node.iSize = total (A ++ e :: B)) (le : pos ≤ total (A ++ e :: B))
    (found : findBlockPos pos s.blocks (i32 ((s.node.iBlocks : Int) - 1)) =
      some (A.length, (p : Int))) (hp : p ≤ getBlockSize e) (reads : s.io.NoReadFails)
    (copies : s.io.NoCopyFails) (small : buff.length ≤ 4194304) :
    (spaceAvailable s (neededBlocks s buff.length pos) < 0 →
      Refused s buff.length (lightWriteBody s buff pos)) ∧
    (¬ spaceAvailable s (neededBlocks s buff.length pos) < 0 →
      (lightWriteBody s buff pos).2 =
          (if p = blockSize ∧ 0 < buff.length then (-errNodata, buff.length) else (0, 0)) ∧
        (lightWriteBody s buff pos).1.node.iBlocks =
          s.node.iBlocks + neededBlocks s buff.length pos) := by
  have hs := getBlockSize_le e
  have hpb : p ≤ blockSize := Nat.le_trans hp hs
  have hdata := dataBlocks_le buff.length hpb
  have hne : e ≠ 0 := held.nonzero e (by simp)
  have hat : s.blocks A.length = e := shape.blocks_at
  have hneed : neededBlocks s buff.length pos =
      dataBlocks buff.length p + (decide (p < getBlockSize e)).toNat := by
    rw [neededBlocks_at (by omega) found hat buff.length]
    by_cases hlt : p < getBlockSize e
    · rw [if_pos (Or.inr hlt), decide_eq_true hlt]
      rfl
    · rw [if_neg (not_or.mpr ⟨hne, hlt⟩), decide_eq_false hlt]
      rfl
  have hmove := Bool.toNat_le (decide (p < getBlockSize e))
  rw [lightWriteBody_at_eq shape size le found hp, hneed]
  obtain ⟨q, hq⟩ : ∃ q : Ctx, q = { s with
    touched := (List.range (A.length + 1)).map Int.ofNat ++ s.touched } := ⟨_, rfl⟩
  have hslots : Slots q (A ++ e :: B) := by
    rw [hq]
    exact ⟨shape.length_le, shape.slots, shape.iBlocks⟩
  have hsbi : q.sbi = s.sbi := by rw [hq]
  have hio : q.io = s.io := by rw [hq]
  have hshift : decide (A.length ≠ A.length + B.length) = true ↔ B ≠ [] := by
    rw [decide_eq_true_iff, ← List.length_pos_iff]
    omega
  rw [← hq]
  constructor
  · intro hspace
    rw [@lightWriteInsert_refused q buff A.length p
      (dataBlocks buff.length p + (decide (p < getBlockSize e)).toNat) _ _ _
      (by rw [hslots.blocks_at, if_neg hne]) (by rw [hq]; exact hspace)]
    rw [hq]
    exact ⟨rfl, rfl, rfl, rfl⟩
  · intro hspace
    rw [spaceAvailable_neg_iff shape (by omega)] at hspace
    have hnode : q.node = s.node := by rw [hq]
    rw [← hnode]
    exact lightWriteInsert_at hslots hne (hsbi ▸ held.ok) (hio ▸ reads) (hio ▸ copies) hpb hshift
      (fun _ => rfl) (by omega) (by rw [hsbi]; omega)

/-- How a call within the file goes: it is turned down, or it takes its blocks and
then gives up at the end of a full block, or completes. -/
structure WithinEnds (s : Ctx) (es : List Word) (buff : List Byte) (pos : Nat) : Prop where
  refused : spaceAvailable s (neededBlocks s buff.length pos) < 0 →
    Refused s buff.length (lightWriteBody s buff pos)
  stuck : ¬ spaceAvailable s (neededBlocks s buff.length pos) < 0 →
    EndsFullBlock es pos ∧ 0 < buff.length →
    (lightWriteBody s buff pos).2 = (-errNodata, buff.length)
  done : ¬ spaceAvailable s (neededBlocks s buff.length pos) < 0 →
    ¬ (EndsFullBlock es pos ∧ 0 < buff.length) → (lightWriteBody s buff pos).2 = (0, 0)
  blocks : ¬ spaceAvailable s (neededBlocks s buff.length pos) < 0 →
    (lightWriteBody s buff pos).1.node.iBlocks = s.node.iBlocks + neededBlocks s buff.length pos

theorem lightWriteBody_within_ends (shape : Shape s es) (held : Held s es)
    (size : s.node.iSize = total es) (le : pos ≤ total es) (reads : s.io.NoReadFails)
    (copies : s.io.NoCopyFails) (small : buff.length ≤ 4194304) : WithinEnds s es buff pos := by
  have hfound : ∀ A e B p, es = A ++ e :: B → p ≤ getBlockSize e →
      findBlockPos pos s.blocks (i32 ((s.node.iBlocks : Int) - 1)) = some (A.length, (p : Int)) →
      (EndsFullBlock es pos ↔ p = blockSize) → WithinEnds s es buff pos := by
    intro A e B p hes hp hrun hends
    subst hes
    obtain ⟨hrefused, hdone⟩ := lightWriteBody_at_ends shape held size le hrun hp
      reads copies small
    refine ⟨hrefused, fun hspace h => ?_, fun hspace h => ?_, fun hspace => (hdone hspace).2⟩
    · rw [(hdone hspace).1, if_pos (by rwa [hends] at h)]
    · rw [(hdone hspace).1, if_neg (by rwa [hends] at h)]
  rcases Nat.eq_zero_or_pos pos with rfl | hpos
  · have hnot : ¬ EndsFullBlock es 0 := fun hends => absurd hends.bounds.1 (by decide)
    cases es with
    | cons e B =>
      exact hfound [] e B 0 rfl (Nat.zero_le _) (findBlockPos_zero _ _)
        ⟨fun h => absurd h hnot, fun h => absurd h (by decide)⟩
    | nil =>
      have hdata := @dataBlocks_le buff.length 0 (by decide)
      have hslots : Slots { s with touched := 0 :: s.touched } [] :=
        ⟨shape.length_le, shape.slots, shape.iBlocks⟩
      have hz : ({ s with touched := 0 :: s.touched } : Ctx).blocks 0 = 0 :=
        shape.slots 0 (by decide)
      have hneed := neededBlocks_empty shape buff.length
      have hbody : lightWriteBody s buff 0 = _ := lightWriteBody_empty_eq shape size
      have hnew : ¬ spaceAvailable s (neededBlocks s buff.length 0) < 0 →
          (lightWriteBody s buff 0).2 = (0, 0) ∧ (lightWriteBody s buff 0).1.node.iBlocks =
            s.node.iBlocks + neededBlocks s buff.length 0 := by
        intro hspace
        rw [hneed, spaceAvailable_neg_iff shape (by omega)] at hspace
        rw [hneed, hbody]
        exact @lightWriteInsert_new { s with touched := 0 :: s.touched } [] buff hslots held.ok reads
          copies (by simp at hspace ⊢; omega) (by change _ ≤ s.sbi.nrFreeBlocks; omega)
      refine ⟨fun hspace => ?_, fun _ h => absurd h.1 hnot, fun hspace _ => (hnew hspace).1,
        fun hspace => (hnew hspace).2⟩
      rw [hneed] at hspace
      rw [hbody, lightWriteInsert_refused (s := { s with touched := 0 :: s.touched })
        (by rw [if_pos hz]; rfl) hspace]
      exact ⟨rfl, rfl, rfl, rfl⟩
  · obtain ⟨A, e, B, p, hf, hrun⟩ := findBlockPos_found shape hpos le
    refine hfound A e B p hf.split hf.le hrun ?_
    rw [hf.split]
    exact endsFullBlock_iff hf.offset hf.pos hf.le

theorem neededBlocks_within_le (shape : Shape s es) (size : s.node.iSize = total es)
    (le : pos ≤ total es) (n : Nat) : neededBlocks s n pos ≤ (n + 4095) / 4096 + 1 := by
  obtain ⟨k, p, hp, hrun⟩ : ∃ k p, p ≤ blockSize ∧
      findBlockPos pos s.blocks (i32 ((s.node.iBlocks : Int) - 1)) = some (k, (p : Int)) := by
    rcases Nat.eq_zero_or_pos pos with rfl | hpos
    · exact ⟨0, 0, by decide, findBlockPos_zero _ _⟩
    · obtain ⟨A, e, B, p, hf, hrun⟩ := findBlockPos_found shape hpos le
      exact ⟨A.length, p, hf.le.trans (getBlockSize_le e), hrun⟩
  have hdata := dataBlocks_le n hp
  rw [neededBlocks_at (by omega) hrun rfl n]
  split <;> omega

/-- How the body of a call with room enough ends. -/
theorem lightWriteBody_ends (shape : Shape s es) (held : Held s es)
    (size : s.node.iSize = total es) (reads : s.io.NoReadFails) (copies : s.io.NoCopyFails)
    (bytes : 0 < buff.length) (small : pos + buff.length ≤ 4194304)
    (room : es.length + ample s buff.length pos ≤ 1024)
    (enough : ample s buff.length pos ≤ s.sbi.nrFreeBlocks) :
    (EndsFullBlock es pos → (lightWriteBody s buff pos).2 = (-errNodata, buff.length)) ∧
      (¬ EndsFullBlock es pos → (lightWriteBody s buff pos).2 = (0, 0)) := by
  have hspace : ∀ n, n ≤ ample s buff.length pos → ¬ spaceAvailable s n < 0 := by
    intro n hn
    rw [spaceAvailable_neg_iff shape (by omega)]
    omega
  rcases Nat.lt_or_ge (total es) pos with hgap | hle
  · obtain ⟨p, hp⟩ : ∃ p, p = (4096 - lastRoom es + (pos - total es)) % 4096 := ⟨_, rfl⟩
    have hdata := @dataBlocks_le buff.length p (by unfold blockSize; omega)
    have hblocks := gapBlocks_le es (pos - total es)
    have hsecond : secondBlocks s buff.length pos ≤ (buff.length + 4095) / 4096 + 1 := by
      rw [secondBlocks_eq shape size buff.length hp]
      split <;> omega
    obtain ⟨_, _, hdone⟩ := @lightWriteBody_gap_ends s es buff pos shape held size hgap reads copies
      small _ rfl
    unfold ample at room hspace
    rw [size] at room hspace
    refine ⟨fun hends => ?_, fun _ => (hdone (hspace _ (by omega))).2 (by omega)⟩
    have := hends.bounds
    omega
  · have hneed := neededBlocks_within_le shape size hle buff.length
    have hends := lightWriteBody_within_ends shape held size hle reads copies
      (show buff.length ≤ 4194304 by omega)
    have hroom := hspace _ (show neededBlocks s buff.length pos ≤ ample s buff.length pos by
      unfold ample
      omega)
    exact ⟨fun h => hends.stuck hroom ⟨h, bytes⟩, fun h => hends.done hroom (fun hno => h hno.1)⟩

end

/-- What a call returns that has read the index block, from what its body left. -/
structure Returned (data : List Byte) (p : Nat) (b : Ctx × Int × Nat) (r : WriteResult) :
    Prop where
  ret : r.ret = if b.2.1 = 0 then ((data.length - b.2.2 : Nat) : Int) else b.2.1
  pos : r.pos = p + (data.length - b.2.2)
  ctx : b.2.2 = data.length → r.ctx = b.1

/-- A body that stops before the first copy hands its error code on. -/
theorem Returned.failed {data : List Byte} {p : Nat} {b : Ctx × Int × Nat} {r : WriteResult}
    {code : Int} (h : Returned data p b r) (ends : b.2 = (code, data.length)) (neg : code < 0) :
    r.ret < 0 ∧ r.ctx = b.1 ∧ r.pos = p := by
  have hleft : b.2.2 = data.length := by rw [ends]
  have hcode : b.2.1 = code := by rw [ends]
  refine ⟨?_, h.ctx hleft, by rw [h.pos, hleft, Nat.sub_self, Nat.add_zero]⟩
  rw [h.ret, hcode, if_neg (Int.ne_of_lt neg)]
  exact neg

theorem Returned.passed {data : List Byte} {p : Nat} {b : Ctx × Int × Nat} {r : WriteResult}
    (h : Returned data p b r) (code : b.2.1 = 0) : ¬ r.ret < 0 := by
  rw [h.ret, if_pos code]
  omega

theorem ouichefsLightWrite_returns (s : Ctx) (fFlags : Nat) (data : List Byte) (pos : Nat)
    (small : startPos s fFlags pos + data.length ≤ maxFilesize) (index : s.io.bread 0 = true) :
    Returned data (startPos s fFlags pos)
      (lightWriteBody s.popBread data (startPos s fFlags pos))
      (ouichefsLightWrite s fFlags data pos) := by
  have hread : ¬ s.io.bread 0 = false := by simp [index]
  unfold ouichefsLightWrite
  rw [writeFlags_eq]
  simp only [if_neg (Nat.not_lt.mpr small), if_neg hread]
  refine ⟨rfl, rfl, fun hnone => ?_⟩
  simp only
  rw [if_neg (by omega)]

/-- With room enough, a call returns the length of its data exactly if its
position is not the end of a full block. -/
theorem ouichefsLightWrite_completes_iff (s : Ctx) (fFlags pos : Nat) (data : List Byte)
    (wf : WellFormed s) (live : Live s) (nonempty : data ≠ [])
    (small : startPos s fFlags pos + data.length ≤ maxFilesize) (reads : s.io.NoReadFails)
    (copies : s.io.NoCopyFails)
    (room : s.node.iBlocks - 1 + ample s data.length (startPos s fFlags pos) ≤ indexSlots)
    (enough : ample s data.length (startPos s fFlags pos) ≤ s.sbi.nrFreeBlocks) :
    (ouichefsLightWrite s fFlags data pos).ret = data.length ↔
      ¬ EndsFullBlock s.entries (startPos s fFlags pos) := by
  obtain ⟨p, hp⟩ : ∃ p, p = startPos s fFlags pos := ⟨_, rfl⟩
  rw [← hp] at small room enough ⊢
  have hbytes : 0 < data.length := List.length_pos_iff.mpr nonempty
  have hshape : Shape s.popBread s.entries :=
    (wf.shape live.apart).congr (fun _ _ => rfl) rfl rfl
  have hheld : Held s.popBread s.entries := ⟨live.volume, live.data, live.index⟩
  obtain ⟨hstuck, hdone⟩ := lightWriteBody_ends hshape hheld wf.size
    (fun n => reads (n + 1)) copies hbytes small (by rw [entries_length]; exact room) enough
  have hret := (ouichefsLightWrite_returns s fFlags data pos (hp ▸ small) (reads 0)).ret
  rw [← hp] at hret
  rw [hret]
  constructor
  · intro hfull hends
    rw [hstuck hends] at hfull
    simp only [errNodata] at hfull
    omega
  · intro hnot
    rw [hdone hnot]
    simp

/-- Appending a byte to a block with room. -/
theorem ouichefsLightWrite_completes_small :
    (ouichefsLightWrite smallCtx 1 [88] 3).ret = 1 := by
  refine (ouichefsLightWrite_completes_iff smallCtx 1 3 [88]
    (smallCtx_shape.wellFormed smallCtx_held.nonzero rfl) (smallCtx_shape.live smallCtx_held)
    (by decide) (by decide) (fun _ => rfl) (fun _ => rfl) (by decide) (by decide)).mpr ?_
  intro hends
  exact absurd hends.bounds.1 (by decide)

/-- A file of one full block. -/
def fullCtx : Ctx where
  sbi := smallCtx.sbi
  disk := fun b => if b = 6 then
      ofWords32 (fun i => [setBlockSize (freshEntry 7) 4096][i]?.getD 0)
    else fun _ => 65
  node := ⟨33188, 0, 0, 4096, ⟨0, 0⟩, ⟨0, 0⟩, ⟨0, 0⟩, 2, 1, 6⟩
  io := calmIo
  touched := []

theorem fullCtx_shape : Shape fullCtx [setBlockSize (freshEntry 7) 4096] :=
  shape_of_words (by decide) rfl rfl (by decide) (by decide)

theorem fullCtx_held : Held fullCtx [setBlockSize (freshEntry 7) 4096] := by
  have hnum : numbers [setBlockSize (freshEntry 7) 4096] =
      numbers [setBlockSize (freshEntry 7) 3] := by decide
  refine ⟨smallCtx_held.ok, ?_, smallCtx_held.index⟩
  rw [hnum]
  exact smallCtx_held.data

/-- A byte appended to a file of one full block is refused, with 90 free blocks. -/
theorem ouichefsLightWrite_not_completes : WellFormed fullCtx ∧ Live fullCtx ∧
    fullCtx.node.iBlocks - 1 + ample fullCtx 1 4096 ≤ indexSlots ∧
    ample fullCtx 1 4096 ≤ fullCtx.sbi.nrFreeBlocks ∧
    (ouichefsLightWrite fullCtx 1 [66] 4096).ret = -61 := by
  refine ⟨fullCtx_shape.wellFormed fullCtx_held.nonzero (by decide),
    fullCtx_shape.live fullCtx_held, by decide, by decide, by decide +kernel⟩

end Completion
