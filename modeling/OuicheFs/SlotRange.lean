import OuicheFs.Completion

/-!
# The slots a write with insertion accesses

The space check keeps every slot that is shifted, reserved or copied to within
the index. The slot of the cursor itself is consulted before that check. Behind
a gap that ends with a full block it is the first free slot, and when the gap
has taken the last one there is none.
-/
namespace SlotRange

open CInt ByteBuffer IndexEntry Allocator FileContext Layout OuicheFile OuicheWrite Reserve
  Pour Search Insert GapFill LightWrite Completion

/-- Every slot that a call accesses is one of the index block. -/
def InRange (s : Ctx) (fFlags : Nat) (data : List Byte) (pos : Nat) : Prop :=
  ∀ i ∈ (ouichefsLightWrite { s with touched := [] } fFlags data pos).ctx.touched,
    0 ≤ i ∧ i < indexSlots

/-- A gap up to `p` takes the last free slot of the index and ends with a full block. -/
structure Overruns (s : Ctx) (size p : Nat) : Prop where
  fits : p + size ≤ maxFilesize
  index : s.io.bread 0 = true
  gap : s.node.iSize < p
  space : ¬ spaceAvailable s (gapBlocks s.entries (p - s.node.iSize)) < 0
  last : s.entries.length + gapBlocks s.entries (p - s.node.iSize) = indexSlots
  boundary : (blockSize - lastRoom s.entries + (p - s.node.iSize)) % blockSize = 0

theorem moveOldContentTo_below {n : Nat} (s : Ctx) {from_ to_ : Nat} (lp : Nat) (hfrom : from_ < n)
    (hto : to_ < n) : Below n s (moveOldContentTo s from_ to_ lp).1 := by
  have hread : Below n s ((s.touch from_).touch to_) :=
    (Below.touch s hfrom).trans (Below.touch _ hto)
  unfold moveOldContentTo
  simp only
  split
  · exact hread
  · exact (hread.trans (Below.setBlocks ((s.touch from_).touch to_) 0 hfrom)).trans
      (Below.setBlocks (((s.touch from_).touch to_).setBlocks from_ 0) 0 hto)

theorem moveOldContentTo_node (s : Ctx) (from_ to_ lp : Nat) :
    (moveOldContentTo s from_ to_ lp).1.node = s.node := by
  unfold moveOldContentTo
  simp only
  split
  · rfl
  · rfl

/-- From a cursor in a data block, or in the free slot behind the last one, an
insertion stays within the index. -/
theorem lightWriteInsert_below {s : Ctx} {es : List Word} {buff : List Byte} {lbi lp lastBli : Nat}
    {move shift : Bool} (slots : Slots s es) (small : buff.length ≤ 4194304) (hlp : lp ≤ blockSize)
    (cursor : lbi < es.length ∨
      (lbi = es.length ∧ es.length < 1024 ∧ move = false ∧ shift = false))
    (hlast : shift = true → lastBli < es.length) :
    Below 1024 s (lightWriteInsert s buff lbi lp move shift lastBli).1 := by
  have hlen := slots.length_le
  have hib := slots.iBlocks
  have hdata := dataBlocks_le buff.length hlp
  have hmove := Bool.toNat_le move
  have hhere : Below 1024 s (s.touch lbi) := Below.touch s (by omega)
  have hat : (s.touch lbi).blocks lbi = s.blocks lbi := rfl
  have hfree : lbi = es.length → s.blocks lbi = 0 := by
    intro heq
    rw [slots.slots lbi (by omega), heq]
    simp
  have slots0 : Slots (s.touch lbi) es := ⟨slots.length_le, slots.slots, slots.iBlocks⟩
  unfold lightWriteInsert
  simp only [hat]
  rw [← dataBlocks]
  obtain ⟨nb, hnb⟩ : ∃ nb, nb = if s.blocks lbi = 0 then
    dataBlocks buff.length lp + move.toNat + 1 else dataBlocks buff.length lp + move.toNat := ⟨_, rfl⟩
  obtain ⟨start, hstart⟩ : ∃ start, start = if s.blocks lbi = 0 then lbi else lbi + 1 := ⟨_, rfl⟩
  have hfew : nb < 10000 := by
    rw [hnb]
    split <;> omega
  have hbegin : start ≤ es.length := by
    rw [hstart]
    split
    · omega
    · rename_i hne
      have := mt hfree hne
      omega
  rw [← hnb, ← hstart]
  split
  · exact hhere
  rename_i hspace
  rw [Slots.spaceAvailable_neg_iff slots0 (by omega)] at hspace
  obtain ⟨t, ht⟩ : ∃ t, t = if shift = true ∧ nb > 0 then
    shiftBlocks (s.touch lbi) start nb lastBli else s.touch lbi := ⟨_, rfl⟩
  have hshifted : Below 1024 s t ∧ t.node = s.node := by
    rw [ht]
    split
    · rename_i hshift
      have := hlast hshift.1
      refine ⟨hhere.trans ?_, (shiftBlocksLoop_frame start nb _ (s.touch lbi)).2.2⟩
      unfold shiftBlocks
      rcases Nat.lt_or_ge lastBli start with hnone | hsome
      · rw [show lastBli + 1 - start = 0 by omega]
        exact Below.refl _ _
      · exact shiftBlocksLoop_below start nb _ _ (by omega)
    · exact ⟨hhere, rfl⟩
  rw [← ht]
  obtain ⟨v, hv⟩ : ∃ v, v = (reserveEmptyBlocks start nb t).1 := ⟨_, rfl⟩
  have hvbelow : Below 1024 s v := by
    rw [hv]
    exact hshifted.1.trans (reserveEmptyBlocks_below nb start t (by omega))
  have hvblocks : v.node.iBlocks ≤ es.length + 1 + nb ∧ 0 < v.node.iBlocks := by
    have := reserveEmptyBlocks_iBlocks nb start t (by rw [hshifted.2]; omega)
    rw [← hv, hshifted.2] at this
    omega
  rw [← hv]
  obtain ⟨r, hr⟩ : ∃ r : Ctx × Int, r = if move = true then moveOldContentTo v lbi (lbi + nb) lp
    else (v, 0) := ⟨_, rfl⟩
  have hrbelow : Below 1024 s r.1 ∧ r.1.node = v.node := by
    rw [hr]
    split
    · rename_i hm
      refine ⟨hvbelow.trans (moveOldContentTo_below v lp (by omega) ?_), moveOldContentTo_node v _ _ _⟩
      rcases cursor with hin | ⟨_, _, hno, _⟩
      · omega
      · rw [hno] at hm
        cases hm
    · exact ⟨hvbelow, rfl⟩
  rw [← hr]
  split
  · exact hrbelow.1
  · refine hrbelow.1.trans (lightWriteLoop_below buff _ r.1 lbi lp buff.length ?_)
    rw [hrbelow.2, i32_eq_self (by omega) (by omega)]
    omega

/-- Behind an index that is full, the slot that does not exist is consulted and the call is
left. -/
theorem lightWriteInsert_full {s : Ctx} {es : List Word} {buff : List Byte} (slots : Slots s es)
    (small : buff.length ≤ 4194304) (full : es.length = 1024) :
    (lightWriteInsert s buff es.length 0 false false 0).1 = s.touch es.length := by
  have hdata := @dataBlocks_le buff.length 0 (by decide)
  have slots0 : Slots (s.touch es.length) es := ⟨slots.length_le, slots.slots, slots.iBlocks⟩
  obtain ⟨nb, hnb⟩ : ∃ nb, nb = if s.blocks es.length = 0 then
    dataBlocks buff.length 0 + false.toNat + 1 else dataBlocks buff.length 0 + false.toNat := ⟨_, rfl⟩
  by_cases hspace : spaceAvailable (s.touch es.length) nb < 0
  · rw [lightWriteInsert_refused hnb hspace]
  · have hroom := hspace
    rw [Slots.spaceAvailable_neg_iff slots0 (by rw [hnb]; split <;> simp <;> omega)] at hroom
    have hnone : nb = 0 := by omega
    have hne : s.blocks es.length ≠ 0 := by
      intro hz
      rw [if_pos hz] at hnb
      omega
    rw [if_neg hne, Bool.toNat_false, Nat.add_zero, hnone] at hnb
    rw [lightWriteInsert_past slots full hne hnb.symm (hnone ▸ hspace)]

section

variable {s : Ctx} {es : List Word} {buff : List Byte} {pos : Nat}

theorem lightWriteBody_within_below (shape : Shape s es) (size : s.node.iSize = total es)
    (le : pos ≤ total es) (small : buff.length ≤ 4194304) :
    Below 1024 s (lightWriteBody s buff pos).1 := by
  have hl := shape.length_le
  have hfound : ∀ A e B p, es = A ++ e :: B → p ≤ getBlockSize e →
      findBlockPos pos s.blocks (i32 ((s.node.iBlocks : Int) - 1)) = some (A.length, (p : Int)) →
      Below 1024 s (lightWriteBody s buff pos).1 := by
    intro A e B p hes hp hrun
    subst hes
    simp only [List.length_append, List.length_cons] at hl
    rw [lightWriteBody_at_eq shape size le hrun hp]
    have hsearch : Below 1024 s
        { s with touched := (List.range (A.length + 1)).map Int.ofNat ++ s.touched } := by
      intro i hi
      rcases List.mem_append.mp hi with hnew | hold
      · obtain ⟨j, hj, rfl⟩ := List.mem_map.mp hnew
        have := List.mem_range.mp hj
        exact Or.inr ⟨Int.natCast_nonneg j, Int.ofNat_lt.mpr (by omega)⟩
      · exact Or.inl hold
    refine hsearch.trans (lightWriteInsert_below
      ⟨shape.length_le, shape.slots, shape.iBlocks⟩ small (hp.trans (getBlockSize_le e))
      (Or.inl (by simp)) (fun _ => by simp))
  rcases Nat.eq_zero_or_pos pos with rfl | hpos
  · cases es with
    | cons e B => exact hfound [] e B 0 rfl (Nat.zero_le _) (findBlockPos_zero _ _)
    | nil =>
      rw [lightWriteBody_empty_eq shape size]
      have hsearch : Below 1024 s { s with touched := 0 :: s.touched } :=
        Below.touch s (by decide)
      exact hsearch.trans (lightWriteInsert_below
        ⟨shape.length_le, shape.slots, shape.iBlocks⟩ small (by decide)
        (Or.inr ⟨rfl, by decide, rfl, rfl⟩) (fun h => by cases h))
  · obtain ⟨A, e, B, p, hf, hrun⟩ := findBlockPos_found shape hpos le
    exact hfound A e B p hf.split hf.le hrun

/-- Behind the end a call stays within the index, unless the gap takes its last slot
and ends with a full block. -/
theorem lightWriteBody_gap_below (shape : Shape s es) (held : Held s es)
    (size : s.node.iSize = total es) (gap : total es < pos) (small : pos + buff.length ≤ 4194304) :
    (¬ spaceAvailable s (gapBlocks es (pos - total es)) < 0 ∧
        es.length + gapBlocks es (pos - total es) = 1024 ∧
        (4096 - lastRoom es + (pos - total es)) % 4096 = 0 →
      (1024 : Int) ∈ (lightWriteBody s buff pos).1.touched) ∧
    (¬ (¬ spaceAvailable s (gapBlocks es (pos - total es)) < 0 ∧
        es.length + gapBlocks es (pos - total es) = 1024 ∧
        (4096 - lastRoom es + (pos - total es)) % 4096 = 0) →
      Below 1024 s (lightWriteBody s buff pos).1) := by
  unfold lightWriteBody
  rw [if_pos (by omega)]
  rcases fillToReachPos_grows shape.toSlots held.nonzero held.ok size gap (by omega) with
    ⟨hspace, u, hrun, _, _, _, hbelow⟩ | ⟨hspace, u, fresh, A, L, k, p, hrun, g, hlanded⟩
  · rw [hrun]
    exact ⟨fun h => absurd hspace h.1, fun _ => hbelow⟩
  have hslots := g.slots
  have hcursor := hlanded.cursor
  have hlen : (A ++ pour L (pos - total es)).length = es.length + gapBlocks es (pos - total es) := by
    have := congrArg List.length g.run
    rw [← g.length]
    simpa using this
  obtain ⟨es', hes'⟩ : ∃ es', es' = A ++ pour L (pos - total es) := ⟨_, rfl⟩
  rw [← hes'] at hslots hcursor hlen
  have hfull := hslots.length_le
  rw [hrun, ← hlen, ← hlanded.offset]
  cases hcursor with
  | behind _ =>
    constructor
    · intro h
      simp only
      rw [lightWriteInsert_full hslots (by omega) h.2.1, h.2.1]
      exact List.mem_cons_self
    · intro h
      have hlt : es'.length < 1024 := by
        by_contra hge
        exact h ⟨hspace, by omega, rfl⟩
      exact g.below.trans (lightWriteInsert_below hslots (by omega) (by decide)
        (Or.inr ⟨rfl, hlt, rfl, rfl⟩) (fun h => by cases h))
  | inside C e hsplit hpos hlt =>
    refine ⟨fun h => absurd h.2.2 (Nat.pos_iff_ne_zero.mp hpos), fun _ => ?_⟩
    refine g.below.trans (lightWriteInsert_below hslots (by omega) (Nat.le_of_lt hlt)
      (Or.inl ?_) (fun h => by cases h))
    rw [hsplit]
    simp

end

theorem ouichefsLightWrite_touched (s : Ctx) (fFlags : Nat) (data : List Byte) (pos : Nat) :
    (ouichefsLightWrite s fFlags data pos).ctx.touched =
      if startPos s fFlags pos + data.length ≤ maxFilesize ∧ s.io.bread 0 = true then
        (lightWriteBody s.popBread data (startPos s fFlags pos)).1.touched else s.touched := by
  obtain ⟨p, hp⟩ : ∃ p, p = startPos s fFlags pos := ⟨_, rfl⟩
  unfold ouichefsLightWrite
  rw [writeFlags_eq]
  simp only [← hp]
  by_cases hfits : p + data.length ≤ maxFilesize
  · rw [if_neg (Nat.not_lt.mpr hfits)]
    cases hread : s.io.bread 0 with
    | false =>
      simp only [if_true, Nat.sub_self, Bool.false_eq_true, and_false, if_false]
      rfl
    | true =>
      simp only [hfits, Bool.true_eq_false, and_self, if_false, if_true]
      split
      · rfl
      · rfl
  · rw [if_pos (Nat.lt_of_not_le hfits), if_neg (fun h => hfits h.1)]

/-- The state in which the body of a call begins, with nothing accessed yet. -/
structure Begun (s t : Ctx) : Prop where
  shape : Shape t s.entries
  held : Held t s.entries
  size : t.node.iSize = total s.entries
  space : ∀ n, spaceAvailable t n = spaceAvailable s n
  none : t.touched = []

theorem begun {s : Ctx} (wf : WellFormed s) (live : Live s) :
    Begun s ({ s with touched := [] } : Ctx).popBread :=
  ⟨(wf.shape live.apart).congr (fun _ _ => rfl) rfl rfl, ⟨live.volume, live.data, live.index⟩,
    wf.size, fun _ => rfl, rfl⟩

theorem Begun.inside {s t u : Ctx} (h : Begun s t) (below : Below 1024 t u) :
    ∀ i ∈ u.touched, 0 ≤ i ∧ i < indexSlots := by
  intro i hi
  rcases below i hi with hold | hnew
  · rw [h.none] at hold
    cases hold
  · exact hnew

section

variable {s : Ctx} {fFlags pos : Nat} {data : List Byte}

theorem Overruns.leaves (o : Overruns s data.length (startPos s fFlags pos)) (wf : WellFormed s)
    (live : Live s) : ¬ InRange s fFlags data pos := by
  have hb := begun wf live
  obtain ⟨hover, _⟩ := lightWriteBody_gap_below hb.shape hb.held
    hb.size (wf.size ▸ o.gap) o.fits
  rw [hb.space, ← wf.size] at hover
  intro h
  unfold InRange at h
  rw [ouichefsLightWrite_touched, if_pos ⟨o.fits, o.index⟩] at h
  have := (h 1024 (hover ⟨o.space, o.last, o.boundary⟩)).2
  unfold indexSlots at this
  omega

theorem inRange_of_not_overruns (wf : WellFormed s) (live : Live s)
    (h : ¬ Overruns s data.length (startPos s fFlags pos)) : InRange s fFlags data pos := by
  have hb := begun wf live
  unfold InRange
  rw [ouichefsLightWrite_touched]
  split
  · rename_i hgo
    obtain ⟨hfits, hread⟩ := hgo
    have hstart : startPos { s with touched := [] } fFlags pos = startPos s fFlags pos := rfl
    rw [hstart] at hfits ⊢
    have hmax : maxFilesize = 4194304 := rfl
    apply hb.inside
    rcases Nat.lt_or_ge s.node.iSize (startPos s fFlags pos) with hgap | hle
    · obtain ⟨_, hin⟩ := lightWriteBody_gap_below hb.shape hb.held
        hb.size (wf.size ▸ hgap) hfits
      rw [hb.space, ← wf.size] at hin
      exact hin fun ho => h ⟨hfits, hread, hgap, ho.1, ho.2.1, ho.2.2⟩
    · exact lightWriteBody_within_below hb.shape hb.size (wf.size ▸ hle) (by omega)
  · intro i hi
    cases hi

end

/-- Whatever fails, a call accesses only slots of the index if and only if no gap takes
the last of them and ends with a full block. -/
theorem index_accesses_in_range_iff (s : Ctx) (fFlags : Nat) (data : List Byte) (pos : Nat)
    (wf : WellFormed s) (live : Live s) :
    InRange s fFlags data pos ↔ ¬ Overruns s data.length (startPos s fFlags pos) :=
  ⟨fun h o => o.leaves wf live h, inRange_of_not_overruns wf live⟩

theorem index_accesses_in_range_small : InRange smallCtx 1 [66] 5000 := by
  refine (index_accesses_in_range_iff smallCtx 1 [66] 5000
    (smallCtx_shape.wellFormed smallCtx_held.nonzero rfl) (smallCtx_shape.live smallCtx_held)).mpr ?_
  intro o
  have hlast := o.last
  rw [smallCtx_shape.entries_eq] at hlast
  revert hlast
  decide +kernel

/-- Two blocks with one byte each, and 2000 free blocks. -/
def scantyCtx : Ctx where
  sbi := ⟨2010, 102, 2, 1, 1, 100, 2000, fun _ => false, fun b => decide (10 ≤ b ∧ b < 2010)⟩
  disk := fun b => if b = 6 then
      ofWords32 (fun i => [setBlockSize (freshEntry 7) 1, setBlockSize (freshEntry 8) 1][i]?.getD 0)
    else fun _ => 65
  node := ⟨33188, 0, 0, 2, ⟨0, 0⟩, ⟨0, 0⟩, ⟨0, 0⟩, 3, 1, 6⟩
  io := calmIo
  touched := []

theorem scantyCtx_shape :
    Shape scantyCtx [setBlockSize (freshEntry 7) 1, setBlockSize (freshEntry 8) 1] :=
  shape_of_words (by decide) rfl rfl (by decide) (by decide)

theorem scantyCtx_held :
    Held scantyCtx [setBlockSize (freshEntry 7) 1, setBlockSize (freshEntry 8) 1] := by
  have hused : ∀ b, b ∈ [6, 7, 8] → Used scantyCtx.sbi b := by
    intro b hb
    simp only [List.mem_cons, List.not_mem_nil, or_false] at hb
    rcases hb with rfl | rfl | rfl <;> exact ⟨by decide, by decide, by decide⟩
  have hn : numbers [setBlockSize (freshEntry 7) 1, setBlockSize (freshEntry 8) 1] = [7, 8] := by
    decide
  refine ⟨⟨by decide, by decide +kernel, by decide⟩, ?_, hused 6 (by decide)⟩
  intro b hb
  rw [hn] at hb
  exact hused b (List.mem_cons_of_mem 6 hb)

/-- A gap of 1022 blocks behind the two makes the index full, below the maximal size. -/
theorem index_accesses_leave_range : WellFormed scantyCtx ∧ Live scantyCtx ∧
    4190209 + 1 ≤ maxFilesize ∧ ¬ InRange scantyCtx 1 [66] 4190209 := by
  have hwf := scantyCtx_shape.wellFormed scantyCtx_held.nonzero rfl
  have hlive := scantyCtx_shape.live scantyCtx_held
  have ho : Overruns scantyCtx 1 4190209 := by
    refine ⟨by decide, rfl, by decide, ?_, ?_, ?_⟩
    · rw [scantyCtx_shape.entries_eq]
      decide +kernel
    · rw [scantyCtx_shape.entries_eq]
      decide +kernel
    · rw [scantyCtx_shape.entries_eq]
      decide +kernel
  exact ⟨hwf, hlive, by decide, Overruns.leaves ho hwf hlive⟩

end SlotRange
