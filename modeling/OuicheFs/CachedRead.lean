import OuicheFs.Streaming

/-!
# The reader over the page cache

`ouichefs_read_cached` walks the blocks as `ouichefs_light_read` does, but
copies every chunk to the start of the user buffer. The two agree on reads that
one block serves.
-/
namespace CachedRead

open CInt ByteBuffer IndexEntry Allocator FileContext Layout Search OuicheFile OuicheWrite
  OuicheRead LightWrite FileRun Streaming

/-- A page holds the current bytes of the block that `ouichefs_file_get_block`
maps for it. -/
def PageReads (s : Ctx) (page : Nat → Option Buffer) : Prop :=
  ∀ i bno, (ouichefsFileGetBlock s i false).2 = (0, some bno) →
    ∃ bytes, page i = some bytes ∧ ∀ k, k < blockSize → bytes k = s.disk bno k

/-- The user buffer after `data` has been copied to its start. -/
def placed (buff : Buffer) (data : List Byte) : Buffer :=
  blit buff 0 data.length (fun k => data.getD k 0)

/-- Whatever the user buffer holds before, both readers leave the same behind. -/
def Agrees (before : Nat → Byte) (page : Nat → Option Buffer) (s : Ctx)
    (fFlags size pos : Nat) : Prop :=
  ∀ buff, (ouichefsReadCached before page s fFlags size pos buff).ret =
      (ouichefsLightRead before s fFlags size pos).ret ∧
    (ouichefsReadCached before page s fFlags size pos buff).pos =
      (ouichefsLightRead before s fFlags size pos).pos ∧
    (ouichefsReadCached before page s fFlags size pos buff).buff =
      placed buff (ouichefsLightRead before s fFlags size pos).data

/-- The read starts in front of the end of a block, ends behind it, and the next
block has a byte. -/
def CrossesBlocks (es : List Word) (pos size : Nat) : Prop :=
  ∃ A e d B, es = A ++ e :: d :: B ∧ (total A < pos ∨ (pos = 0 ∧ A = [])) ∧
    pos < total A + getBlockSize e ∧ total A + getBlockSize e < pos + size ∧ 0 < getBlockSize d

/-! ## The loop -/

/-- The user buffer after the copies from the entries `L`. -/
def gatherInto (disk : Store) : List Word → Nat → Nat → Buffer → Buffer
  | [], _, _, buff => buff
  | e :: L, lp, remaining, buff =>
    if remaining = 0 ∨ getBlockSize e - lp = 0 then buff
    else
      let len := min (getBlockSize e - lp) remaining
      gatherInto disk L 0 (remaining - len)
        (placed buff (slice (disk (getBlockNumber e)) lp len))

theorem cachedReadLoop_eq (before : Nat → Byte) (page : Nat → Option Buffer) (L : List Word) :
    ∀ (s : Ctx) (k lp remaining : Nat) (buff : Buffer), s.io.NoCopyFails →
      (∀ i, i < L.length → s.blocks (k + i) = L[i]?.getD 0) →
      (∀ i e, L[i]? = some e → ∃ bytes, page (k + i) = some bytes ∧
        ∀ j, j < blockSize → bytes j = s.disk (getBlockNumber e) j) →
      (∀ e, L.head? = some e → lp ≤ getBlockSize e) →
      (cachedReadLoop before page L.length s k lp remaining buff).2 =
        ((remaining : Int) - (gather s.disk L lp remaining).length,
          gatherInto s.disk L lp remaining buff) := by
  induction L with
  | nil =>
    intro s k lp remaining buff _ _ _ _
    simp [cachedReadLoop, gather, gatherInto]
  | cons e L ih =>
    intro s k lp remaining buff copies hblocks hpages hlp
    have hk : s.blocks k = e := by simpa using hblocks 0 (by simp)
    have hat : (s.touch k).blocks k = e := hk
    have hle : lp ≤ getBlockSize e := hlp e rfl
    have hs := getBlockSize_le e
    obtain ⟨bytes, hpage, hbytes⟩ := hpages 0 e rfl
    rw [Nat.add_zero] at hpage
    rw [List.length_cons, cachedReadLoop, gather, gatherInto]
    by_cases hrem : remaining = 0
    · rw [if_pos (by rw [hrem]; rfl), if_pos (Or.inl hrem), if_pos (Or.inl hrem)]
      simp
    rw [if_neg (by omega)]
    simp only [hpage, hat]
    by_cases hdry : getBlockSize e - lp = 0
    · rw [if_pos (by omega), if_pos (Or.inr hdry), if_pos (Or.inr hdry)]
      simp
    obtain ⟨len, hlen⟩ : ∃ len, len = min (getBlockSize e - lp) remaining := ⟨_, rfl⟩
    have hint : min ((getBlockSize e : Int) - lp) (remaining : Int) = (len : Int) := by omega
    have hcopy : ¬ ((len : Int) < 0 ∨ (s.touch k).io.ucopy 0 ≠ none) := by
      rintro (hneg | hfail)
      · omega
      · exact hfail (copies 0)
    have hchunk : peek before bytes (lp : Int) len = slice (s.disk (getBlockNumber e)) lp len := by
      rw [peek_eq_slice]
      apply slice_congr
      intro j hj
      exact hbytes _ (by simp only [blockSize]; omega)
    rw [if_neg (by omega), hint, if_neg hcopy, if_neg (not_or.mpr ⟨hrem, hdry⟩),
      if_neg (not_or.mpr ⟨hrem, hdry⟩)]
    simp only [← hlen, Int.toNat_natCast, hchunk]
    have hplaced : blit buff 0 len (fun j => (slice (s.disk (getBlockNumber e)) lp len).getD j 0) =
        placed buff (slice (s.disk (getBlockNumber e)) lp len) := by
      unfold placed
      rw [slice_length]
    have hnext := ih (s.touch k).popUcopy (k + 1) 0 (remaining - len)
      (placed buff (slice (s.disk (getBlockNumber e)) lp len)) (fun n => copies (n + 1))
      (by
        intro i hi
        have hslot : s.blocks (k + (i + 1)) = L[i]?.getD 0 := hblocks (i + 1) (by simpa using hi)
        rw [show k + 1 + i = k + (i + 1) by omega]
        exact hslot)
      (by
        intro i d hd
        rw [show k + 1 + i = k + (i + 1) by omega]
        exact hpages (i + 1) d hd)
      (fun _ _ => Nat.zero_le _)
    rw [hplaced, show (remaining : Int) - (len : Int) = ((remaining - len : Nat) : Int) by omega]
    refine hnext.trans ?_
    rw [List.length_append, slice_length]
    congr 1
    simp only [Ctx.popUcopy, Ctx.touch]
    omega

/-- Behind the number of collected bytes the user buffer is not touched. -/
theorem gatherInto_behind (disk : Store) (L : List Word) :
    ∀ (lp remaining : Nat) (buff : Buffer) (k : Nat), (gather disk L lp remaining).length ≤ k →
      gatherInto disk L lp remaining buff k = buff k := by
  induction L with
  | nil => exact fun _ _ _ _ _ => rfl
  | cons e L ih =>
    intro lp remaining buff k hk
    rw [gatherInto]
    split
    · rfl
    rename_i hstop
    rw [gather, if_neg hstop] at hk
    simp only [List.length_append, slice_length] at hk
    rw [ih _ _ _ _ (by omega)]
    exact blit_outside _ _ (Or.inr (by rw [slice_length]; omega))

section

variable {s : Ctx} {es : List Word} {before : Nat → Byte} {page : Nat → Option Buffer}
  {fFlags size pos : Nat}

/-- The pages of the entries from the cursor on. -/
theorem pages_behind {A L : List Word} (shape : Shape s es) (nonzero : ∀ e ∈ es, e ≠ 0)
    (reads : s.io.NoReadFails) (pages : PageReads s page) (split : es = A ++ L) :
    ∀ i e, L[i]? = some e → ∃ bytes, page (A.length + i) = some bytes ∧
      ∀ j, j < blockSize → bytes j = s.disk (getBlockNumber e) j := by
  intro i e he
  have hi : i < L.length := (List.getElem?_eq_some_iff.mp he).1
  have hl := shape.length_le
  have hlen : es.length = A.length + L.length := by rw [split, List.length_append]
  have hword : s.blocks (A.length + i) = e := by
    rw [blocks_behind shape split i hi, he]
    rfl
  have hne : e ≠ 0 := nonzero e (by rw [split]; exact List.mem_append_right _ (List.mem_of_getElem? he))
  refine pages (A.length + i) (getBlockNumber e) ?_
  have hread : ¬ s.io.bread 0 = false := by
    rw [reads 0]
    decide
  have htouch : (s.popBread.touch ((A.length + i : Nat) : Int)).blocks (A.length + i) = e := hword
  unfold ouichefsFileGetBlock
  rw [if_neg (by simp only [indexSlots]; omega), if_neg hread]
  simp only [htouch, if_neg hne]

/-- The call on the list of entries. -/
theorem ouichefsReadCached_run {A L : List Word} {p : Nat} (shape : Shape s es)
    (nonzero : ∀ e ∈ es, e ≠ 0) (calm : Calm s s) (pages : PageReads s page)
    (readable : readFlags fFlags = true) (small : size < 2147483648) (split : es = A ++ L)
    (cut : Cut es pos L p)
    (found : findBlockPos pos s.blocks (i32 ((s.node.iBlocks : Int) - 1)) =
      some (A.length, (p : Int))) (buff : Buffer) :
    (ouichefsReadCached before page s fFlags size pos buff).ret = (gather s.disk L p size).length ∧
    (ouichefsReadCached before page s fFlags size pos buff).pos =
      pos + (gather s.disk L p size).length ∧
    (ouichefsReadCached before page s fFlags size pos buff).buff =
      gatherInto s.disk L p size buff := by
  have hread : ¬ s.io.bread 0 = false := by
    rw [calm.reads 0]
    decide
  have hflags : ¬ readFlags fFlags = false := by
    rw [readable]
    decide
  have hfound' : findBlockPos pos s.popBread.blocks
      (i32 ((s.popBread.node.iBlocks : Int) - 1)) = some (A.length, (p : Int)) := found
  have hcount' : (i32 ((s.popBread.node.iBlocks : Int) - 1) - (A.length : Int)).toNat =
    L.length := count_behind (s := s) shape split
  have hloop : (cachedReadLoop before page L.length s.popBread A.length p size buff).2 =
      ((size : Int) - (gather s.disk L p size).length, gatherInto s.disk L p size buff) :=
    cachedReadLoop_eq before page L s.popBread A.length p size buff calm.copies
      (blocks_behind (s := s) shape split)
      (pages_behind (s := s) shape nonzero calm.reads pages split) cut.le_head
  have hbound := (gather_starts s.disk L p size cut.le_head).2
  have hu : u64 ((size : Int) - ((size : Int) - (gather s.disk L p size).length)) =
      (gather s.disk L p size).length := by
    rw [show (size : Int) - ((size : Int) - (gather s.disk L p size).length) =
      ((gather s.disk L p size).length : Int) by omega]
    exact u64_natCast (by omega)
  have hsize : i32 (size : Int) = size := i32_eq_self (by omega) (by omega)
  unfold ouichefsReadCached
  rw [if_neg hflags]
  simp only [if_neg hread, hfound', hcount', hsize, hloop, hu]
  exact ⟨trivial, trivial, trivial⟩

end

/-! ## Reads within one block -/

section

variable {es L : List Word} {pos size p : Nat}

/-- In terms of the entries from the cursor on. -/
theorem crossesBlocks_iff (cut : Cut es pos L p) :
    CrossesBlocks es pos size ↔ ∃ e d B, L = e :: d :: B ∧ p < getBlockSize e ∧
      getBlockSize e < p + size ∧ 0 < getBlockSize d := by
  constructor
  · rintro ⟨A, e, d, B, hes, hfront, hlt, hcross, hd⟩
    cases cut with
    | start =>
      obtain rfl : A = [] := by
        rcases hfront with h | h
        · omega
        · exact h.2
      exact ⟨e, d, B, hes, by simpa using hlt, by simpa using hcross, hd⟩
    | @inside A' e' B' p hes' hp hle =>
      have hsame : A'.length = A.length := by
        rcases Nat.lt_trichotomy A'.length A.length with h | h | h
        · have := total_le_of_split (hes'.symm.trans hes) h
          omega
        · exact h
        · have := total_le_of_split (hes.symm.trans hes') h
          omega
      obtain ⟨rfl, htail⟩ := List.append_inj (hes'.symm.trans hes) hsame
      cases htail
      exact ⟨e, d, B, rfl, by omega, by omega, hd⟩
  · rintro ⟨e, d, B, hL, hlt, hcross, hd⟩
    cases cut with
    | start => exact ⟨[], e, d, B, hL, Or.inr ⟨rfl, rfl⟩, by simpa using hlt, by simpa using hcross, hd⟩
    | @inside A e' B' p hes hp _ =>
      cases hL
      exact ⟨A, e, d, B, hes, Or.inl (by omega), by omega, by omega, hd⟩

/-- One chunk fills the buffer as the plain reader does. -/
theorem gatherInto_of_within (disk : Store) (buff : Buffer)
    (within : ¬ ∃ e d B, L = e :: d :: B ∧ p < getBlockSize e ∧ getBlockSize e < p + size ∧
      0 < getBlockSize d) :
    gatherInto disk L p size buff = placed buff (gather disk L p size) := by
  have hnone : ∀ b : Buffer, placed b [] = b := by
    intro b
    funext k
    exact blit_outside _ _ (Or.inr (Nat.zero_le _))
  cases L with
  | nil => exact (hnone buff).symm
  | cons e L =>
    rw [gatherInto, gather]
    split
    · exact (hnone buff).symm
    rename_i hstop
    have hrest : size - min (getBlockSize e - p) size = 0 ∨ L = [] ∨
        ∃ d B, L = d :: B ∧ getBlockSize d = 0 := by
      cases L with
      | nil => exact Or.inr (Or.inl rfl)
      | cons d B =>
        by_cases hz : getBlockSize d = 0
        · exact Or.inr (Or.inr ⟨d, B, rfl, hz⟩)
        · left
          by_contra hmore
          exact within ⟨e, d, B, rfl, by omega, by omega, Nat.pos_of_ne_zero hz⟩
    have hdone : ∀ b, gatherInto disk L 0 (size - min (getBlockSize e - p) size) b = b ∧
        gather disk L 0 (size - min (getBlockSize e - p) size) = [] := by
      intro b
      rcases hrest with hz | rfl | ⟨d, B, rfl, hz⟩
      · rw [hz]
        cases L with
        | nil => exact ⟨rfl, rfl⟩
        | cons d B => exact ⟨by simp [gatherInto], by simp [gather]⟩
      · exact ⟨rfl, rfl⟩
      · exact ⟨by simp [gatherInto, hz], by simp [gather, hz]⟩
    simp only [(hdone _).1, (hdone buff).2, List.append_nil]

/-- With a second chunk the last byte of the read is not in the user buffer. -/
theorem gatherInto_of_crossing (disk : Store) (buff : Buffer) {e d : Word} {B : List Word}
    (hL : L = e :: d :: B) (lt : p < getBlockSize e) (cross : getBlockSize e < p + size)
    (pos : 0 < getBlockSize d) :
    gather disk L p size ≠ [] ∧
      gatherInto disk L p size buff ((gather disk L p size).length - 1) =
        buff ((gather disk L p size).length - 1) := by
  have hgo : ¬ (size = 0 ∨ getBlockSize e - p = 0) := by omega
  have hlen : min (getBlockSize e - p) size = getBlockSize e - p := by omega
  have hsecond : 0 < (gather disk (d :: B) 0 (size - (getBlockSize e - p))).length := by
    rw [gather, if_neg (by omega), List.length_append, slice_length]
    omega
  have hgather : gather disk L p size = slice (disk (getBlockNumber e)) p (getBlockSize e - p) ++
      gather disk (d :: B) 0 (size - (getBlockSize e - p)) := by
    rw [hL, gather, if_neg hgo]
    simp only [hlen]
  have hinto : gatherInto disk L p size buff =
      gatherInto disk (d :: B) 0 (size - (getBlockSize e - p))
        (placed buff (slice (disk (getBlockNumber e)) p (getBlockSize e - p))) := by
    rw [hL, gatherInto, if_neg hgo]
    simp only [hlen]
  have htotal : (gather disk L p size).length = getBlockSize e - p +
      (gather disk (d :: B) 0 (size - (getBlockSize e - p))).length := by
    rw [hgather, List.length_append, slice_length]
  refine ⟨fun hnil => ?_, ?_⟩
  · rw [hnil, List.length_nil] at htotal
    omega
  · rw [hinto, gatherInto_behind _ _ _ _ _ _ (by omega)]
    exact blit_outside _ _ (Or.inr (by rw [slice_length]; omega))

end

section

variable {s : Ctx} {before : Nat → Byte} {page : Nat → Option Buffer} {fFlags size pos : Nat}

/-- Both calls, in terms of the entries from the cursor on. -/
theorem agrees_run (wf : WellFormed s) (apart : s.node.indexBlock ∉ numbers s.entries)
    (reads : s.io.NoReadFails) (copies : s.io.NoCopyFails) (pages : PageReads s page)
    (readable : readFlags fFlags = true) (le : pos ≤ s.node.iSize) (small : size < 2147483648) :
    ∃ L p, Cut s.entries pos L p ∧ (Agrees before page s fFlags size pos ↔
      ∀ buff, gatherInto s.disk L p size buff = placed buff (gather s.disk L p size)) := by
  have hshape := wf.shape apart
  have hcalm : Calm s s := ⟨rfl, rfl, reads, copies⟩
  have hnonzero : ∀ e ∈ s.entries, e ≠ 0 := by
    intro e he
    obtain ⟨i, hi, rfl⟩ := List.mem_map.mp he
    exact wf.nonzero i (List.mem_range.mp hi)
  obtain ⟨A, L, p, hsplit, hcut, hfound⟩ := findBlockPos_cut hshape (wf.size ▸ le)
  obtain ⟨t, _, hplain⟩ := ouichefsLightRead_run hshape
    hcalm readable hsplit hcut hfound
  have hcached := @ouichefsReadCached_run s s.entries before page fFlags size pos A L p hshape
    hnonzero hcalm pages readable small hsplit hcut hfound
  refine ⟨L, p, hcut, ?_⟩
  unfold Agrees
  rw [hplain]
  constructor
  · intro h buff
    rw [← (h buff).2.2]
    exact (hcached buff).2.2.symm
  · intro h buff
    obtain ⟨hret, hpos, hbuff⟩ := hcached buff
    exact ⟨hret, hpos, hbuff.trans (h buff)⟩

/-- A read over the boundary of two blocks loses its last byte. -/
theorem not_agrees_of_crosses (wf : WellFormed s) (apart : s.node.indexBlock ∉ numbers s.entries)
    (reads : s.io.NoReadFails) (copies : s.io.NoCopyFails) (pages : PageReads s page)
    (readable : readFlags fFlags = true) (le : pos ≤ s.node.iSize) (small : size < 2147483648)
    (crosses : CrossesBlocks s.entries pos size) : ¬ Agrees before page s fFlags size pos := by
  obtain ⟨L, p, hcut, hiff⟩ := agrees_run wf apart reads copies pages
    readable le small
  rw [hiff]
  intro hall
  obtain ⟨e, d, B, hL, hlt, hcross, hd⟩ := (crossesBlocks_iff hcut).mp crosses
  obtain ⟨x, hx⟩ : ∃ x, x = (gather s.disk L p size).getD ((gather s.disk L p size).length - 1) 0 :=
    ⟨_, rfl⟩
  -- a buffer with a different byte at the last place
  obtain ⟨hne, hkept⟩ := gatherInto_of_crossing s.disk (fun _ => x + 1) hL hlt hcross hd
  have hpos := List.length_pos_iff.mpr hne
  have hplace : placed (fun _ => x + 1) (gather s.disk L p size)
      ((gather s.disk L p size).length - 1) = x := by
    rw [hx]
    exact blit_inside _ _ (Nat.zero_le _) (by omega)
  rw [hall, hplace] at hkept
  have hone : ∀ y : Byte, y ≠ y + 1 := by decide
  exact hone x hkept

end

/-- The two readers agree exactly on the reads that do not cross from a block
into a next one that has bytes. -/
theorem agrees_iff (before : Nat → Byte) (page : Nat → Option Buffer) (s : Ctx)
    (fFlags size pos : Nat) (wf : WellFormed s) (apart : s.node.indexBlock ∉ numbers s.entries)
    (reads : s.io.NoReadFails) (copies : s.io.NoCopyFails) (pages : PageReads s page)
    (readable : readFlags fFlags = true) (le : pos ≤ s.node.iSize) (small : size < 2147483648) :
    Agrees before page s fFlags size pos ↔ ¬ CrossesBlocks s.entries pos size := by
  constructor
  · intro hagrees crosses
    exact not_agrees_of_crosses wf apart reads copies pages readable le small crosses hagrees
  · intro within
    obtain ⟨L, p, hcut, hiff⟩ := agrees_run wf apart reads copies
      pages readable le small
    rw [hiff]
    rw [crossesBlocks_iff hcut] at within
    exact fun buff => gatherInto_of_within s.disk buff within

/-- The pages of a file whose blocks are all in the page cache. -/
def filePages (s : Ctx) (i : Nat) : Option Buffer := some (s.disk (getBlockNumber (s.blocks i)))

theorem filePages_reads (s : Ctx) : PageReads s (filePages s) := by
  intro i bno h
  refine ⟨_, rfl, ?_⟩
  intro k _
  unfold ouichefsFileGetBlock at h
  split at h
  · cases h
  split at h
  · cases h
  simp only at h
  split at h
  · cases h
  · cases h
    rfl

/-- From the second byte up to the end of the first of two blocks. -/
theorem agrees_iff_within : Agrees (fun _ => 0) (filePages twoBlockCtx) twoBlockCtx 0 4095 1 := by
  have hinv := twoBlockCtx_inv
  refine (agrees_iff (fun _ => 0) (filePages twoBlockCtx) twoBlockCtx 0 4095 1
    (hinv.shape.wellFormed hinv.held.nonzero hinv.size) (hinv.shape.live hinv.held).apart
    (fun _ => rfl) (fun _ => rfl) (filePages_reads _) (by decide) ?_ (by decide)).mpr ?_
  · rw [hinv.size]
    decide +kernel
  rintro ⟨A, e, d, B, hes, _, _, hcross, _⟩
  rw [hinv.shape.entries_eq] at hes
  match A with
  | [] =>
    obtain ⟨rfl, _⟩ := List.cons.inj hes
    have hfull : getBlockSize (setBlockSize (freshEntry 10) 4096) = 4096 := by decide +kernel
    rw [hfull] at hcross
    simp at hcross
  | [_] =>
    have hlen := congrArg List.length hes
    simp [twoBlocks] at hlen
  | _ :: _ :: A =>
    have hlen := congrArg List.length hes
    simp [twoBlocks] at hlen

/-- The second block of a file of 4097 bytes is copied over the first one. -/
theorem agrees_not_always : WellFormed twoBlockCtx ∧ twoBlockCtx.node.iSize = 4097 ∧
    PageReads twoBlockCtx (filePages twoBlockCtx) ∧
    ¬ Agrees (fun _ => 0) (filePages twoBlockCtx) twoBlockCtx 0 4097 0 := by
  have hinv := twoBlockCtx_inv
  have hwf := hinv.shape.wellFormed hinv.held.nonzero hinv.size
  have hsize : twoBlockCtx.node.iSize = 4097 := by
    rw [hinv.size]
    decide +kernel
  refine ⟨hwf, hsize, filePages_reads _, ?_⟩
  refine not_agrees_of_crosses hwf (hinv.shape.live hinv.held).apart (fun _ => rfl) (fun _ => rfl)
    (filePages_reads _) (by decide) (Nat.zero_le _) (by decide) ?_
  rw [hinv.shape.entries_eq]
  exact ⟨[], _, _, [], rfl, Or.inr ⟨rfl, rfl⟩, by decide +kernel, by decide +kernel, by decide +kernel⟩

end CachedRead
