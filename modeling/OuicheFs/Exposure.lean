import OuicheFs.Streaming
import OuicheFs.Overwrite

/-!
# What a write behind the end exposes

Nothing is ever written to a gap. Its bytes are the padding of the last block
and whatever the blocks taken for it happened to hold. The allocator takes the
lowest free blocks first, so these places are known before the call.
-/
namespace Exposure

open Bits CInt ByteBuffer IndexEntry Allocator FileContext Layout OuicheFile OuicheWrite OuicheRead
  Reserve Insert GapFill LightWrite FileRun Streaming PlainWrite Overwrite

/-- The places that become a gap when `ouichefs_light_write` is called at `pos`:
behind the recorded bytes of the last block, then in the lowest free blocks. -/
inductive LightExposed (s : Ctx) (pos : Nat) : Nat → Nat → Prop
  | slack (e : Word) (k : Nat) :
      s.entries.getLast? = some e → getBlockSize e ≤ k → k < blockSize →
      s.node.iSize + (k - getBlockSize e) < pos → LightExposed s pos (getBlockNumber e) k
  | fresh (b k : Nat) :
      b < s.sbi.nrBlocks → s.sbi.bfreeBitmap b = true → k < blockSize →
      s.node.iSize + lastRoom s.entries + blockSize * popcount s.sbi.bfreeBitmap b + k < pos →
      LightExposed s pos b k

/-- The same for `ouichefs_write`, which fills the blocks in order. -/
inductive PlainExposed (s : Ctx) (pos : Nat) : Nat → Nat → Prop
  | old (i k : Nat) :
      i < s.node.iBlocks - 1 → k < blockSize → s.node.iSize ≤ blockSize * i + k →
      blockSize * i + k < pos → PlainExposed s pos (s.blocks i).toNat k
  | fresh (b k : Nat) :
      b < s.sbi.nrBlocks → s.sbi.bfreeBitmap b = true → k < blockSize →
      s.node.iSize ≤ blockSize * (s.node.iBlocks - 1 + popcount s.sbi.bfreeBitmap b) + k →
      blockSize * (s.node.iBlocks - 1 + popcount s.sbi.bfreeBitmap b) + k < pos →
      PlainExposed s pos b k

/-- Every byte delivered from a place between `old` and `pos` is zero. -/
def ZeroBetween (old pos : Nat) (read : Nat → Nat → List Byte) : Prop :=
  ∀ size p i b, (read size p)[i]? = some b → old ≤ p + i → p + i < pos → b = 0

/-- If the call writes something behind the end, the gap reads as zeros. -/
def LightGapZero (s : Ctx) (fFlags : Nat) (data : List Byte) (pos : Nat) : Prop :=
  s.node.iSize < startPos s fFlags pos → 0 < (ouichefsLightWrite s fFlags data pos).ret →
    ∀ before io rFlags, ZeroBetween s.node.iSize (startPos s fFlags pos) fun size p =>
      (ouichefsLightRead before { (ouichefsLightWrite s fFlags data pos).ctx with io := io } rFlags
        size p).data

def PlainGapZero (s : Ctx) (fFlags : Nat) (data : List Byte) (pos : Nat) : Prop :=
  s.node.iSize < startPos s fFlags pos → 0 < (ouichefsWrite s fFlags data pos).ret →
    ∀ before io rFlags, ZeroBetween s.node.iSize (startPos s fFlags pos) fun size p =>
      (ouichefsRead before { (ouichefsWrite s fFlags data pos).ctx with io := io } rFlags
        size p).data

/-! ## Writes with insertion -/

/-- Whatever fails, the loop delivers a prefix of what it could collect. -/
theorem lightReadLoop_delivers (before : Nat → Byte) (L : List Word) :
    ∀ (s : Ctx) (k lp remaining : Nat),
      (∀ i, i < L.length → s.blocks (k + i) = L[i]?.getD 0) →
      (∀ e, L.head? = some e → lp ≤ getBlockSize e) →
      (lightReadLoop before L.length s k lp remaining).2 <+: gather s.disk L lp remaining := by
  induction L with
  | nil =>
    intro s k lp remaining _ _
    exact List.nil_prefix
  | cons e L ih =>
    intro s k lp remaining hblocks hlp
    have hk : s.blocks k = e := by simpa using hblocks 0 (by simp)
    have hat : (s.touch k).blocks k = e := hk
    have hle : lp ≤ getBlockSize e := hlp e rfl
    have hs := getBlockSize_le e
    have havail : u64 ((getBlockSize e : Int) - lp) = getBlockSize e - lp := u64_sub hle (by omega)
    rw [List.length_cons, lightReadLoop, gather]
    split
    · exact List.nil_prefix
    rename_i hrem
    simp only [hat, havail]
    split
    · exact List.nil_prefix
    split
    · exact List.nil_prefix
    rename_i hdry
    split
    · exact List.nil_prefix
    rw [if_neg (not_or.mpr ⟨hrem, hdry⟩), peek_eq_slice]
    refine (List.prefix_append_right_inj _).mpr ?_
    refine ih (s.touch k).popBread.popUcopy (k + 1) 0 _ ?_ (fun _ _ => Nat.zero_le _)
    intro i hi
    have hslot : s.blocks (k + (i + 1)) = L[i]?.getD 0 := hblocks (i + 1) (by simpa using hi)
    rw [show k + 1 + i = k + (i + 1) by omega]
    exact hslot

theorem prefix_getElem? {xs ys : List Byte} (h : xs <+: ys) {i : Nat} {b : Byte}
    (hb : xs[i]? = some b) : ys[i]? = some b := by
  obtain ⟨zs, rfl⟩ := h
  obtain ⟨hi, _⟩ := List.getElem?_eq_some_iff.mp hb
  rw [List.getElem?_append_left hi, hb]

section

variable {s : Ctx} {es : List Word}

/-- Whatever fails, a read delivers a prefix of the content behind its position. -/
theorem ouichefsLightRead_behind (before : Nat → Byte) (fFlags size : Nat) {pos : Nat}
    (shape : Shape s es) (le : pos ≤ total es) :
    (ouichefsLightRead before s fFlags size pos).data <+: (bytesOf s.disk es).drop pos := by
  obtain ⟨A, L, p, hsplit, hcut, hfound⟩ := findBlockPos_cut shape le
  have hfound' : findBlockPos pos s.popBread.blocks
      (i32 ((s.popBread.node.iBlocks : Int) - 1)) = some (A.length, (p : Int)) := hfound
  have hcount : (i32 ((s.popBread.node.iBlocks : Int) - 1) - (A.length : Int)).toNat =
    L.length := count_behind (s := s) shape hsplit
  unfold ouichefsLightRead
  split
  · exact List.nil_prefix
  split
  · exact List.nil_prefix
  simp only [hfound', hcount]
  rw [← hcut.prefix_content]
  have hcollect := gather_starts s.disk L p size hcut.le_head
  exact (lightReadLoop_delivers before L s.popBread A.length p size
    (blocks_behind (s := s) shape hsplit) hcut.le_head).trans hcollect.1

theorem zero_of_blocks (disk : Store) (fresh : List Nat) : ∀ n,
    (∀ j b k, fresh[j]? = some b → k < 4096 → 4096 * j + k < n → disk b k = 0) →
    ∀ x ∈ (fresh.flatMap fun b => slice (disk b) 0 4096).take n, x = 0 := by
  induction fresh with
  | nil =>
    intro n _ x hx
    simp at hx
  | cons b fresh ih =>
    intro n hzero x hx
    rw [List.flatMap_cons, List.take_append, slice_length] at hx
    rcases List.mem_append.mp hx with hin | hrest
    · obtain ⟨k, hk, rfl⟩ := List.getElem_of_mem hin
      simp only [List.length_take, slice_length] at hk
      simp only [List.getElem_take, slice, List.getElem_map, List.getElem_range, Nat.zero_add]
      exact hzero 0 b k rfl (by omega) (by omega)
    · refine ih (n - 4096) ?_ x hrest
      intro j c k hc hk hlt
      exact hzero (j + 1) c k hc hk (by omega)

/-- With zeros in all exposed places the gap is zero. -/
theorem gapBytes_zero {pos : Nat} {sbi' : SbInfo} {fresh : List Nat} (shape : Shape s es)
    (size : s.node.iSize = total es) (a : Allocated s.sbi sbi' fresh)
    (clean : ∀ b k, LightExposed s pos b k → s.disk b k = 0) :
    ∀ x ∈ gapBytes s.disk es fresh (pos - total es), x = 0 := by
  intro x hx
  have hentries := shape.entries_eq
  rw [gapBytes, List.take_append, lastSlack_length] at hx
  rcases List.mem_append.mp hx with hslack | hblocks
  · rcases List.eq_nil_or_concat es with rfl | ⟨A, e, rfl⟩
    · simp [lastSlack] at hslack
    rw [List.concat_eq_append] at hslack hentries size
    obtain ⟨k, hk, rfl⟩ := List.getElem_of_mem hslack
    simp only [lastSlack, List.getLast?_concat, Option.map_some, Option.getD_some,
      List.length_take, slackBytes_length] at hk
    simp only [lastSlack, List.getLast?_concat, Option.map_some, Option.getD_some,
      List.getElem_take, slackBytes, slice, List.getElem_map, List.getElem_range]
    refine clean _ _ (LightExposed.slack e _ ?_ (by omega) (by unfold blockSize; omega) (by omega))
    rw [hentries]
    simp
  · refine zero_of_blocks s.disk fresh _ ?_ x hblocks
    intro j b k hb hk hlt
    have hfree := a.were_free b (List.mem_of_getElem? hb)
    refine clean b k (LightExposed.fresh b k hfree.2.1 hfree.2.2 hk ?_)
    rw [a.order j b hb, hentries, size]
    unfold blockSize
    omega

/-- A write with insertion behind the end: if the exposed places hold zeros, the
gap reads as zeros. -/
theorem lightGapZero_of_clean (h : FileInv s es) (fFlags : Nat) (data : List Byte) (pos : Nat)
    (clean : data ≠ [] → ∀ b k, LightExposed s (startPos s fFlags pos) b k → s.disk b k = 0) :
    LightGapZero s fFlags data pos := by
  intro gap wrote before io rFlags size p i b hb hlo hhi
  obtain ⟨q, hq⟩ : ∃ q, q = startPos s fFlags pos := ⟨_, rfl⟩
  obtain ⟨fresh, es', g, m, w⟩ := @ouichefsLightWrite_spec _ _ pos data h.shape h.held h.size
    fFlags (addressable_of_small h.small _)
  rw [← hq] at gap clean hhi w
  have hsize := h.size
  have hm : 0 < m := by
    have := w.ret (by omega)
    omega
  have hne : data ≠ [] := List.length_pos_iff.mp (Nat.lt_of_lt_of_le hm w.le)
  have hlen := w.filled hm
  have hsource : g = gapBytes s.disk es fresh (q - total es) := by
    rcases w.source with hnil | hg
    · rw [hnil, List.length_nil] at hlen
      omega
    · exact hg
  have hall : (bytesOf s.disk es ++ g).length = q := by
    rw [List.length_append, bytesOf_length]
    omega
  have hbytes : bytesOf (ouichefsLightWrite s fFlags data pos).ctx.disk es' =
      bytesOf s.disk es ++ (g ++ data.take m) := by
    rw [w.bytes, List.take_of_length_le (Nat.le_of_eq hall),
      List.drop_of_length_le (Nat.le_of_eq hall), List.append_nil, List.append_assoc]
  have hp : p ≤ total es' := by
    have := congrArg List.length hbytes
    simp only [bytesOf_length, List.length_append] at this
    omega
  have hpre := ouichefsLightRead_behind
    (s := { (ouichefsLightWrite s fFlags data pos).ctx with io := io }) before rFlags size
    (w.shape.congr (fun _ _ => rfl) rfl rfl) hp
  have hat := prefix_getElem? hpre hb
  -- the place lies in the gap, behind the old content and before the data
  change (List.drop p (bytesOf (ouichefsLightWrite s fFlags data pos).ctx.disk es'))[i]? = some b
    at hat
  rw [hbytes, List.getElem?_drop, List.getElem?_append_right (by rw [bytesOf_length]; omega),
    bytesOf_length, List.getElem?_append_left (by omega)] at hat
  refine gapBytes_zero h.shape hsize w.allocated (clean hne) b ?_
  rw [← hsource]
  exact List.mem_of_getElem? hat

end

/-! ## Plain writes -/

section

variable {s : Ctx} {bs : List Nat}

theorem copyFromUser_before (h : PlainInv s bs) {lbi lp : Nat} (lt : lbi < bs.length) (len : Nat)
    (src : Nat → Byte) {o : Nat} (below : o < blockSize * lbi + lp)
    (inside : o / blockSize < bs.length) :
    fileByte (s.copyFromUser (bs[lbi]?.getD 0) lp len src).1.disk bs o = fileByte s.disk bs o := by
  have hset : ∀ src', fileByte (s.disk.set (bs[lbi]?.getD 0)
      (blit (s.disk (bs[lbi]?.getD 0)) lp len src')) bs o = fileByte s.disk bs o := by
    intro src'
    unfold fileByte
    by_cases hblock : o / blockSize = lbi
    · have hdiv := Nat.div_add_mod o blockSize
      rw [hblock] at hdiv
      rw [hblock, set_self, blit_outside _ _ (by omega)]
    · rw [set_of_ne _ _ (h.other inside lt hblock)]
  unfold Ctx.copyFromUser
  split
  · exact hset _
  · exact hset _

/-- The copies go to places from the cursor on, whatever fails. -/
theorem writeLoop_before (buff : List Byte) (n : Nat) :
    ∀ (s : Ctx) (lbi lp remaining : Nat), PlainInv s bs → (∀ i, i < n → lbi + i < bs.length) →
      lp ≤ blockSize → ∀ o, o < blockSize * lbi + lp → o / blockSize < bs.length →
        fileByte (writeLoop buff n s lbi lp remaining).1.disk bs o = fileByte s.disk bs o := by
  induction n with
  | zero => exact fun _ _ _ _ _ _ _ _ _ _ => rfl
  | succ n ih =>
    intro s lbi lp remaining h hle hlp o hlt ho
    have h' : PlainInv (s.touch lbi).popBread bs := h.congr rfl rfl rfl rfl
    have hin : lbi < bs.length := hle 0 (by omega)
    have hslot : ((s.touch lbi).blocks lbi).toNat = bs[lbi]?.getD 0 := h.slot hin
    rw [writeLoop]
    split
    · rfl
    simp only
    split
    · rfl
    obtain ⟨u, hu⟩ : ∃ u, u = ((s.touch lbi).popBread.copyFromUser
        ((s.touch lbi).blocks lbi).toNat lp (min (blockSize - lp) remaining)
        (fun k => buff.getD (buff.length - remaining + k) 0)).1 := ⟨_, rfl⟩
    have hplain : PlainInv u bs := by
      rw [hu]
      exact h'.bytesOnly (copyFromUser_bytesOnly (h.slot_mem hin) _ _ _ _)
    have hcopy : fileByte u.disk bs o = fileByte s.disk bs o := by
      rw [hu, hslot]
      exact copyFromUser_before h' hin _ _ hlt ho
    rw [← hu]
    split
    · exact hcopy
    · rw [ih u (lbi + 1) 0 _ hplain (fun i hi => by
        have := hle (i + 1) (by omega)
        omega) (Nat.zero_le _) o (by rw [Nat.mul_succ]; omega) ho, hcopy]

/-- A call that has written something behind the end: the file reaches past the
position, its blocks reach to its end and nothing before the position has
changed. -/
structure Bridged (s : Ctx) (bs fresh : List Nat) (pos : Nat) (t : Ctx) : Prop where
  plain : PlainInv t (bs ++ fresh)
  allocated : Allocated s.sbi t.sbi fresh
  past : pos < t.node.iSize
  reach : t.node.iSize ≤ blockSize * (bs ++ fresh).length
  before : ∀ o, o < pos → fileByte t.disk (bs ++ fresh) o = fileByte s.disk (bs ++ fresh) o

theorem ouichefsWrite_bridged (h : PlainInv s bs) (fFlags : Nat) (data : List Byte) (pos : Nat)
    (gap : s.node.iSize < startPos s fFlags pos) (wrote : 0 < (ouichefsWrite s fFlags data pos).ret) :
    ∃ fresh, Bridged s bs fresh (startPos s fFlags pos) (ouichefsWrite s fFlags data pos).ctx := by
  obtain ⟨q, hq⟩ : ∃ q, q = startPos s fFlags pos := ⟨_, rfl⟩
  rcases ouichefsWrite_cases s fFlags data pos with ⟨_, hret, _⟩ | ⟨hmax, hspace, f⟩
  · rw [hret] at wrote
    exact absurd wrote (by decide)
  rw [← hq] at gap hmax hspace f ⊢
  have hl := h.shape.length_le
  have hib := h.shape.iBlocks
  rw [freshEntries_length] at hl hib
  have hnb := nbAllocs_eq hib hl hmax (by omega)
  obtain ⟨nb, hnbdef⟩ : ∃ nb, nb = nbAllocs s data.length q := ⟨_, rfl⟩
  rw [← hnbdef] at hnb hspace f
  obtain ⟨mt, ct, hnode⟩ := f.node
  have hwritten := f.ret
  have hread : s.io.bread 0 = true := by
    by_contra hno
    have hbody : writeBody s data q nb = (s.popBread, data.length) := by
      unfold writeBody
      rw [if_pos (by simpa using hno)]
    rw [hbody] at hwritten
    omega
  obtain ⟨fresh, r, hr, hbody⟩ := writeBody_run h data q hspace (hnbdef ▸ h.nbAllocs_lt _ _) hread
  have hlength : (bs ++ fresh).length = bs.length + nb := by rw [List.length_append, hr.length]
  have hsize : (ouichefsWrite s fFlags data pos).ctx.node.iSize =
      max s.node.iSize (q + (data.length - (writeBody s data q nb).2)) := by
    rw [hnode]
    simp only [writeBody_iSize]
  have hreach : (ouichefsWrite s fFlags data pos).ctx.node.iSize ≤
      blockSize * (bs ++ fresh).length := by
    rw [hsize, hlength]
    unfold blockSize
    omega
  have hdiv := Nat.div_add_mod q blockSize
  have hmod := Nat.mod_lt q (show 0 < blockSize by decide)
  have hin : ∀ i, i < bs.length + nb - q / blockSize → q / blockSize + i < (bs ++ fresh).length := by
    rw [hlength]
    omega
  refine ⟨fresh, ?_, ?_, by rw [hsize]; omega, hreach, ?_⟩
  · have hplain := hr.plain.bytesOnly (hr.plain.copies data (q % blockSize) data.length hin)
    rw [← hbody] at hplain
    exact hplain.congr f.disk f.sbi (by rw [hnode]) (by rw [hnode])
  · have hsbi := (hr.plain.copies data (q % blockSize) data.length hin).sbi
    rw [f.sbi, hbody, hsbi]
    exact hr.allocated
  · intro o ho
    have hblock : o / blockSize < (bs ++ fresh).length := by
      apply Nat.div_lt_of_lt_mul
      have : q < (ouichefsWrite s fFlags data pos).ctx.node.iSize := by rw [hsize]; omega
      omega
    rw [f.disk, hbody, writeLoop_before data _ r.1 _ _ _ hr.plain hin (Nat.le_of_lt hmod) o
      (by omega) hblock, extended_fileByte hr hblock]

theorem nonempty_of_ret {fFlags pos : Nat} {data : List Byte}
    (wrote : 0 < (ouichefsWrite s fFlags data pos).ret) : data ≠ [] := by
  rintro rfl
  rcases ouichefsWrite_cases s fFlags [] pos with ⟨_, hret, _⟩ | ⟨_, _, f⟩
  · rw [hret] at wrote
    exact absurd wrote (by decide)
  · rw [f.ret, List.length_nil, Nat.zero_sub] at wrote
    exact absurd wrote (by decide)

/-- The bytes the loop of `ouichefs_read` delivers are those of the file from the
cursor on, whatever fails. -/
theorem readLoop_bytes (before : Nat → Byte) {last : Nat} (short : last ≤ blockSize) (n : Nat) :
    ∀ (s : Ctx) (lbi lp remaining : Nat), PlainInv s bs → lbi + n = bs.length → lp ≤ blockSize →
      (n = 1 → lp ≤ last) → ∀ i b,
      (readLoop before bs.length last n s lbi lp remaining).2[i]? = some b →
        b = fileByte s.disk bs (blockSize * lbi + lp + i) := by
  induction n with
  | zero =>
    intro s lbi lp remaining _ _ _ _ i b hb
    simp [readLoop] at hb
  | succ n ih =>
    intro s lbi lp remaining h hn hlp hlast i b hb
    have hlt : lbi < bs.length := by omega
    obtain ⟨avail, havail⟩ : ∃ avail, avail = if n = 0 then last - lp else blockSize - lp := ⟨_, rfl⟩
    have hfits : avail ≤ blockSize - lp := by
      rw [havail]
      split <;> omega
    have hslot : (if 0 ≤ (lbi : Int) then (((s.touch lbi).blocks (lbi : Int).toNat)).toNat
        else (le32 before (4 * (-(lbi : Int)).toNat)).toNat) = bs[lbi]?.getD 0 := by
      rw [if_pos (by omega), Int.toNat_natCast]
      exact h.slot hlt
    have hsize : (if (lbi : Int) = (bs.length : Int) - 1 then u64 ((last : Int) - lp)
        else u64 ((blockSize : Int) - lp)) = avail := by
      rw [available_eq short hlp (fun h => hlast (by omega)), havail]
      simp only [show lbi + 1 = bs.length ↔ n = 0 by omega]
    rw [readLoop] at hb
    simp only [hslot, hsize] at hb
    split at hb
    · cases hb
    split at hb
    · cases hb
    split at hb
    · cases hb
    split at hb
    · cases hb
    rw [peek_eq before _ (by omega)] at hb
    have hlen : (fileBytes (s.touch lbi).popBread.disk bs (blockSize * lbi + lp)
        (min avail remaining)).length = min avail remaining := by simp [fileBytes]
    by_cases hi : i < min avail remaining
    · rw [List.getElem?_append_left (by omega), fileBytes, List.getElem?_map,
        List.getElem?_range hi] at hb
      exact (Option.some.inj hb).symm
    · rw [List.getElem?_append_right (by omega), hlen] at hb
      -- there is a next block only if this one has been read to its end
      have hmore : n ≠ 0 := by
        rintro rfl
        simp [readLoop] at hb
      have hwhole : min avail remaining = blockSize - lp := by
        rw [if_neg hmore] at havail
        by_contra hne
        have hnone : remaining - min avail remaining = 0 := by omega
        rw [hnone, readLoop_none] at hb
        cases hb
      have hcast : ((lbi : Int) + 1) = ((lbi + 1 : Nat) : Int) := by omega
      rw [hcast] at hb
      have hnext := ih (s.touch lbi).popBread.popUcopy (lbi + 1) 0 (remaining - min avail remaining)
        (h.congr rfl rfl rfl rfl) (by omega) (Nat.zero_le _) (fun _ => Nat.zero_le _) _ b hb
      have hplace : blockSize * (lbi + 1) + 0 + (i - min avail remaining) =
          blockSize * lbi + lp + i := by
        rw [Nat.mul_succ]
        omega
      rw [hplace] at hnext
      exact hnext

/-- Every byte a read delivers is the one of the file at its place. -/
theorem ouichefsRead_bytes (before : Nat → Byte) (fFlags size : Nat) {pos : Nat} (h : PlainInv s bs)
    (lt : pos < s.node.iSize) (reach : s.node.iSize ≤ blockSize * bs.length) {i : Nat} {b : Byte}
    (hb : (ouichefsRead before s fFlags size pos).data[i]? = some b) :
    b = fileByte s.disk bs (pos + i) := by
  obtain ⟨last, hlast⟩ : ∃ last, last = if s.node.iSize % blockSize = 0 ∧ s.node.iSize ≠ 0 then
    blockSize else s.node.iSize % blockSize := ⟨_, rfl⟩
  have hshort : last ≤ blockSize := by
    have hmod := Nat.mod_lt s.node.iSize (show 0 < blockSize by decide)
    rw [hlast]
    split <;> omega
  obtain ⟨q, hq⟩ : ∃ q, q = pos / blockSize := ⟨_, rfl⟩
  obtain ⟨r, hr⟩ : ∃ r, r = pos % blockSize := ⟨_, rfl⟩
  have hdiv : blockSize * q + r = pos := by
    rw [hq, hr]
    exact Nat.div_add_mod pos blockSize
  have hmod : r < blockSize := by
    rw [hr]
    exact Nat.mod_lt pos (by decide)
  have hle : q < bs.length := by
    unfold blockSize at hdiv hmod reach
    omega
  -- in the last block the file ends behind the position
  have hend : bs.length - q = 1 → r ≤ last := by
    intro hone
    rw [hlast]
    unfold blockSize at *
    split <;> omega
  by_cases hflags : readFlags fFlags = false
  · unfold ouichefsRead at hb
    rw [if_pos hflags] at hb
    cases hb
  by_cases hread : s.io.bread 0 = false
  · unfold ouichefsRead at hb
    rw [if_neg hflags, if_pos hread] at hb
    cases hb
  rw [ouichefsRead_loop before h size (by simpa using hflags) (by simpa using hread) hlast hq hr
    (Nat.le_of_lt hle) rfl] at hb
  have hbyte := readLoop_bytes before hshort (bs.length - q) s.popBread q r size
    (h.congr rfl rfl rfl rfl) (Nat.add_sub_of_le (Nat.le_of_lt hle)) (Nat.le_of_lt hmod) hend i b hb
  rw [hdiv] at hbyte
  exact hbyte

/-- A plain write behind the end: if the exposed places hold zeros, the gap reads
as zeros. -/
theorem plainGapZero_of_clean (h : PlainInv s bs) (fFlags : Nat) (data : List Byte) (pos : Nat)
    (clean : data ≠ [] → ∀ b k, PlainExposed s (startPos s fFlags pos) b k → s.disk b k = 0) :
    PlainGapZero s fFlags data pos := by
  intro gap wrote before io rFlags size p i b hb hlo hhi
  have clean := clean (nonempty_of_ret wrote)
  obtain ⟨fresh, w⟩ := ouichefsWrite_bridged h fFlags data pos gap wrote
  obtain ⟨q, hq⟩ : ∃ q, q = startPos s fFlags pos := ⟨_, rfl⟩
  rw [← hq] at gap clean hhi w
  have hpast := w.past
  have hreach := w.reach
  have hio : PlainInv { (ouichefsWrite s fFlags data pos).ctx with io := io } (bs ++ fresh) :=
    w.plain.congr rfl rfl rfl rfl
  have hbyte : b = fileByte (ouichefsWrite s fFlags data pos).ctx.disk (bs ++ fresh) (p + i) :=
    ouichefsRead_bytes before rFlags size hio
      (show p < (ouichefsWrite s fFlags data pos).ctx.node.iSize by omega) hreach hb
  rw [hbyte, w.before _ hhi]
  have hib := h.shape.iBlocks
  rw [freshEntries_length] at hib
  obtain ⟨o, ho⟩ : ∃ o, o = p + i := ⟨_, rfl⟩
  rw [← ho] at hlo hhi ⊢
  have hdiv := Nat.div_add_mod o blockSize
  have hmod := Nat.mod_lt o (show 0 < blockSize by decide)
  rw [List.length_append] at hreach
  have hblock : o / blockSize < bs.length + fresh.length := Nat.div_lt_of_lt_mul (by omega)
  unfold fileByte
  rcases Nat.lt_or_ge (o / blockSize) bs.length with hold | hnew
  · rw [List.getElem?_append_left hold, ← h.slot hold]
    exact clean _ _ (PlainExposed.old _ _ (by omega) hmod (by omega) (by omega))
  · obtain ⟨c, hc⟩ : ∃ c, fresh[o / blockSize - bs.length]? = some c :=
      ⟨_, List.getElem?_eq_getElem (by omega)⟩
    rw [List.getElem?_append_right hnew, hc, Option.getD_some]
    have hfree := w.allocated.were_free c (List.mem_of_getElem? hc)
    have hplace : blockSize * (s.node.iBlocks - 1 + popcount s.sbi.bfreeBitmap c) + o % blockSize =
        o := by
      rw [w.allocated.order _ c hc, hib, Nat.add_sub_cancel, Nat.add_sub_cancel' hnew]
      exact hdiv
    exact clean _ _ (PlainExposed.fresh _ _ hfree.2.1 hfree.2.2 hmod (by omega) (by omega))

end

end Exposure
