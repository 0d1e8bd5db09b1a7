import OuicheFs.Streaming

/-!
# What one read delivers

A call of `ouichefs_light_read` delivers the content from the cursor on, up to
the size asked for or the end of the file, unless it comes to a block that has
no byte left behind the cursor.
-/
namespace Delivery

open CInt ByteBuffer IndexEntry Allocator FileContext Layout Search OuicheFile OuicheWrite
  OuicheRead LightWrite FileRun Streaming

/-- `logical_block_index` and `logical_pos` when the copy loop of
`ouichefs_light_read` is left, by any of its ways out. -/
def lightReadCursor : Nat → Ctx → Nat → Int → Nat → Nat × Int
  | 0, _, lbi, lp, _ => (lbi, lp)
  | n + 1, s, lbi, lp, remaining =>
    if remaining = 0 then (lbi, lp) else
    let s := s.touch lbi
    let bno := s.blocks lbi
    if s.io.bread 0 = false then (lbi, lp) else
    let s := s.popBread
    let available := u64 ((getBlockSize bno : Int) - lp)
    if available = 0 then (lbi, lp) else
    let len := min available remaining
    if s.io.ucopy 0 ≠ none then (lbi, lp) else
    lightReadCursor n s.popUcopy (lbi + 1) 0 (remaining - len)

/-- The same for the whole call. -/
def ouichefsLightReadCursor (s : Ctx) (size pos : Nat) : Option (Nat × Int) :=
  let nbBlocks := i32 ((s.node.iBlocks : Int) - 1)
  (findBlockPos pos s.blocks nbBlocks).map fun p =>
    lightReadCursor (nbBlocks - p.1).toNat s.popBread p.1 p.2 size

theorem peek_length (before : Nat → Byte) (b : Buffer) (off : Int) (len : Nat) :
    (peek before b off len).length = len := by
  simp [peek]

/-- The cursor stands behind the blocks that the loop copies from: with fewer of them it
copies less, and with no others anything more. -/
theorem lightReadCursor_least (before : Nat → Byte) (n : Nat) :
    ∀ (s : Ctx) (lbi : Nat) (lp : Int) (remaining : Nat), ∃ m,
      lightReadCursor n s lbi lp remaining = (lbi + m, if m = 0 then lp else 0) ∧ m ≤ n ∧
        (lightReadLoop before m s lbi lp remaining).2 =
          (lightReadLoop before n s lbi lp remaining).2 ∧
        ∀ k, k < m → (lightReadLoop before k s lbi lp remaining).2.length <
          (lightReadLoop before n s lbi lp remaining).2.length := by
  induction n with
  | zero => exact fun s lbi lp remaining => ⟨0, rfl, Nat.le_refl _, rfl, fun k hk => by omega⟩
  | succ n ih =>
    intro s lbi lp remaining
    rw [lightReadCursor, lightReadLoop]
    have hstop : ∀ r : Ctx × List Byte, r.2 = [] → ∃ m,
        ((lbi, lp) : Nat × Int) = (lbi + m, if m = 0 then lp else 0) ∧ m ≤ n + 1 ∧
          (lightReadLoop before m s lbi lp remaining).2 = r.2 ∧
          ∀ k, k < m → (lightReadLoop before k s lbi lp remaining).2.length < r.2.length := by
      intro r hr
      exact ⟨0, rfl, Nat.zero_le _, hr.symm, fun k hk => by omega⟩
    by_cases hrem : remaining = 0
    · rw [if_pos hrem, if_pos hrem]
      exact hstop _ rfl
    rw [if_neg hrem, if_neg hrem]
    simp only
    by_cases hread : (s.touch lbi).io.bread 0 = false
    · rw [if_pos hread, if_pos hread]
      exact hstop _ rfl
    rw [if_neg hread, if_neg hread]
    by_cases havail : u64 ((getBlockSize ((s.touch lbi).blocks lbi) : Int) - lp) = 0
    · rw [if_pos havail, if_pos havail]
      exact hstop _ rfl
    rw [if_neg havail, if_neg havail]
    by_cases hcopy : (s.touch lbi).popBread.io.ucopy 0 ≠ none
    · rw [if_pos hcopy, if_pos hcopy]
      exact hstop _ rfl
    rw [if_neg hcopy, if_neg hcopy]
    obtain ⟨m, hm, hle, hsame, hless⟩ := ih (s.touch lbi).popBread.popUcopy (lbi + 1) 0
      (remaining - min (u64 ((getBlockSize ((s.touch lbi).blocks lbi) : Int) - lp)) remaining)
    have hsucc : ∀ k, (lightReadLoop before (k + 1) s lbi lp remaining).2 = peek before
        ((s.touch lbi).popBread.disk (getBlockNumber ((s.touch lbi).blocks lbi))) lp
        (min (u64 ((getBlockSize ((s.touch lbi).blocks lbi) : Int) - lp)) remaining) ++
        (lightReadLoop before k (s.touch lbi).popBread.popUcopy (lbi + 1) 0 (remaining -
          min (u64 ((getBlockSize ((s.touch lbi).blocks lbi) : Int) - lp)) remaining)).2 := by
      intro k
      rw [lightReadLoop, if_neg hrem]
      simp only
      rw [if_neg hread, if_neg havail, if_neg hcopy]
    refine ⟨m + 1, ?_, Nat.succ_le_succ hle, ?_, ?_⟩
    · rw [hm, if_neg (Nat.succ_ne_zero m), ite_self]
      congr 1
      omega
    · rw [hsucc, hsame]
    · intro k hk
      rw [List.length_append, peek_length]
      cases k with
      | zero =>
        change 0 < _
        omega
      | succ k =>
        rw [hsucc, List.length_append, peek_length]
        have := hless k (by omega)
        omega

/-- The cursor is in a data block and has all of its recorded bytes behind it. -/
def Drained (s : Ctx) (cursor : Nat × Int) : Prop :=
  cursor.1 < s.node.iBlocks - 1 ∧ (getBlockSize (s.blocks cursor.1) : Int) = cursor.2

/-- The loop collects what is asked for, or all there is, or stops at a block
without bytes left. -/
theorem lightReadCursor_cases (disk : Store) (L : List Word) :
    ∀ (s : Ctx) (k lp remaining : Nat), Calm s s →
      (∀ i, i < L.length → s.blocks (k + i) = L[i]?.getD 0) →
      (∀ e, L.head? = some e → lp ≤ getBlockSize e) →
      (gather disk L lp remaining).length = min remaining (total L - lp) ∨
        ∃ i, i < L.length ∧
          lightReadCursor L.length s k lp remaining =
            (k + i, (getBlockSize (s.blocks (k + i)) : Int)) := by
  induction L with
  | nil =>
    intro s k lp remaining _ _ _
    exact Or.inl (by simp [gather])
  | cons e L ih =>
    intro s k lp remaining calm hblocks hlp
    have hk : s.blocks k = e := by simpa using hblocks 0 (by simp)
    have hat : (s.touch k).blocks k = e := hk
    have hle : lp ≤ getBlockSize e := hlp e rfl
    have hs := getBlockSize_le e
    have hread : ¬ (s.touch k).io.bread 0 = false := by
      rw [show (s.touch k).io.bread 0 = true from calm.reads 0]
      decide
    have hcopy : ¬ (s.touch k).popBread.io.ucopy 0 ≠ none := fun h => h (calm.copies 0)
    have havail : u64 ((getBlockSize e : Int) - lp) = getBlockSize e - lp := u64_sub hle (by omega)
    by_cases hrem : remaining = 0
    · left
      rw [gather, if_pos (Or.inl hrem), hrem]
      simp
    by_cases hdry : getBlockSize e - lp = 0
    · right
      refine ⟨0, by simp, ?_⟩
      rw [List.length_cons, lightReadCursor, if_neg hrem]
      simp only [hat, if_neg hread, havail, if_pos hdry, Nat.add_zero]
      rw [show s.blocks k = e from hk]
      congr 1
      omega
    have hgather : gather disk (e :: L) lp remaining =
        slice (disk (getBlockNumber e)) lp (min (getBlockSize e - lp) remaining) ++
          gather disk L 0 (remaining - min (getBlockSize e - lp) remaining) := by
      rw [gather, if_neg (not_or.mpr ⟨hrem, hdry⟩)]
    have hcursor : lightReadCursor (e :: L).length s k lp remaining =
        lightReadCursor L.length (s.touch k).popBread.popUcopy (k + 1) (0 : Nat)
          (remaining - min (getBlockSize e - lp) remaining) := by
      rw [List.length_cons, lightReadCursor, if_neg hrem]
      simp only [hat, if_neg hread, havail, if_neg hdry, if_neg hcopy]
      rfl
    have hnext : ∀ i, i < L.length →
        (s.touch k).popBread.popUcopy.blocks (k + 1 + i) = L[i]?.getD 0 := by
      intro i hi
      have hslot : s.blocks (k + (i + 1)) = L[i]?.getD 0 := hblocks (i + 1) (by simpa using hi)
      rw [show k + 1 + i = k + (i + 1) by omega]
      exact hslot
    rw [hgather, hcursor, List.length_append, slice_length, total_cons]
    rcases ih (s.touch k).popBread.popUcopy (k + 1) 0
      (remaining - min (getBlockSize e - lp) remaining)
      ⟨rfl, rfl, fun n => calm.reads (n + 1), fun n => calm.copies (n + 1)⟩ hnext
      (fun _ _ => Nat.zero_le _) with hall | ⟨i, hi, hstop⟩
    · left
      rw [hall]
      omega
    · right
      refine ⟨i + 1, by simpa using hi, ?_⟩
      rw [hstop, show k + 1 + i = k + (i + 1) by omega]
      rfl

/-- A call delivers a prefix of the content behind the cursor, and less than the
size asked for only at the end of the file or at a drained block. -/
theorem ouichefsLightRead_delivers (before : Nat → Byte) (fFlags size pos : Nat) (s : Ctx)
    (wf : WellFormed s) (apart : s.node.indexBlock ∉ numbers s.entries)
    (reads : s.io.NoReadFails) (copies : s.io.NoCopyFails)
    (readable : readFlags fFlags = true) (le : pos ≤ s.node.iSize) :
    ∃ m, (ouichefsLightRead before s fFlags size pos).data = (s.content.drop pos).take m ∧
      (ouichefsLightRead before s fFlags size pos).ret = m ∧
      (ouichefsLightRead before s fFlags size pos).pos = pos + m ∧
      (ouichefsLightRead before s fFlags size pos).data.length = m ∧
      m ≤ min size (s.node.iSize - pos) ∧
      (m < min size (s.node.iSize - pos) →
        ∃ cursor, ouichefsLightReadCursor s size pos = some cursor ∧ Drained s cursor) := by
  have hshape := wf.shape apart
  have hcalm : Calm s s := ⟨rfl, rfl, reads, copies⟩
  have hle : pos ≤ total s.entries := wf.size ▸ le
  obtain ⟨A, L, p, hsplit, hcut, hfound⟩ := findBlockPos_cut hshape hle
  obtain ⟨t, _, hrun⟩ := ouichefsLightRead_run hshape
    hcalm readable hsplit hcut hfound
  obtain ⟨hpre, hbound⟩ := gather_starts s.disk L p size hcut.le_head
  rw [hcut.prefix_content] at hpre
  have hlen := hpre.length_le
  rw [List.length_drop, bytesOf_length, ← wf.size] at hlen
  rw [hrun]
  refine ⟨(gather s.disk L p size).length, ?_, rfl, rfl, rfl, Nat.le_min.mpr ⟨hbound, hlen⟩, ?_⟩
  · exact List.prefix_iff_eq_take.mp hpre
  · intro hshort
    have hself : Calm s.popBread s.popBread := ⟨rfl, rfl, fun n => reads (n + 1), copies⟩
    have hcount := count_behind hshape hsplit
    have hentries : s.entries.length = A.length + L.length := by
      rw [← List.length_append, ← hsplit]
    rw [entries_length] at hentries
    refine ⟨lightReadCursor L.length s.popBread A.length p size, ?_, ?_⟩
    · unfold ouichefsLightReadCursor
      simp only [hfound, Option.map_some, hcount]
    · rcases lightReadCursor_cases s.disk L s.popBread A.length p size hself
        (blocks_behind (s := s) hshape hsplit) hcut.le_head with hall | ⟨i, hi, hstop⟩
      · rw [hcut.left, ← wf.size] at hall
        omega
      · rw [hstop]
        exact ⟨by simp only; omega, rfl⟩

/-- The last two bytes of a file of three are asked for. -/
theorem ouichefsLightRead_delivers_small : smallCtx.node.iSize = 3 ∧
    ∃ m, (ouichefsLightRead (fun _ => 0) smallCtx 0 2 1).data = (smallCtx.content.drop 1).take m := by
  have hsize : smallCtx.node.iSize = 3 := rfl
  obtain ⟨m, hdata, _⟩ := ouichefsLightRead_delivers (fun _ => 0) 0 2 1 smallCtx
    (smallCtx_shape.wellFormed smallCtx_held.nonzero rfl) (smallCtx_shape.live smallCtx_held).apart
    (fun _ => rfl) (fun _ => rfl) (by decide) (by rw [hsize]; decide)
  exact ⟨hsize, m, hdata⟩

end Delivery
